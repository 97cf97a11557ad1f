import Mathlib.Logic.Function.Basic

/-!
# The heavy-build lock

Processes that run the lock script on one base directory. Each step is one
command of the script, and INT or TERM may arrive between any two of them. The
shell runs its EXIT trap when a signal ends it, waits for a running command
before it runs a signal's trap, and does not restart an EXIT trap whose signal
trap exits.
-/

namespace RowReduce

/-- The next command of a process. -/
inductive Point where
  /-- `mkdir -p "$base"` -/
  | start
  /-- `mkdir "$lock"` -/
  | ready
  /-- The lost race: the message, and `exit 75`. -/
  | lost
  /-- Creating `"$lock/owner"` for the redirection. -/
  | acquired
  /-- Writing the owner to it. -/
  | opened
  /-- `trap release EXIT` -/
  | recorded
  /-- `trap 'exit 130' INT` -/
  | exitTrapped
  /-- `trap 'exit 143' TERM` -/
  | intTrapped
  /-- Starting the command. -/
  | trapped
  /-- The command runs; the next step is its end, whatever its status. -/
  | running
  /-- The test in `release`. -/
  | releasing
  /-- `rm "$lock/owner"` -/
  | removing
  /-- `rmdir "$lock"` -/
  | unlocking
  | terminated
  deriving DecidableEq, Repr

/-- The lock directory: the process that made it, if it is one of these, and the first line of its
owner file. -/
structure LockDir (P : Type) where
  creator : Option P
  owner : Option String
  deriving DecidableEq

structure LockState (P : Type) where
  point : P → Point
  lock : Option (LockDir P)

section Script

variable {P : Type} (owner : P → String)

def writeOwner (content : Option String) (lock : Option (LockDir P)) : Option (LockDir P) :=
  lock.map fun dir => { dir with owner := content }

/-- One command of process `p`: where it goes on, and the lock directory after it. -/
def advance (p : P) (lock : Option (LockDir P)) : Point → Option (Point × Option (LockDir P))
  | .start => some (.ready, lock)
  | .ready =>
    match lock with
    | none => some (.acquired, some ⟨some p, none⟩)
    | some dir => some (.lost, some dir)
  | .lost => some (.terminated, lock)
  | .acquired => some (.opened, writeOwner (some "") lock)
  | .opened => some (.recorded, writeOwner (some (owner p)) lock)
  | .recorded => some (.exitTrapped, lock)
  | .exitTrapped => some (.intTrapped, lock)
  | .intTrapped => some (.trapped, lock)
  | .trapped => some (.running, lock)
  | .running => some (.releasing, lock)
  | .releasing =>
    if lock.bind LockDir.owner = some (owner p) then some (.removing, lock)
    else some (.terminated, lock)
  | .removing => some (.unlocking, writeOwner none lock)
  | .unlocking =>
    -- `rmdir` removes an empty directory only
    match lock with
    | some ⟨_, none⟩ => some (.terminated, none)
    | lock => some (.terminated, lock)
  | .terminated => none

/-- Where a process goes on after INT or TERM. -/
def signalled : Point → Point
  | .start | .ready | .lost | .acquired | .opened | .recorded => .terminated
  | .exitTrapped | .intTrapped | .trapped => .releasing
  | .running => .running
  | .releasing | .removing | .unlocking | .terminated => .terminated

/-- A process takes its next command, or a signal reaches it. -/
inductive LockAction (P : Type) where
  | step (p : P)
  | signal (p : P)

variable [DecidableEq P]

def lockAct : LockAction P → LockState P → Option (LockState P)
  | .step p, s => (advance owner p s.lock (s.point p)).map fun r =>
      ⟨Function.update s.point p r.1, r.2⟩
  | .signal p, s => some { s with point := Function.update s.point p (signalled (s.point p)) }

end Script

/-- No process has started; a lock directory, if there is one, is none of theirs. -/
structure LockState.Initial {P : Type} (s : LockState P) : Prop where
  point : ∀ p, s.point p = .start
  lock : ∀ dir, s.lock = some dir → dir.creator = none

end RowReduce
