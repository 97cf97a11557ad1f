import RowReduce.Core.Transition
import RowReduce.Tools.HeavyLock

/-!
# Safety of the heavy-build lock

In every run at most one process runs its command and only the process that made
the lock directory touches it. A process leaves the directory behind exactly
when a signal reaches it before its EXIT trap is set, or while it releases.
-/

namespace RowReduce

open Transition

variable {P : Type} {owner : P → String}

/-- The owner file while a process holds the lock; nothing where it does not hold it. -/
def heldFile (text : String) : Point → Option (Option String)
  | .acquired => some none
  | .opened => some (some "")
  | .recorded | .exitTrapped | .intTrapped | .trapped | .running | .releasing | .removing =>
    some (some text)
  | .unlocking => some none
  | .start | .ready | .lost | .terminated => none

/-- A process that holds the lock made the directory, and the owner file is as it left it. -/
def Held (owner : P → String) (s : LockState P) : Prop :=
  ∀ p file, heldFile (owner p) (s.point p) = some file → s.lock = some ⟨some p, file⟩

/-- The process whose directory it is holds the lock. -/
def NoOrphan (owner : P → String) (s : LockState P) : Prop :=
  ∀ p file, s.lock = some ⟨some p, file⟩ → (heldFile (owner p) (s.point p)).isSome

/-- Where INT or TERM ends a process that leaves its directory behind. -/
def Point.Exposed (point : Point) : Prop :=
  point ∈ [Point.acquired, .opened, .recorded, .releasing, .removing, .unlocking]

instance (point : Point) : Decidable point.Exposed := inferInstanceAs (Decidable (point ∈ _))

/-- No signal reaches a process at an exposed point. -/
def Unexposed : LockAction P → LockState P → Prop
  | .step _, _ => True
  | .signal p, s => ¬(s.point p).Exposed

instance : ∀ (a : LockAction P) (s : LockState P), Decidable (Unexposed a s)
  | .step _, _ => inferInstanceAs (Decidable True)
  | .signal p, s => inferInstanceAs (Decidable ¬(s.point p).Exposed)

/-- What a command of a process does to the directory: nothing from outside, make it,
change its own, or remove its own. -/
inductive LockChange (owner : P → String) (p : P) :
    Point → Option (LockDir P) → Point → Option (LockDir P) → Prop where
  | outside {point point' : Point} {lock : Option (LockDir P)} :
      heldFile (owner p) point = none → heldFile (owner p) point' = none →
      LockChange owner p point lock point' lock
  | acquires {point point' : Point} :
      heldFile (owner p) point = none → heldFile (owner p) point' = some none →
      LockChange owner p point none point' (some ⟨some p, none⟩)
  | holds {point point' : Point} {file file' : Option String} :
      heldFile (owner p) point = some file → heldFile (owner p) point' = some file' →
      LockChange owner p point (some ⟨some p, file⟩) point' (some ⟨some p, file'⟩)
  | releases {point point' : Point} {file : Option String} :
      heldFile (owner p) point = some file → heldFile (owner p) point' = none →
      LockChange owner p point (some ⟨some p, file⟩) point' none

/-- Each command is one of the four changes. -/
theorem lockChange_of_advance {p : P} {lock lock' : Option (LockDir P)} {point point' : Point}
    (hheld : ∀ file, heldFile (owner p) point = some file → lock = some ⟨some p, file⟩)
    (hstep : advance owner p lock point = some (point', lock')) :
    LockChange owner p point lock point' lock' := by
  cases point with
  | start | lost =>
    obtain ⟨rfl, rfl⟩ := Prod.mk.inj (Option.some.inj hstep)
    exact .outside rfl rfl
  | ready =>
    cases lock with
    | none =>
      obtain ⟨rfl, rfl⟩ := Prod.mk.inj (Option.some.inj hstep)
      exact .acquires rfl rfl
    | some dir =>
      obtain ⟨rfl, rfl⟩ := Prod.mk.inj (Option.some.inj hstep)
      exact .outside rfl rfl
  | acquired | opened | recorded | exitTrapped | intTrapped | trapped | running | removing =>
    obtain rfl := hheld _ rfl
    obtain ⟨rfl, rfl⟩ := Prod.mk.inj (Option.some.inj hstep)
    exact .holds rfl rfl
  | releasing =>
    obtain rfl := hheld _ rfl
    have hown : (some ⟨some p, some (owner p)⟩ : Option (LockDir P)).bind LockDir.owner =
        some (owner p) := rfl
    rw [advance, if_pos hown] at hstep
    obtain ⟨rfl, rfl⟩ := Prod.mk.inj (Option.some.inj hstep)
    exact .holds rfl rfl
  | unlocking =>
    obtain rfl := hheld _ rfl
    obtain ⟨rfl, rfl⟩ := Prod.mk.inj (Option.some.inj hstep)
    exact .releases rfl rfl
  | terminated => cases hstep

/-- Only the directory's own process changes it. -/
theorem LockChange.lock_eq {p : P} {lock lock' : Option (LockDir P)} {point point' : Point}
    (h : LockChange owner p point lock point' lock') {dir : LockDir P} (hdir : lock = some dir)
    (hp : dir.creator ≠ some p) : lock' = lock := by
  cases h with
  | outside => rfl
  | acquires => cases hdir
  | holds | releases =>
    obtain rfl := Option.some.inj hdir
    exact absurd rfl hp

section Action

variable [DecidableEq P] {s t : LockState P}

/-- A step changes the lock like its command and moves no other process. -/
theorem lockChange_of_step (hheld : Held owner s) {p : P}
    (h : lockAct owner (.step p) s = some t) :
    LockChange owner p (s.point p) s.lock (t.point p) t.lock ∧ ∀ q, q ≠ p →
      t.point q = s.point q := by
  obtain ⟨r, hr, rfl⟩ := Option.map_eq_some_iff.mp h
  refine ⟨?_, fun q hq => Function.update_of_ne hq _ _⟩
  have hpoint : Function.update s.point p r.1 p = r.1 := Function.update_self ..
  have hchange := lockChange_of_advance (hheld p) hr
  rwa [← hpoint] at hchange

/-- A signal moves one process and leaves the lock. -/
theorem eq_of_signal {p : P} (h : lockAct owner (.signal p) s = some t) :
    t.point p = signalled (s.point p) ∧ t.lock = s.lock ∧ ∀ q, q ≠ p → t.point q = s.point q := by
  obtain rfl := Option.some.inj h
  exact ⟨Function.update_self .., rfl, fun q hq => Function.update_of_ne hq _ _⟩

/-- After a signal a process holds the lock as before, or not at all. -/
theorem heldFile_signalled (text : String) (point : Point) :
    heldFile text (signalled point) = none ∧ (point.Exposed ∨ heldFile text point = none) ∨
      ¬point.Exposed ∧ heldFile text (signalled point) = heldFile text point := by
  cases point <;> simp [heldFile, signalled, Point.Exposed]

/-- Every action keeps the processes that hold the lock in possession of it. -/
theorem held_lockAct (a : LockAction P) (hheld : Held owner s) (h : lockAct owner a s = some t) :
    Held owner t := by
  intro q file hq
  cases a with
  | step p =>
    obtain ⟨hchange, hother⟩ := lockChange_of_step hheld h
    by_cases hqp : q = p
    · subst hqp
      generalize hlock : s.lock = lock at hchange
      generalize hlock' : t.lock = lock' at hchange ⊢
      cases hchange with
      | outside _ hnone | releases _ hnone =>
        rw [hnone] at hq
        cases hq
      | acquires _ hfile | holds _ hfile =>
        rw [hfile] at hq
        obtain rfl := Option.some.inj hq
        rfl
    · rw [hother q hqp] at hq
      have hlock := hheld q file hq
      rw [hchange.lock_eq hlock fun hp => hqp (Option.some.inj hp), hlock]
  | signal p =>
    obtain ⟨hpoint, hlock, hother⟩ := eq_of_signal h
    rw [hlock]
    by_cases hqp : q = p
    · subst hqp
      rw [hpoint] at hq
      rcases heldFile_signalled (owner q) (s.point q) with ⟨hnone, -⟩ | ⟨-, hsame⟩
      · rw [hnone] at hq
        cases hq
      · exact hheld q file (hsame ▸ hq)
    · rw [hother q hqp] at hq
      exact hheld q file hq

/-- Every action that is not exposed leaves no directory without its process. -/
theorem noOrphan_lockAct (a : LockAction P) (hheld : Held owner s) (horphan : NoOrphan owner s)
    (hguard : Unexposed a s) (h : lockAct owner a s = some t) : NoOrphan owner t := by
  intro q file hlock'
  cases a with
  | step p =>
    obtain ⟨hchange, hother⟩ := lockChange_of_step hheld h
    have hbefore := horphan q file
    generalize s.lock = lock at hchange hbefore
    generalize t.lock = lock' at hchange hlock'
    by_cases hqp : q = p
    · subst hqp
      cases hchange with
      | outside hnone _ =>
        have hheldFile := hbefore hlock'
        rw [hnone] at hheldFile
        cases hheldFile
      | acquires _ hfile | holds _ hfile =>
        rw [hfile]
        rfl
      | releases => cases hlock'
    · rw [hother q hqp]
      cases hchange with
      | outside => exact hbefore hlock'
      | acquires | holds =>
          exact absurd (LockDir.mk.inj (Option.some.inj hlock')).1 (by simp [Ne.symm hqp])
      | releases => cases hlock'
  | signal p =>
    obtain ⟨hpoint, hlock, hother⟩ := eq_of_signal h
    rw [hlock] at hlock'
    by_cases hqp : q = p
    · subst hqp
      rw [hpoint]
      rcases heldFile_signalled (owner q) (s.point q) with ⟨-, hexposed | hnone⟩ | ⟨-, hsame⟩
      · exact absurd hexposed hguard
      · have hheldFile := horphan q file hlock'
        rw [hnone] at hheldFile
        cases hheldFile
      · rw [hsame]
        exact horphan q file hlock'
    · rw [hother q hqp]
      exact horphan q file hlock'

end Action

section Runs

variable [DecidableEq P]

/-- One process at most runs its command, and a process leaves a directory that is not its own as it
is. -/
structure LockExclusive (owner : P → String) (s : LockState P) : Prop where
  exclusive : ∀ p q, s.point p = .running → s.point q = .running → p = q
  kept : ∀ p dir t, s.lock = some dir → dir.creator ≠ some p →
    lockAct owner (.step p) s = some t → t.lock = some dir

/-- Also the directory of a terminated process is gone. -/
structure LockSound (owner : P → String) (s : LockState P) : Prop
    extends LockExclusive owner s where
  released : ∀ p dir, s.point p = .terminated → s.lock = some dir → dir.creator ≠ some p

/-- Two processes that run would both have made the directory. -/
theorem lockExclusive_of_held {s : LockState P} (hheld : Held owner s) : LockExclusive owner s where
  exclusive p q hp hq := by
    have hlockp := hheld p (some (owner p)) (by rw [hp]; rfl)
    have hlockq := hheld q (some (owner q)) (by rw [hq]; rfl)
    have hdir := Option.some.inj (hlockp.symm.trans hlockq)
    exact Option.some.inj (LockDir.mk.inj hdir).1
  kept p dir t hlock hcreator h := by
    obtain ⟨hchange, -⟩ := lockChange_of_step hheld h
    rw [hchange.lock_eq hlock hcreator, hlock]

/-- A terminated process holds no lock. -/
theorem lockSound_of_noOrphan {s : LockState P} (hheld : Held owner s)
    (horphan : NoOrphan owner s) :
    LockSound owner s where
  toLockExclusive := lockExclusive_of_held hheld
  released := by
    rintro p ⟨creator, file⟩ hp hlock rfl
    have hsome := horphan p file hlock
    rw [hp] at hsome
    cases hsome

omit [DecidableEq P] in
/-- At the start no process holds the lock. -/
theorem held_initial {s : LockState P} (h : s.Initial) : Held owner s := by
  intro p file hfile
  rw [h.point p] at hfile
  cases hfile

omit [DecidableEq P] in
/-- And none of them has made a directory. -/
theorem noOrphan_initial {s : LockState P} (h : s.Initial) : NoOrphan owner s :=
  fun p file hlock => nomatch h.lock ⟨some p, file⟩ hlock

/-- A signal at an exposed point leaves the directory of a terminated process. -/
theorem not_lockSound_of_exposed {s : LockState P} (hheld : Held owner s) {p : P}
    (h : (s.point p).Exposed) : ∃ t, lockAct owner (.signal p) s = some t ∧ ¬LockSound owner t := by
  refine ⟨_, rfl, fun hsound => ?_⟩
  have hterminated : signalled (s.point p) = .terminated := by
    revert h
    cases s.point p <;> simp [Point.Exposed, signalled]
  obtain ⟨file, hfile⟩ : ∃ file, heldFile (owner p) (s.point p) = some file := by
    revert h
    cases s.point p <;> simp [Point.Exposed, heldFile]
  refine hsound.released p _ ?_ (hheld p file hfile) rfl
  rw [← hterminated]
  exact Function.update_self ..

/-- Every run excludes two running commands and protects the directory; every state reached has
released its terminated processes' directories exactly when no signal reaches a process between
making the directory and setting its EXIT trap, or while it releases. -/
theorem heavyLock_sound_iff (owner : P → String) (s : LockState P) (actions : List (LockAction P))
    (h : s.Initial) :
    Always (lockAct owner) (LockExclusive owner) s actions ∧
      (Always (lockAct owner) (LockSound owner) s actions ↔
        Guarded (lockAct owner) Unexposed s actions) := by
  constructor
  · exact always_of_invariant (fun _ => lockExclusive_of_held) (fun a _ _ => held_lockAct a)
      (held_initial h)
  · refine @always_iff_guarded _ _ _ _ _ (fun s => Held owner s ∧ NoOrphan owner s) _ _
      (fun s hs => lockSound_of_noOrphan hs.1 hs.2) ?_ ?_ ⟨held_initial h, noOrphan_initial h⟩
    · intro a s t hs hguard hact
      exact ⟨held_lockAct a hs.1 hact, noOrphan_lockAct a hs.1 hs.2 hguard hact⟩
    · intro a s hs hguard
      cases a with
      | step p => exact absurd trivial hguard
      | signal p => exact not_lockSound_of_exposed hs.1 (not_not.mp hguard)

end Runs

/-- No process has started, and there is no directory. -/
def unlocked (P : Type) : LockState P where
  point _ := .start
  lock := none

private theorem unlocked_initial (P : Type) : (unlocked P).Initial where
  point _ := rfl
  lock _ h := nomatch h

/-- Of two processes the first makes the directory. The second loses and a signal ends it; another
signal reaches the first while its command runs, and at the end it releases. -/
def raceActions : List (LockAction Bool) :=
  [.step true, .step false, .step true, .step false, .signal false] ++
    List.replicate 6 (.step true) ++ [.signal true] ++ List.replicate 4 (.step true)

def raceOwner (first : Bool) : String :=
  if first then "tt-row-reduce-lab:1:" else "tt-row-reduce-lab:2:"

/-- Throughout the race one command runs at most, and the directory is gone at the end. -/
theorem heavyLock_sound_iff_race :
    Always (lockAct raceOwner) (LockSound raceOwner) (unlocked Bool) raceActions :=
  (heavyLock_sound_iff raceOwner (unlocked Bool) raceActions (unlocked_initial Bool)).2.mpr
    (by decide)

/-- A signal right after the directory has been made leaves it behind. -/
theorem not_heavyLock_sound : ¬∀ (P : Type) [DecidableEq P] (owner : P → String)
    (s : LockState P) (actions : List (LockAction P)), s.Initial →
      Always (lockAct owner) (LockSound owner) s actions := by
  intro h
  have hrun := h Unit (fun _ => "") (unlocked Unit)
    [.step (), .step (), .signal ()] (unlocked_initial Unit)
  have hend := ((hrun.2 _ rfl).2 _ rfl).2 _ rfl
  exact hend.released () ⟨some (), none⟩ rfl rfl rfl

end RowReduce
