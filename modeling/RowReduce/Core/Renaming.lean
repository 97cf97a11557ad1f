import RowReduce.Core.Journal

/-!
# Files published by renaming

Writes to a directory with renames between them. A file that is written under
another name and then renamed is, at every interruption, as it was before or
whole.
-/

namespace Renaming

open Journal

variable {Name Symbol : Type}

inductive Step (Name Symbol : Type) where
  | write (e : Effect Name Symbol)
  /-- The file is moved, and what the new name held is replaced. -/
  | rename (source target : Name)

def Step.Avoids (name : Name) : Step Name Symbol → Prop
  | .write e => e.name ≠ name
  | .rename source target => source ≠ name ∧ target ≠ name

/-- A whole text in a new file. -/
def writes (name : Name) (text : List Symbol) : List (Step Name Symbol) :=
  (writeText name text).map .write

/-- Writing another file avoids the name. -/
theorem avoids_writes {name other : Name} (h : other ≠ name) (text : List Symbol) :
    ∀ s ∈ writes other text, s.Avoids name := by
  intro s hs
  obtain ⟨e, he, rfl⟩ := List.mem_map.mp hs
  exact avoids_writeText h text e he

variable [DecidableEq Name]

def Step.run (d : Directory Name Symbol) : Step Name Symbol → Directory Name Symbol
  | .write e => e.run d
  | .rename source target =>
    match d.lookup source with
    | none => d
    | some text => (target, text) :: d.filter fun p => decide (p.1 ≠ source ∧ p.1 ≠ target)

/-- The directory after the steps, in order. -/
def runSteps (d : Directory Name Symbol) (steps : List (Step Name Symbol)) :
    Directory Name Symbol :=
  steps.foldl Step.run d

section Lookup

variable {name source target : Name} {text : List Symbol} {d : Directory Name Symbol}
  {steps before after : List (Step Name Symbol)}

/-- Steps in sequence run one part after the other. -/
theorem runSteps_append (d : Directory Name Symbol) (before after : List (Step Name Symbol)) :
    runSteps d (before ++ after) = runSteps (runSteps d before) after :=
  List.foldl_append

private theorem runSteps_writes (d : Directory Name Symbol) (name : Name) (text : List Symbol) :
    runSteps d (writes name text) = Journal.run d (writeText name text) :=
  List.foldl_map

/-- A written file has the written text. -/
theorem lookup_writes (d : Directory Name Symbol) (name : Name) (text : List Symbol) :
    (runSteps d (writes name text)).lookup name = some text := by
  have h := @lookup_run_writeText Name Symbol _ name d [] [] (by simp [Avoids]) text
  rwa [List.append_nil, List.nil_append, ← runSteps_writes] at h

/-- A renamed file has the text of its source. -/
theorem lookup_rename (h : d.lookup source = some text) :
    (Step.run d (.rename source target)).lookup target = some text := by
  rw [Step.run, h, List.lookup_cons, beq_self_eq_true]

private theorem lookup_filter {keep : Name → Bool} (h : keep name = true) :
    (d.filter fun p => keep p.1).lookup name = d.lookup name := by
  induction d with
  | nil => rfl
  | cons p d ih =>
    by_cases hname : name = p.1
    · rw [List.filter_cons_of_pos (by rwa [← hname]), List.lookup_cons, List.lookup_cons,
        beq_iff_eq.mpr hname]
    · have hcons : (p :: d).lookup name = d.lookup name := by
        rw [List.lookup_cons, beq_eq_false_iff_ne.mpr hname]
      cases hkeep : keep p.1 with
      | false => rw [List.filter_cons_of_neg (by simp [hkeep]), ih, hcons]
      | true =>
        rw [List.filter_cons_of_pos (by simpa using hkeep), List.lookup_cons,
          beq_eq_false_iff_ne.mpr hname, hcons]
        exact ih

private theorem lookup_step_of_avoids {s : Step Name Symbol} (h : s.Avoids name) :
    (s.run d).lookup name = d.lookup name := by
  cases s with
  | write e =>
      exact @lookup_run_of_avoids Name Symbol _ name d [e] (List.forall_mem_singleton.mpr h)
  | rename source target =>
    rw [Step.run]
    cases hsource : d.lookup source with
    | none => rfl
    | some text =>
      dsimp only
      rw [List.lookup_cons, beq_eq_false_iff_ne.mpr h.2.symm]
      exact @lookup_filter Name Symbol _ name d
        (fun other => decide (other ≠ source ∧ other ≠ target))
        (decide_eq_true ⟨h.1.symm, h.2.symm⟩)

/-- Steps that avoid a name leave its text. -/
theorem lookup_runSteps_of_avoids (h : ∀ s ∈ steps, s.Avoids name) :
    (runSteps d steps).lookup name = d.lookup name := by
  induction steps generalizing d with
  | nil => rfl
  | cons s steps ih =>
    obtain ⟨hs, h⟩ := List.forall_mem_cons.mp h
    exact (ih h).trans (lookup_step_of_avoids hs)

/-- Whenever the steps are interrupted, the published file is as before or whole. -/
theorem lookup_publish_take (htext : (runSteps d before).lookup source = some text)
    (hbefore : ∀ s ∈ before, s.Avoids target) (hafter : ∀ s ∈ after, s.Avoids target) (cut : ℕ) :
    (runSteps d ((before ++ .rename source target :: after).take cut)).lookup target =
        d.lookup target ∨
      (runSteps d ((before ++ .rename source target :: after).take cut)).lookup target =
        some text := by
  rw [List.take_append]
  cases hcut : cut - before.length with
  | zero =>
    rw [List.take_zero, List.append_nil]
    exact Or.inl (lookup_runSteps_of_avoids fun s hs => hbefore s (List.mem_of_mem_take hs))
  | succ k =>
    have hcons : runSteps (runSteps d before) (.rename source target :: after.take k) =
        runSteps (Step.run (runSteps d before) (.rename source target)) (after.take k) := rfl
    rw [List.take_of_length_le (by omega), List.take_succ_cons, runSteps_append, hcons,
      lookup_runSteps_of_avoids fun s hs => hafter s (List.mem_of_mem_take hs)]
    exact Or.inr (lookup_rename htext)

end Lookup

end Renaming
