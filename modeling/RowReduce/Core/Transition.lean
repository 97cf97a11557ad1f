import Mathlib.Logic.Relation
import Mathlib.Tactic

/-!
# Transition systems

Reachability, the invariant rule, and termination by a decreasing measure, for
an arbitrary step relation; and runs of labelled actions, along which a property
fails exactly when some action breaks its guard.
-/

namespace Transition

variable {State : Type} {step : State → State → Prop} {start s t : State}

/-- `s` is reached from `start` in finitely many steps. -/
def Reachable (step : State → State → Prop) (start s : State) : Prop :=
  Relation.ReflTransGen step start s

/-- A property that holds at the start and is kept by each step holds at every reachable state. -/
theorem Reachable.invariant {inv : State → Prop} (h : Reachable step start s) (h0 : inv start)
    (hstep : ∀ s t, inv s → step s t → inv t) : inv s := by
  induction h with
  | refl => exact h0
  | tail _ hst ih => exact hstep _ _ ih hst

/-- An endless sequence of steps from `start`. -/
def InfiniteRun (step : State → State → Prop) (start : State) (run : ℕ → State) : Prop :=
  run 0 = start ∧ ∀ n, step (run n) (run (n + 1))

/-- Every state of an endless run is reached. -/
theorem InfiniteRun.reachable {run : ℕ → State} (h : InfiniteRun step start run) (n : ℕ) :
    Reachable step start (run n) := by
  induction n with
  | zero => rw [h.1]; exact Relation.ReflTransGen.refl
  | succ n ih => exact ih.tail (h.2 n)

/-- A measure that every step from a reachable state decreases excludes endless runs. -/
theorem not_infiniteRun (rank : State → ℕ)
    (hstep : ∀ s t, Reachable step start s → step s t → rank t < rank s) (run : ℕ → State) :
    ¬InfiniteRun step start run := by
  intro h
  have hle : ∀ n, rank (run n) + n ≤ rank (run 0) := by
    intro n
    induction n with
    | zero => simp
    | succ n ih =>
      have := hstep _ _ (h.reachable n) (h.2 n)
      omega
  have := hle (rank (run 0) + 1)
  omega

/-- Where every unfinished state can step and runs are finite, some run finishes. -/
theorem exists_reachable_finished (rank : State → ℕ) {finished : State → Prop}
    (hstep : ∀ s t, Reachable step start s → step s t → rank t < rank s)
    (hprogress : ∀ s, Reachable step start s → ¬finished s → ∃ t, step s t)
    (hs : Reachable step start s) : ∃ t, Reachable step s t ∧ finished t := by
  induction hr : rank s using Nat.strong_induction_on generalizing s with
  | _ n ih =>
    by_cases hf : finished s
    · exact ⟨s, Relation.ReflTransGen.refl, hf⟩
    · obtain ⟨t, ht⟩ := hprogress s hs hf
      obtain ⟨u, hu, hfin⟩ := ih (rank t) (hr ▸ hstep s t hs ht) (hs.tail ht) rfl
      exact ⟨u, hu.head ht, hfin⟩

section Actions

variable {Action : Type} (act : Action → State → Option State)

/-- The property holds in every state of the run; a disabled action ends it. -/
def Always (property : State → Prop) : State → List Action → Prop
  | s, [] => property s
  | s, a :: actions => property s ∧ ∀ t, act a s = some t → Always property t actions

/-- Every action of the run meets its guard where it is taken. -/
def Guarded (guard : Action → State → Prop) : State → List Action → Prop
  | _, [] => True
  | s, a :: actions => guard a s ∧ ∀ t, act a s = some t → Guarded guard t actions

/-- The guards along a run can be evaluated. -/
instance Guarded.decidable {guard : Action → State → Prop} [∀ a s, Decidable (guard a s)] :
    ∀ s actions, Decidable (Guarded act guard s actions)
  | _, [] => inferInstanceAs (Decidable True)
  | s, a :: actions =>
    have (t : State) : Decidable (Guarded act guard t actions) := Guarded.decidable t actions
    inferInstanceAs (Decidable (guard a s ∧ ∀ t ∈ act a s, Guarded act guard t actions))

variable {act} {property inv : State → Prop} {guard : Action → State → Prop}

/-- What holds throughout a run holds at its start. -/
theorem Always.head {actions : List Action} (h : Always act property s actions) : property s := by
  cases actions with
  | nil => exact h
  | cons a actions => exact h.1

/-- An invariant that guarded actions keep holds along guarded runs. -/
theorem Guarded.always {actions : List Action} (hinv : ∀ s, inv s → property s)
    (hstep : ∀ a s t, inv s → guard a s → act a s = some t → inv t) (h0 : inv s)
    (h : Guarded act guard s actions) : Always act property s actions := by
  induction actions generalizing s with
  | nil => exact hinv s h0
  | cons a actions ih =>
    exact ⟨hinv s h0, fun t ht => ih (hstep a s t h0 h.1 ht) (h.2 t ht)⟩

/-- An invariant that all actions keep holds along all runs. -/
theorem always_of_invariant {actions : List Action} (hinv : ∀ s, inv s → property s)
    (hstep : ∀ a s t, inv s → act a s = some t → inv t) (h0 : inv s) :
    Always act property s actions := by
  induction actions generalizing s with
  | nil => exact hinv s h0
  | cons a actions ih => exact ⟨hinv s h0, fun t ht => ih (hstep a s t h0 ht)⟩

/-- Where every unguarded action breaks the property, it holds along guarded runs only. -/
theorem always_iff_guarded {actions : List Action} (hinv : ∀ s, inv s → property s)
    (hstep : ∀ a s t, inv s → guard a s → act a s = some t → inv t)
    (hbreak : ∀ a s, inv s → ¬guard a s → ∃ t, act a s = some t ∧ ¬property t) (h0 : inv s) :
    Always act property s actions ↔ Guarded act guard s actions := by
  refine ⟨fun h => ?_, Guarded.always hinv hstep h0⟩
  induction actions generalizing s with
  | nil => trivial
  | cons a actions ih =>
    have hguard : guard a s := by
      by_contra hg
      obtain ⟨t, ht, hbad⟩ := hbreak a s h0 hg
      exact hbad (h.2 t ht).head
    exact ⟨hguard, fun t ht => ih (hstep a s t h0 hguard ht) (h.2 t ht)⟩

end Actions

end Transition
