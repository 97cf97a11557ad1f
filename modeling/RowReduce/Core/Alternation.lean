import Mathlib.Data.List.Nodup
import Mathlib.Data.List.Range
import Mathlib.Logic.Function.Iterate
import Mathlib.Tactic.Common

/-!
# Alternation

A sequence that goes to one of two values and from there back and forth.
-/

namespace Alternation

variable {α : Type} [DecidableEq α] {a b : α}

/-- `b` after `a`, and `a` after anything else. -/
def alternate (a b x : α) : α := if x = a then b else a

/-- After `a` comes `b`. -/
theorem alternate_self (a b : α) : alternate a b a = b := if_pos rfl

/-- After anything else comes `a`. -/
theorem alternate_of_ne {x : α} (h : x ≠ a) : alternate a b x = a := if_neg h

/-- From the second element on the sequence has period two. -/
theorem alternate_alternate (hab : a ≠ b) {x : α} (h : x = a ∨ x = b) :
    alternate a b (alternate a b x) = x := by
  rcases h with rfl | rfl
  · rw [alternate_self, alternate_of_ne hab.symm]
  · rw [alternate_of_ne hab.symm, alternate_self]

/-- Only the two values come after anything. -/
theorem alternate_cases (a b x : α) : alternate a b x = a ∨ alternate a b x = b := by
  unfold alternate
  split_ifs
  · exact Or.inr rfl
  · exact Or.inl rfl

/-- Nothing is followed by itself. -/
theorem alternate_ne (hab : a ≠ b) (x : α) : alternate a b x ≠ x := by
  by_cases h : x = a
  · rw [h, alternate_self]
    exact hab.symm
  · rw [alternate_of_ne h]
    exact Ne.symm h

/-- The first elements of an alternating sequence are distinct just while it has not come back. -/
theorem nodup_alternate_iff (hab : a ≠ b) (x : α) (n : ℕ) :
    ((List.range n).map fun i => (alternate a b)^[i] x).Nodup ↔
      n ≤ 2 ∨ n = 3 ∧ x ≠ a ∧ x ≠ b := by
  have h1 : (alternate a b)^[1] x ≠ (alternate a b)^[0] x := alternate_ne hab x
  have h2 : (alternate a b)^[2] x ≠ (alternate a b)^[1] x := alternate_ne hab _
  have h20 : (alternate a b)^[2] x = (alternate a b)^[0] x ↔ x = a ∨ x = b := by
    constructor
    · intro h
      rw [← show (alternate a b)^[2] x = x from h]
      exact alternate_cases a b _
    · exact alternate_alternate hab
  have h31 : (alternate a b)^[3] x = (alternate a b)^[1] x :=
    alternate_alternate hab (alternate_cases a b x)
  rw [List.nodup_map_iff_inj_on List.nodup_range]
  simp only [List.mem_range]
  constructor
  · intro h
    by_contra hn
    rw [not_or, not_and, not_le] at hn
    by_cases h4 : 4 ≤ n
    · exact absurd (h 3 (by omega) 1 (by omega) h31) (by decide)
    · obtain rfl : n = 3 := by omega
      refine hn.2 rfl ⟨fun hx => ?_, fun hx => ?_⟩
      · exact absurd (h 2 (by omega) 0 (by omega) (h20.mpr (Or.inl hx))) (by decide)
      · exact absurd (h 2 (by omega) 0 (by omega) (h20.mpr (Or.inr hx))) (by decide)
  · intro h
    have hlater : ∀ i j, i < j → j < n → (alternate a b)^[i] x ≠ (alternate a b)^[j] x := by
      intro i j hij hj heq
      obtain ⟨rfl, rfl⟩ | ⟨rfl, rfl⟩ | ⟨rfl, rfl, rfl⟩ :
          i = 0 ∧ j = 1 ∨ i = 1 ∧ j = 2 ∨ i = 0 ∧ j = 2 ∧ n = 3 := by omega
      · exact h1 heq.symm
      · exact h2 heq.symm
      · obtain ⟨_, ha, hb⟩ := h.resolve_left (by decide)
        exact (h20.mp heq.symm).elim ha hb
    intro i hi j hj heq
    rcases lt_trichotomy i j with hij | hij | hij
    · exact absurd heq (hlater i j hij hj)
    · exact hij
    · exact absurd heq.symm (hlater j i hij hi)

end Alternation
