import RowReduce.Core.Accumulation
import RowReduce.Host.Compare

/-!
# What the error budget covers

Over exact rationals the declared budget bounds every rounded accumulation of a
row, in any order and association, with the final packing.
-/

namespace RowReduce

open BinaryFloat Fallible

/-- Over exact rationals the coefficient is the bound on collected relative errors. -/
theorem gammaCoefficient_exact_eq_gamma (width : ℕ) :
    gammaCoefficient (.exact binary64) width = gamma (2 ^ (-24 : ℤ)) (width + 64) := rfl

/-- The budget is the packing share, the accumulation share with its cross term, and the floor. -/
theorem budgetValue_exact (sum absSum : ℚ) (width : ℕ) :
    budgetValue (.exact binary64) sum absSum width =
      2 ^ (-8 : ℤ) * |sum| +
        (1 + 2 ^ (-8 : ℤ)) * (gamma (2 ^ (-24 : ℤ)) (width + 64) * absSum) + 2 ^ (-20 : ℤ) := by
  simp only [budgetValue, Rounding.exact_round, gammaCoefficient_exact_eq_gamma, mul_assoc]

private theorem width_mul_lt_one {width : ℕ} (hw : width ≤ 128) :
    ((width + 64 : ℕ) : ℚ) * 2 ^ (-24 : ℤ) < 1 := by
  have h : ((width + 64 : ℕ) : ℚ) ≤ 192 := by exact_mod_cast (by omega : width + 64 ≤ 192)
  norm_num at h ⊢
  linarith

/-- The budget covers every order of summation: each term may collect a rounding error for each
of `width + 64` operations, and the packed value one more. -/
theorem errorBudget_sound (terms : List (ℚ × List ℚ)) (h0 : 0 < terms.length)
    (hw : terms.length ≤ 128) (hlen : ∀ t ∈ terms, t.2.length ≤ terms.length + 64)
    (hd : ∀ t ∈ terms, ∀ d ∈ t.2, |d| ≤ 2 ^ (-24 : ℤ)) {e : ℚ} (he : |e| ≤ 2 ^ (-8 : ℤ)) :
    ∃ budget, errorBudget (.exact binary64)
        ⟨.finite (terms.map Prod.fst).sum, .finite ((terms.map Prod.fst).map abs).sum⟩
        terms.length = .ok (.finite budget) ∧
      |computedSum terms * (1 + e) - (terms.map Prod.fst).sum| ≤ budget := by
  refine ⟨_, errorBudget_finite h0 hw, ?_⟩
  rw [budgetValue_exact]
  have haccumulated := abs_computedSum_sub_le hlen hd (width_mul_lt_one hw) (by positivity)
  have hpacked := abs_mul_one_add_sub_le haccumulated he
  have hfloor : (0 : ℚ) ≤ 2 ^ (-20 : ℤ) := by positivity
  linarith

/-- Two cancelling terms, the first one rounded up once, packed with the largest error. -/
theorem errorBudget_sound_cancelling : ∃ budget,
    errorBudget (.exact binary64) ⟨.finite 0, .finite 2⟩ 2 = .ok (.finite budget) ∧
      |computedSum [((1 : ℚ), [2 ^ (-24 : ℤ)]), (-1, [])] * (1 + 2 ^ (-8 : ℤ)) - 0| ≤ budget := by
  have h := errorBudget_sound [(1, [2 ^ (-24 : ℤ)]), (-1, [])] (by simp) (by simp)
    (by simp) (by simp) (e := 2 ^ (-8 : ℤ)) (by simp)
  norm_num at h ⊢
  exact h

end RowReduce
