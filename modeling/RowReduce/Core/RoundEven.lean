import Mathlib.Data.Int.Log
import Mathlib.Data.Rat.Floor
import Mathlib.Algebra.Order.Floor.Ring
import Mathlib.Algebra.Order.Round
import Mathlib.Tactic

/-!
# Rounding a rational to an integer, ties to even

The integer rounding under every binary format. The result is within one half
and monotone, and it takes the even neighbour on a tie.
-/

namespace BinaryFloat

/-- The nearest integer; a tie goes to the even neighbour. -/
def roundEven (q : ℚ) : ℤ :=
  if Int.fract q < 1 / 2 then ⌊q⌋
  else if 1 / 2 < Int.fract q then ⌊q⌋ + 1
  else if ⌊q⌋ % 2 = 0 then ⌊q⌋ else ⌊q⌋ + 1

/-- Rounding takes the floor or its successor, each only when it is a nearest integer. -/
theorem roundEven_cases (q : ℚ) :
    (roundEven q = ⌊q⌋ ∧ Int.fract q ≤ 1 / 2) ∨
      (roundEven q = ⌊q⌋ + 1 ∧ 1 / 2 ≤ Int.fract q) := by
  unfold roundEven
  split_ifs with h1 h2 h3
  · exact Or.inl ⟨rfl, h1.le⟩
  · exact Or.inr ⟨rfl, h2.le⟩
  · exact Or.inl ⟨rfl, not_lt.mp h2⟩
  · exact Or.inr ⟨rfl, not_lt.mp h1⟩

/-- Integers are kept. -/
@[simp] theorem roundEven_intCast (n : ℤ) : roundEven (n : ℚ) = n := by
  simp [roundEven]

@[simp] theorem roundEven_natCast (n : ℕ) : roundEven (n : ℚ) = n := by
  exact_mod_cast roundEven_intCast n

@[simp] theorem roundEven_zero : roundEven 0 = 0 := by
  simpa using roundEven_intCast 0

/-- The rounded integer lies within one half of the rational. -/
theorem abs_roundEven_sub_le (q : ℚ) : |(roundEven q : ℚ) - q| ≤ 1 / 2 := by
  have hf := Int.floor_add_fract q
  rcases roundEven_cases q with ⟨h, hq⟩ | ⟨h, hq⟩
  · rw [h, abs_le]
    constructor <;> linarith [Int.fract_nonneg q]
  · rw [h, Int.cast_add, Int.cast_one, abs_le]
    constructor <;> linarith [Int.fract_lt_one q]

/-- Rounding is monotone. -/
theorem roundEven_mono {q r : ℚ} (h : q ≤ r) : roundEven q ≤ roundEven r := by
  have hfloor : ⌊q⌋ ≤ ⌊r⌋ := Int.floor_mono h
  rcases hfloor.lt_or_eq with hlt | heq
  · rcases roundEven_cases q with ⟨hq, _⟩ | ⟨hq, _⟩ <;>
      rcases roundEven_cases r with ⟨hr, _⟩ | ⟨hr, _⟩ <;> omega
  · have hfract : Int.fract q ≤ Int.fract r := by
      have h1 := Int.floor_add_fract q
      have h2 := Int.floor_add_fract r
      rw [heq] at h1
      linarith
    unfold roundEven
    rw [heq]
    split_ifs <;> first | omega | linarith

/-- Rounding commutes with the sign, so a sign bit can be split off first. -/
theorem roundEven_neg (q : ℚ) : roundEven (-q) = -roundEven q := by
  by_cases hz : Int.fract q = 0
  · obtain ⟨n, hn⟩ := Int.fract_eq_zero_iff.mp hz
    rw [← hn, ← Int.cast_neg, roundEven_intCast, roundEven_intCast]
  · have hfract := Int.fract_neg hz
    have hfloor : ⌊-q⌋ = -⌊q⌋ - 1 := by
      have h1 := Int.floor_add_fract q
      have h2 := Int.floor_add_fract (-q)
      have h3 : (⌊-q⌋ : ℚ) = ((-⌊q⌋ - 1 : ℤ) : ℚ) := by push_cast; linarith
      exact_mod_cast h3
    unfold roundEven
    rw [hfract, hfloor]
    split_ifs <;> first | omega | linarith

/-- A rounded value keeps every integer lower bound. -/
theorem le_roundEven {n : ℤ} {q : ℚ} (h : (n : ℚ) ≤ q) : n ≤ roundEven q := by
  simpa using roundEven_mono h

/-- A rounded value keeps every integer upper bound. -/
theorem roundEven_le {n : ℤ} {q : ℚ} (h : q ≤ n) : roundEven q ≤ n := by
  simpa using roundEven_mono h

end BinaryFloat
