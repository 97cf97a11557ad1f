import RowReduce.Core.FloatArithmetic

/-!
# The order of bit patterns

Read as sign and magnitude, the patterns that are no NaN are ordered like the
values they stand for, the infinities included.
-/

namespace BinaryFloat

namespace BinaryFormat

variable (f : BinaryFormat)

/-- A pattern as a signed integer. -/
def orderKey (bits : ℕ) : ℤ :=
  if bits / f.signBit % 2 = 1 then -(bits % f.signBit : ℕ) else (bits % f.signBit : ℕ)

/-- The patterns of NaN. -/
theorem decode_eq_nan_iff (bits : ℕ) :
    f.decode bits = .nan ↔ f.infinityBits < bits % f.signBit := by
  simp only [decode]
  split_ifs with h1 h2 <;> simp [h1]

/-- A pattern that is no NaN is a signed finite value or a signed infinity. -/
theorem decode_cases {bits : ℕ} (h : f.decode bits ≠ .nan) :
    (bits % f.signBit < f.infinityBits ∧ f.decode bits = .finite
        (if bits / f.signBit % 2 = 1 then -f.magnitude (bits % f.signBit)
          else f.magnitude (bits % f.signBit))) ∨
      (bits % f.signBit = f.infinityBits ∧
        f.decode bits = .infinity (decide (bits / f.signBit % 2 = 1))) := by
  rw [Ne, decode_eq_nan_iff, not_lt] at h
  rcases h.lt_or_eq with h | h
  · left
    simp [decode, h, h.not_gt, h.ne]
  · right
    simp [decode, h]

/-- What a pattern denotes is representable. -/
theorem representable_of_decode {bits : ℕ} {q : ℚ} (h : f.decode bits = .finite q) :
    f.Representable q := by
  have hnan : f.decode bits ≠ .nan := by
    rw [h]
    exact FloatValue.noConfusion
  rcases f.decode_cases hnan with ⟨_, hfinite⟩ | ⟨_, hinfinite⟩
  · rw [h] at hfinite
    have hvalue := FloatValue.finite.inj hfinite
    split_ifs at hvalue
    · exact hvalue ▸ (f.magnitude_representable _).neg
    · exact hvalue ▸ f.magnitude_representable _
  · rw [h] at hinfinite
    cases hinfinite

private theorem infinityBits_pos (he : 0 < f.exponentBits) : 0 < f.infinityBits := by
  have h : 2 ≤ 2 ^ f.exponentBits := Nat.le_self_pow he.ne' 2
  exact Nat.mul_pos (by omega) (by positivity)

/-- Values compare like their patterns. -/
theorem le_decode_iff (he : 0 < f.exponentBits) {a b : ℕ} (ha : f.decode a ≠ .nan)
    (hb : f.decode b ≠ .nan) :
    FloatValue.le (f.decode a) (f.decode b) = true ↔ f.orderKey a ≤ f.orderKey b := by
  have hinf := f.infinityBits_pos he
  have hmono := f.magnitude_strictMono
  have hzero : ∀ n, f.magnitude n = 0 ↔ n = 0 := by
    intro n
    rw [← f.magnitude_zero, hmono.injective.eq_iff]
  have hnonneg := f.magnitude_nonneg
  unfold orderKey
  rcases f.decode_cases ha with ⟨hpa, hda⟩ | ⟨hpa, hda⟩ <;>
    rcases f.decode_cases hb with ⟨hpb, hdb⟩ | ⟨hpb, hdb⟩ <;> rw [hda, hdb]
  · rw [FloatValue.le_finite, decide_eq_true_iff]
    by_cases hsa : a / f.signBit % 2 = 1 <;> by_cases hsb : b / f.signBit % 2 = 1
    · simp only [hsa, hsb, if_true, neg_le_neg_iff, hmono.le_iff_le]
      omega
    · simp only [hsa, hsb, if_true, if_false]
      have h1 := hnonneg (a % f.signBit)
      have h2 := hnonneg (b % f.signBit)
      exact ⟨fun _ => by omega, fun _ => by linarith⟩
    · simp only [hsa, hsb, if_true, if_false]
      have h1 := hnonneg (a % f.signBit)
      have h2 := hnonneg (b % f.signBit)
      constructor
      · intro h
        have h3 := (hzero _).mp (le_antisymm (by linarith) h1)
        have h4 := (hzero _).mp (le_antisymm (by linarith) h2)
        omega
      · intro h
        have h3 : a % f.signBit = 0 := by omega
        have h4 : b % f.signBit = 0 := by omega
        rw [h3, h4, magnitude_zero, neg_zero]
    · simp only [hsa, hsb, if_false, hmono.le_iff_le]
      omega
  all_goals
    by_cases hsa : a / f.signBit % 2 = 1 <;> by_cases hsb : b / f.signBit % 2 = 1 <;>
      simp [FloatValue.le, FloatValue.lt, FloatValue.eq, hsa, hsb] <;> omega

end BinaryFormat

end BinaryFloat
