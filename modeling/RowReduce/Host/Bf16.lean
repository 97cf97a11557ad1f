import RowReduce.Core.FloatArithmetic

/-!
# BF16 words and their values

The quantizer works on binary32 patterns. A BF16 word denotes the binary32
value whose upper half it is, which is also its own bfloat16 value.
-/

namespace RowReduce

open BinaryFloat

/-- A stored BF16 pattern. -/
abbrev Bf16Word := BitVec 16

/-- A C++ `float`, by its binary32 pattern. -/
abbrev Float32 := BitVec 32

/-- The value of a `float`. -/
def Float32.value (x : Float32) : FloatValue := binary32.decode x.toNat

/-- The `float` nearest to a rational, as conversions and literals deliver it. -/
def Float32.ofRat (q : ℚ) : Float32 := BitVec.ofNat 32 (binary32.encode q)

def floatToBf16 (value : Float32) : Bf16Word :=
  let bits := value
  if bits &&& 0x7f800000#32 = 0x7f800000#32 ∧ bits &&& 0x007fffff#32 ≠ 0#32 then
    ((bits >>> 16) ||| 0x0040#32).setWidth 16
  else
    let rounded := bits + 0x7fff#32 + ((bits >>> 16) &&& 1#32)
    (rounded >>> 16).setWidth 16

def bf16ToFloat (bits : Bf16Word) : Float32 := bits.setWidth 32 <<< 16

/-- The value a BF16 word stands for. -/
def bf16Value (bits : Bf16Word) : FloatValue := (bf16ToFloat bits).value

/-- A word is the upper half of its float. -/
theorem toNat_bf16ToFloat (bits : Bf16Word) : (bf16ToFloat bits).toNat = bits.toNat * 2 ^ 16 := by
  have := bits.isLt
  simp only [bf16ToFloat, BitVec.toNat_shiftLeft, BitVec.toNat_setWidth, Nat.shiftLeft_eq]
  omega

/-- A word read through binary32 has its bfloat16 value. -/
theorem bf16Value_eq_decode (bits : Bf16Word) : bf16Value bits = bfloat16.decode bits.toNat := by
  rw [bf16Value, Float32.value, toNat_bf16ToFloat, binary32_eq_widen]
  exact bfloat16.decode_widen 16 bits.toNat

private theorem bfloat16_infinityBits : bfloat16.infinityBits = 0x7f80 := by decide

/-- The sign bit of a word. -/
theorem bfloat16_signBit : bfloat16.signBit = 0x8000 := by decide

/-- The pattern of infinity of a float. -/
theorem binary32_infinityBits : binary32.infinityBits = 0x7f800000 := by decide

/-- The sign bit of a float. -/
theorem binary32_signBit : binary32.signBit = 0x80000000 := by decide

/-- The magnitude pattern of a word. -/
def wordMagnitude (bits : Bf16Word) : ℕ := bits.toNat % 0x8000

private theorem toNat_and_7fff (bits : Bf16Word) :
    (bits &&& 0x7fff#16).toNat = wordMagnitude bits := by
  rw [BitVec.toNat_and]
  exact Nat.and_two_pow_sub_one_eq_mod bits.toNat 15

/-- The bit mask test for zero magnitude. -/
theorem and_7fff_eq_zero_iff (bits : Bf16Word) :
    bits &&& 0x7fff#16 = 0#16 ↔ wordMagnitude bits = 0 := by
  rw [← toNat_and_7fff, ← BitVec.toNat_inj]
  rfl

/-- The value of a word, by its magnitude pattern and sign. -/
theorem bf16Value_eq (bits : Bf16Word) : bf16Value bits =
    if 0x7f80 < wordMagnitude bits then .nan
    else if wordMagnitude bits = 0x7f80 then .infinity (decide (0x8000 ≤ bits.toNat))
    else .finite (if 0x8000 ≤ bits.toNat then -bfloat16.magnitude (wordMagnitude bits)
      else bfloat16.magnitude (wordMagnitude bits)) := by
  have hsign : decide (bits.toNat / 0x8000 % 2 = 1) = decide (0x8000 ≤ bits.toNat) := by
    have := bits.isLt
    exact decide_eq_decide.mpr (by omega)
  rw [bf16Value_eq_decode, BinaryFormat.decode, bfloat16_signBit, bfloat16_infinityBits, hsign]
  by_cases hs : 0x8000 ≤ bits.toNat <;> simp [wordMagnitude, hs]

/-- Finite words are those below the pattern of infinity. -/
theorem isFinite_bf16Value_iff (bits : Bf16Word) :
    (bf16Value bits).isFinite = true ↔ wordMagnitude bits < 0x7f80 := by
  rw [bf16Value_eq]
  split_ifs <;> simp [FloatValue.isFinite] <;> omega

/-- The float comparison for zero accepts exactly the words of zero magnitude. -/
theorem bf16Value_eq_zero_iff (bits : Bf16Word) :
    bf16Value bits = .finite 0 ↔ wordMagnitude bits = 0 := by
  rw [bf16Value_eq]
  split_ifs with h1 h2 h3
  · simp; omega
  · simp; omega
  all_goals
    simp only [FloatValue.finite.injEq, neg_eq_zero]
    rw [← bfloat16.magnitude_zero, bfloat16.magnitude_strictMono.injective.eq_iff]

private theorem toNat_and_fraction (value : Float32) :
    (value &&& 0x007fffff#32).toNat = value.toNat % 2 ^ 23 := by
  rw [BitVec.toNat_and]
  exact Nat.and_two_pow_sub_one_eq_mod value.toNat 23

private theorem toNat_and_exponent (value : Float32) :
    (value &&& 0x7f800000#32).toNat = value.toNat / 2 ^ 23 % 2 ^ 8 * 2 ^ 23 := by
  have hhigh : (value.toNat &&& 0x7f800000) / 2 ^ 23 = value.toNat / 2 ^ 23 % 2 ^ 8 := by
    rw [← Nat.shiftRight_eq_div_pow, Nat.shiftRight_and_distrib, Nat.shiftRight_eq_div_pow]
    exact Nat.and_two_pow_sub_one_eq_mod (value.toNat / 2 ^ 23) 8
  have hlow : (value.toNat &&& 0x7f800000) % 2 ^ 23 = 0 := by
    rw [Nat.and_mod_two_pow]
    exact Nat.and_zero _
  rw [BitVec.toNat_and, ← hhigh]
  exact (Nat.div_mul_cancel (Nat.dvd_of_mod_eq_zero hlow)).symm

/-- The NaN test of the quantizer: all exponent bits and some fraction bit. -/
theorem nanTest_iff (value : Float32) :
    (value &&& 0x7f800000#32 = 0x7f800000#32 ∧ value &&& 0x007fffff#32 ≠ 0#32) ↔
      0x7f800000 < value.toNat % 0x80000000 := by
  rw [Ne, ← BitVec.toNat_inj, ← BitVec.toNat_inj, toNat_and_exponent, toNat_and_fraction]
  change _ = 0x7f800000 ∧ ¬_ = 0 ↔ _
  omega

/-- Off the NaN path the quantizer adds half a unit, one less on even words, and truncates. -/
theorem toNat_floatToBf16 {value : Float32}
    (h : value.toNat % 0x80000000 ≤ 0x7f800000) :
    (floatToBf16 value).toNat =
      (value.toNat + 0x7fff + value.toNat / 2 ^ 16 % 2) / 2 ^ 16 % 2 ^ 16 := by
  have hone : (value >>> 16 &&& 1#32).toNat = value.toNat / 2 ^ 16 % 2 := by
    rw [BitVec.toNat_and, BitVec.toNat_ushiftRight, Nat.shiftRight_eq_div_pow]
    exact Nat.and_one_is_mod _
  unfold floatToBf16
  rw [if_neg fun hnan => absurd ((nanTest_iff value).mp hnan) h.not_gt]
  simp only [BitVec.toNat_setWidth, BitVec.toNat_ushiftRight, BitVec.toNat_add, hone,
    BitVec.toNat_ofNat, Nat.shiftRight_eq_div_pow]
  omega

end RowReduce
