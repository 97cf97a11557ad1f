import RowReduce.Core.Fallible
import RowReduce.Host.Bf16
import RowReduce.Host.Layout

/-!
# Input preparation

Quantization, range check, padding, tilization and the reference sums, as one
checked double loop. A successful preparation represents a quantized matrix:
an abstract grid of words inside the numeric contract with exact row sums.
-/

namespace RowReduce

open BinaryFloat Grid Fallible

structure RowReference where
  sum : FloatValue := .finite 0
  absSum : FloatValue := .finite 0
  deriving DecidableEq, Repr

structure PreparedInput where
  shape : Shape
  paddedRows : ℕ
  paddedCols : ℕ
  /-- Logical row-major upload values before padding. -/
  quantized : List Bf16Word
  paddedRowMajor : List Bf16Word
  tiled : List Bf16Word
  reference : List RowReference
  deriving DecidableEq, Repr

/-- The post-quantization test: nonfinite, or nonzero with magnitude outside `[2^-8,1]`. -/
def rejectsQuantized (q : FloatValue) : Bool :=
  let magnitude := q.abs
  !q.isFinite || (!magnitude.eq (.finite 0) &&
    (magnitude.lt (.finite (2 ^ (-8 : ℤ))) || FloatValue.lt (.finite 1) magnitude))

/-- The checks of one source value. -/
def checkValue (value : Float32) : Except HostException Unit := do
  throwIf (value.value.isFinite = false) (.invalidArgument "input contains NaN or infinity")
  throwIf (rejectsQuantized (bf16Value (floatToBf16 value)) = true)
    (.invalidArgument "quantized nonzero input magnitude must be in [2^-8,1]")

/-- What the double loop has filled so far. -/
structure PrepareState where
  quantized : List Bf16Word
  paddedRowMajor : List Bf16Word
  reference : List RowReference

/-- The updates of one accepted value. -/
def PrepareState.push (rd : Rounding binary64) (paddedCols : ℕ) (s : PrepareState) (p : ℕ × ℕ)
    (value : Float32) : PrepareState :=
  let bits := floatToBf16 value
  let q := bf16Value bits
  { quantized := s.quantized ++ [bits]
    paddedRowMajor := s.paddedRowMajor.set (p.1 * paddedCols + p.2) bits
    reference := s.reference.modify p.1 fun ref =>
      { sum := ref.sum.add rd q, absSum := ref.absSum.add rd q.abs } }

def prepareInput (rd : Rounding binary64) (shape : Shape) (values : List Float32)
    (nodes : ℕ) : Except HostException PreparedInput := do
  validateShape shape nodes
  let size ← checkedProduct shape.rows shape.cols
  throwIf (values.length ≠ size)
    (.invalidArgument "input data length does not match logical shape")
  let paddedRows ← paddedDimension shape.rows
  let paddedCols ← paddedDimension shape.cols
  let s ← (positions shape.rows shape.cols).foldlM (fun s p => do
      checkValue (values.getD (p.1 * shape.cols + p.2) 0)
      pure (PrepareState.push rd paddedCols s p (values.getD (p.1 * shape.cols + p.2) 0)))
    { quantized := []
      paddedRowMajor := List.replicate (paddedRows * paddedCols) 0
      reference := List.replicate shape.rows {} : PrepareState }
  let tiled ← tilize s.paddedRowMajor paddedRows paddedCols
  return { shape, paddedRows, paddedCols, quantized := s.quantized,
           paddedRowMajor := s.paddedRowMajor, tiled, reference := s.reference }

/-- A finite word that is zero or has magnitude in `[2^-8, 1]`. -/
def InContract (word : Bf16Word) : Prop :=
  ∃ q : ℚ, bf16Value word = .finite q ∧ (q = 0 ∨ (2 ^ (-8 : ℤ) ≤ |q| ∧ |q| ≤ 1))

/-- A quantized value is accepted where it is zero or in the range of magnitudes. -/
theorem rejectsQuantized_eq_false_iff {x : FloatValue} : rejectsQuantized x = false ↔
    ∃ q : ℚ, x = .finite q ∧ (q = 0 ∨ (2 ^ (-8 : ℤ) ≤ |q| ∧ |q| ≤ 1)) := by
  cases x with
  | finite q =>
    simp only [rejectsQuantized, FloatValue.isFinite_finite, FloatValue.abs_finite,
      FloatValue.eq_finite, FloatValue.lt_finite, FloatValue.finite.injEq, exists_eq_left',
      Bool.not_true, Bool.false_or, Bool.and_eq_false_iff, Bool.or_eq_false_iff,
      Bool.not_eq_false', decide_eq_true_eq, decide_eq_false_iff_not, not_lt, abs_eq_zero]
  | infinity s => simp [rejectsQuantized, FloatValue.isFinite]
  | nan => simp [rejectsQuantized, FloatValue.isFinite]

/-- An input value is accepted where it is finite and its word is in the contract. -/
theorem checkValue_eq_ok_iff {value : Float32} :
    checkValue value = .ok () ↔ value.value.isFinite = true ∧ InContract (floatToBf16 value) := by
  unfold checkValue InContract
  rw [← rejectsQuantized_eq_false_iff]
  simp only [bind_eq_ok_iff, throwIf_eq_ok_iff, Bool.not_eq_false, Bool.not_eq_true, exists_const]

private theorem bfloat16_magnitude_3b80 : bfloat16.magnitude 0x3b80 = 2 ^ (-8 : ℤ) := by
  norm_num [BinaryFormat.magnitude, BinaryFormat.fractionBits, BinaryFormat.minExponent, bfloat16]

private theorem bfloat16_magnitude_3f80 : bfloat16.magnitude 0x3f80 = 1 := by
  norm_num [BinaryFormat.magnitude, BinaryFormat.fractionBits, BinaryFormat.minExponent, bfloat16]

/-- The magnitude of a finite word. -/
theorem abs_bf16Value_toRat {word : Bf16Word} (h : wordMagnitude word < 0x7f80) :
    |(bf16Value word).toRat| = bfloat16.magnitude (wordMagnitude word) := by
  rw [bf16Value_eq, if_neg (by omega), if_neg (by omega), FloatValue.toRat_finite]
  split_ifs <;> simp [abs_of_nonneg (bfloat16.magnitude_nonneg _)]

/-- The contract read off the magnitude pattern. -/
theorem inContract_iff {word : Bf16Word} : InContract word ↔
    wordMagnitude word = 0 ∨ 0x3b80 ≤ wordMagnitude word ∧ wordMagnitude word ≤ 0x3f80 := by
  have hmono := bfloat16.magnitude_strictMono
  constructor
  · rintro ⟨q, hq, h⟩
    have hlt := (isFinite_bf16Value_iff word).mp (by rw [hq]; rfl)
    have habs := abs_bf16Value_toRat hlt
    rw [hq, FloatValue.toRat_finite] at habs
    rcases h with rfl | ⟨h1, h2⟩
    · exact Or.inl ((bf16Value_eq_zero_iff word).mp hq)
    · rw [habs, ← bfloat16_magnitude_3b80, hmono.le_iff_le] at h1
      rw [habs, ← bfloat16_magnitude_3f80, hmono.le_iff_le] at h2
      exact Or.inr ⟨h1, h2⟩
  · intro h
    have hlt : wordMagnitude word < 0x7f80 := by omega
    have hfin := FloatValue.eq_finite_toRat ((isFinite_bf16Value_iff word).mpr hlt)
    refine ⟨_, hfin, ?_⟩
    rcases h with h | ⟨h1, h2⟩
    · left
      rw [(bf16Value_eq_zero_iff word).mpr h, FloatValue.toRat_finite]
    · right
      rw [abs_bf16Value_toRat hlt, ← bfloat16_magnitude_3b80, ← bfloat16_magnitude_3f80,
        hmono.le_iff_le, hmono.le_iff_le]
      exact ⟨h1, h2⟩

instance (word : Bf16Word) : Decidable (InContract word) := decidable_of_iff' _ inContract_iff

/-- Contract values are multiples of `2^-15` of magnitude at most one. -/
theorem InContract.onGrid {word : Bf16Word} (h : InContract word) :
    OnGrid (-15) (2 ^ 15) (bf16Value word).toRat := by
  have habs : OnGrid (-15) (2 ^ 15) |(bf16Value word).toRat| := by
    rcases inContract_iff.mp h with h | ⟨h1, h2⟩
    · rw [abs_bf16Value_toRat (by omega), h, BinaryFormat.magnitude_zero]
      exact OnGrid.zero.mono (by norm_num)
    · obtain ⟨k, n, hm, hk, hn⟩ :
        ∃ k n, wordMagnitude word = (118 + k) * 2 ^ bfloat16.fractionBits + n ∧
          n * 2 ^ k ≤ 2 ^ 15 ∧ 2 ^ 7 ≤ n ∧ n ≤ 2 ^ 8 := by
        have hf : bfloat16.fractionBits = 7 := rfl
        rw [hf]
        rcases (show wordMagnitude word = 0x3f80 ∨ wordMagnitude word < 0x3f80 by omega) with h | h
        · exact ⟨8, 128, by omega, by norm_num, by norm_num, by norm_num⟩
        · refine ⟨wordMagnitude word / 128 - 119, 128 + wordMagnitude word % 128, by omega, ?_,
            by omega, by omega⟩
          have hk : 2 ^ (wordMagnitude word / 128 - 119) ≤ 2 ^ 7 :=
            Nat.pow_le_pow_right (by norm_num) (by omega)
          calc (128 + wordMagnitude word % 128) * 2 ^ (wordMagnitude word / 128 - 119)
              ≤ 256 * 2 ^ 7 := Nat.mul_le_mul (by omega) hk
            _ = 2 ^ 15 := by norm_num
      rw [abs_bf16Value_toRat (by omega), hm, bfloat16.magnitude_scaled hn.2 (Or.inr hn.1)]
      refine ⟨(n * 2 ^ k : ℕ), by rw [Nat.abs_cast]; exact_mod_cast hk, ?_⟩
      rw [show bfloat16.minExponent + ((118 + k : ℕ) : ℤ) = k + -15 by
        simp only [BinaryFormat.minExponent, bfloat16]; push_cast; ring,
        zpow_add₀ (by norm_num), zpow_natCast]
      push_cast
      ring
  rcases abs_choice (bf16Value word).toRat with h | h
  · rwa [h] at habs
  · obtain ⟨n, hn, he⟩ := habs
    refine ⟨-n, by rwa [abs_neg], ?_⟩
    rw [h] at he
    rw [← neg_neg (bf16Value word).toRat, he]
    push_cast
    ring

end RowReduce
