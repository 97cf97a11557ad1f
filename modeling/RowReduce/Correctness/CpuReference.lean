import RowReduce.Correctness.ErrorBudget
import RowReduce.Correctness.ExactSums
import RowReduce.Correctness.PatternSums
import RowReduce.Correctness.Quantizer
import RowReduce.Host.Cpu

/-!
# Correct results pass

The BF16 rounding of an exact row sum is off by at most the packing share of the
budget, and exact patterns have representable sums, so rounded references always
pass their own comparison.
-/

namespace RowReduce

open BinaryFloat Fallible Grid

section RowSum

variable {s : ℚ}

/-- A row sum is held by a `float`. -/
theorem ofRat_value_of_onGrid (hs : OnGrid (-15) (2 ^ 22) s) :
    (Float32.ofRat s).value = .finite s := by
  rw [Float32.value, toNat_ofRat, (ExactSum.of_onGrid hs).single]

/-- The word of a row sum has the rounded value. -/
theorem bf16Value_encode_of_onGrid (hs : OnGrid (-15) (2 ^ 22) s) :
    bf16Value (BitVec.ofNat 16 (bfloat16.encode s)) = .finite (bfloat16.round s) := by
  have hlt := bfloat16.encode_lt s
  have hbits : bfloat16.roundBits (2 ^ 7) < bfloat16.infinityBits := by decide +kernel
  have hle := bfloat16.roundBits_mono (abs_nonneg s) (abs_le_of_onGrid hs)
  rw [bfloat16_signBit] at hlt
  rw [bf16Value_eq_decode, BitVec.toNat_ofNat, Nat.mod_eq_of_lt (by omega),
    bfloat16.decode_encode (hle.trans_lt hbits)]

/-- Nonzero row sums are in the normal range, where the rounding error is relative. -/
theorem abs_round_sub_le_of_onGrid (hs : OnGrid (-15) (2 ^ 22) s) :
    |bfloat16.round s - s| ≤ 2 ^ (-8 : ℤ) * |s| := by
  by_cases h0 : s = 0
  · simp [h0]
  · have hnormal : (2 : ℚ) ^ (bfloat16.minExponent + bfloat16.fractionBits) ≤ |s| :=
      (zpow_le_zpow_right₀ (by norm_num) (by decide)).trans (hs.le_abs h0)
    have hrelative := bfloat16.abs_round_sub_le_of_normal hnormal
    rw [div_eq_inv_mul] at hrelative
    have hprecision : ((2 : ℚ) ^ bfloat16.precision)⁻¹ = 2 ^ (-8 : ℤ) := by
      norm_num [bfloat16]
    rwa [hprecision] at hrelative

/-- Through `float` and the quantizer a row sum gets a nearest word. -/
theorem exists_rounded_rowSum (hs : OnGrid (-15) (2 ^ 22) s) :
    ∃ q, bf16Value (floatToBf16 (Float32.ofRat s)) = .finite q ∧
      |q - s| ≤ |bfloat16.round s - s| := by
  have hsmall : |s| < overflowMidpoint := by
    have hle := abs_le_of_onGrid hs
    have hmagnitude := bfloat16.magnitude_nonneg 0x7f7f
    rw [overflowMidpoint]
    norm_num at hle ⊢
    linarith
  obtain ⟨q, hq, hnearest⟩ := (floatToBf16_finite (ofRat_value_of_onGrid hs)).2.1 hsmall
  exact ⟨q, hq, (hnearest _ _ (bf16Value_encode_of_onGrid hs)).1⟩

/-- The budget starts with the packing share. -/
theorem le_budgetValue (rd : Rounding binary64) (hs : OnGrid (-15) (2 ^ 22) s) {a : ℚ} (ha : 0 ≤ a)
    {width : ℕ} (hw : width ≤ 128) :
    2 ^ (-8 : ℤ) * |s| ≤ budgetValue rd s a width := by
  have hshare : rd.round (2 ^ (-8 : ℤ) * |s|) = 2 ^ (-8 : ℤ) * |s| :=
    rd.representable ((hs.abs.mul_zpow (-8)).representable (by decide) (by decide))
  have hgamma := @gammaCoefficient_nonneg rd width hw
  have hcross :
      0 ≤ rd.round (rd.round (rd.round (1 + 2 ^ (-8 : ℤ)) * gammaCoefficient rd width) * a) :=
    rd.round_nonneg (mul_nonneg
      (rd.round_nonneg (mul_nonneg (rd.round_nonneg (by positivity)) hgamma)) ha)
  have hsum := rd.mono (le_add_of_nonneg_right (a := 2 ^ (-8 : ℤ) * |s|) hcross)
  have hfloor : (0 : ℚ) ≤ 2 ^ (-20 : ℤ) := by positivity
  rw [hshare] at hsum
  rw [budgetValue, hshare]
  calc 2 ^ (-8 : ℤ) * |s| = rd.round (2 ^ (-8 : ℤ) * |s|) := hshare.symm
    _ ≤ _ := rd.mono (hsum.trans (le_add_of_nonneg_right hfloor))

/-- A result within the packing share of its row sum passes. -/
theorem rowPasses_of_abs_sub_le (rd : Rounding binary64) (hs : OnGrid (-15) (2 ^ 22) s) {a : ℚ}
    (ha : 0 ≤ a) {width : ℕ} (hw : width ≤ 128) {q : ℚ} (hq : |q - s| ≤ 2 ^ (-8 : ℤ) * |s|) :
    RowPasses rd false s a width (.finite q) := by
  have hshare : binary64.Representable (2 ^ (-8 : ℤ) * |s|) :=
    (hs.abs.mul_zpow (-8)).representable (by decide) (by decide)
  refine ⟨q, rfl, ?_⟩
  rw [toleranceValue, if_neg (by decide)]
  refine le_trans ?_ (le_budgetValue rd hs ha hw)
  obtain ⟨hlow, hhigh⟩ := abs_le.mp hq
  have h1 := rd.mono hhigh
  have h2 := rd.mono hlow
  rw [rd.representable hshare] at h1
  rw [rd.representable hshare.neg] at h2
  exact abs_le.mpr ⟨h2, h1⟩

/-- A result equal to its row sum passes every comparison. -/
theorem rowPasses_self (rd : Rounding binary64) (hs : OnGrid (-15) (2 ^ 22) s) {a : ℚ}
    (ha : 0 ≤ a) {width : ℕ} (hw : width ≤ 128) (exact : Bool) :
    RowPasses rd exact s a width (.finite s) := by
  cases exact with
  | false => exact rowPasses_of_abs_sub_le rd hs ha hw (by simp)
  | true => exact ⟨s, rfl, by simp [toleranceValue]⟩

end RowSum

section Reference

variable {rd : Rounding binary64} {m : QuantizedMatrix} {p : PreparedInput}

/-- The rounded references, row by row. -/
theorem roundedReference_eq (hrep : m.Represents p) : roundedReference p =
    (List.range m.shape.rows).map fun r =>
      bf16ToFloat (floatToBf16 (Float32.ofRat (m.rowSum r))) := by
  rw [roundedReference, hrep.reference, List.map_map]
  rfl

/-- The comparison of the rounded references, given that every row passes. -/
theorem compareRows_roundedReference (hrep : m.Represents p) {exact : Bool}
    (h : ∀ r < m.shape.rows, RowPasses rd exact (m.rowSum r) (m.rowAbsSum r) m.shape.cols
      (bf16Value (floatToBf16 (Float32.ofRat (m.rowSum r))))) :
    ∃ c, compareRows rd (roundedReference p) p.reference m.shape.cols exact = .ok c ∧
      c.pass = true := by
  rw [roundedReference_eq hrep, compareRows_represented hrep]
  exact ⟨_, rfl, (comparedRows_pass_iff _).mpr h⟩

/-- The rounded reference of a row is within the packing share. -/
theorem roundedRow_passes (r : ℕ) (hr : r < m.shape.rows) :
    RowPasses rd false (m.rowSum r) (m.rowAbsSum r) m.shape.cols
      (bf16Value (floatToBf16 (Float32.ofRat (m.rowSum r)))) := by
  have hs := QuantizedMatrix.rowSum_onGrid hr
  obtain ⟨q, hq, hle⟩ := exists_rounded_rowSum hs
  rw [hq]
  exact rowPasses_of_abs_sub_le rd hs (m.rowAbsSum_nonneg r) m.valid.2.2.2
    (hle.trans (abs_round_sub_le_of_onGrid hs))

/-- A natural number up to the width of a row is a BF16 value. -/
theorem representable_natCast {n : ℕ} (hn : n ≤ 128) : bfloat16.Representable n := by
  refine ⟨n, 0, ?_, by decide, by simp⟩
  rw [Nat.abs_cast]
  exact_mod_cast (by simp only [bfloat16]; omega : n < 2 ^ bfloat16.precision)

/-- A small natural row sum is a BF16 value, so its rounding is itself. -/
theorem roundedRow_passes_of_natCast {r n : ℕ} (hr : r < m.shape.rows) (hsum : m.rowSum r = n)
    (hn : n ≤ 128) (exact : Bool) :
    RowPasses rd exact (m.rowSum r) (m.rowAbsSum r) m.shape.cols
      (bf16Value (floatToBf16 (Float32.ofRat (m.rowSum r)))) := by
  have hs := QuantizedMatrix.rowSum_onGrid hr
  have hrepresentable : bfloat16.Representable (m.rowSum r) := hsum ▸ representable_natCast hn
  obtain ⟨q, hq, hle⟩ := exists_rounded_rowSum hs
  rw [bfloat16.round_of_representable hrepresentable, sub_self, abs_zero] at hle
  rw [hq, sub_eq_zero.mp (abs_nonpos_iff.mp hle)]
  exact rowPasses_self rd hs (m.rowAbsSum_nonneg r) m.valid.2.2.2 exact

end Reference

/-- A pattern's own name tells its exactness. -/
theorem comparisonIsExact_name (p : Pattern) : comparisonIsExact p.name = .ok p.isExact := by
  rw [comparisonIsExact, findPattern_name]

/-- The rounded references of a generated input pass under the pattern's own exactness. -/
theorem generated_roundedReference_passes {rd : Rounding binary64} {m : QuantizedMatrix}
    {prepared : PreparedInput} {options : Options} {p : Pattern}
    (hgenerated : Generated options p prepared) (hshape : options.shape = m.shape)
    (hrep : m.Represents prepared) {r : ℕ} (hr : r < m.shape.rows) :
    RowPasses rd p.isExact (m.rowSum r) (m.rowAbsSum r) m.shape.cols
      (bf16Value (floatToBf16 (Float32.ofRat (m.rowSum r)))) := by
  cases hexact : p.isExact with
  | false => exact roundedRow_passes r hr
  | true =>
    have hle := patternSum_le p m.shape.rows m.shape.cols r m.valid.2.2.1
    exact roundedRow_passes_of_natCast hr (hgenerated.rowSum_eq hexact hshape hrep hr)
      (hle.trans m.valid.2.2.2) true

/-- A correct result is never rejected: the rounded references of an accepted input pass the
budget, those of a generated one pass under its exactness, and a case of the CPU program passes. -/
theorem roundedReference_neverRejected (rd : Rounding binary64) :
    (∀ (shape : Shape) (values : List Float32) (nodes : ℕ) (p : PreparedInput),
      prepareInput rd shape values nodes = .ok p →
      ∃ c, compareRows rd (roundedReference p) p.reference shape.cols false = .ok c ∧
        c.pass = true) ∧
    ∀ (shape : Shape) (pattern : Pattern) (seed : Word32), shape.Valid →
      ∃ values p exact c record, makeInput shape pattern.name seed = .ok values ∧
        prepareInput rd shape values 1 = .ok p ∧ comparisonIsExact pattern.name = .ok exact ∧
        compareRows rd (roundedReference p) p.reference shape.cols exact = .ok c ∧
        c.pass = true ∧ cpuRunCase rd shape pattern.name seed 1 = .ok (record, true) ∧
        record.status = "pass" := by
  constructor
  · intro shape values nodes p hp
    obtain ⟨_, haccept, hrep⟩ := (prepareInput_eq_ok_iff rd).mp hp
    exact compareRows_roundedReference hrep roundedRow_passes
  · intro shape pattern seed hv
    obtain ⟨values, hmake, haccept, _⟩ := generated_agrees hv pattern seed
    obtain ⟨p, hp, hrep⟩ := prepareInput_eq_ok rd haccept
    have hgenerated : Generated { shape, seed } pattern p :=
      ⟨values, hmake, by rw [hrep.quantized, words_quantize]⟩
    obtain ⟨c, hcompare, hpass⟩ := @compareRows_roundedReference rd _ _ hrep _ fun r hr =>
      generated_roundedReference_passes hgenerated rfl hrep hr
    have hcompare' : compareRows rd (roundedReference p) p.reference shape.cols pattern.isExact =
        .ok c := hcompare
    have hcase : ∃ record, cpuRunCase rd shape pattern.name seed 1 = .ok (record, true) ∧
        record.status = "pass" := by
      simp only [cpuRunCase, hmake, ok_bind, hp, comparisonIsExact_name, hcompare', pure_eq_ok,
        hpass, if_true]
      exact ⟨_, rfl, rfl⟩
    obtain ⟨record, hrecord, hstatus⟩ := hcase
    exact ⟨values, p, _, c, record, hmake, hp, comparisonIsExact_name pattern, hcompare', hpass,
      hrecord, hstatus⟩

end RowReduce
