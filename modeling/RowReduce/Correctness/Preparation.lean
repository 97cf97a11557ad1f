import RowReduce.Correctness.Quantizer
import RowReduce.Correctness.RowSums

/-!
# What preparation accepts and prepares

The range check after rounding, read back to the source values: an underflow
island around zero and a band whose ends are ties. The prepared arrays hold the
rounded values, their padded grid, its tilization and the row sums of both.
-/

namespace RowReduce

open BinaryFloat Grid

/-- A finite `float` that underflows to zero or is rounded into `[2^-8, 1]`. -/
def InSourceRange (value : Float32) : Prop :=
  ∃ q, value.value = .finite q ∧
    (|q| ≤ 2 ^ (-134 : ℤ) ∨
      2 ^ (-8 : ℤ) - 2 ^ (-17 : ℤ) ≤ |q| ∧ |q| ≤ 1 + 2 ^ (-8 : ℤ))

private theorem magnitude_8000 : binary32.magnitude 0x8000 = 2 ^ (-134 : ℤ) := by
  norm_num [BinaryFormat.magnitude, BinaryFormat.fractionBits, BinaryFormat.minExponent, binary32]

private theorem magnitude_3b7f8000 :
    binary32.magnitude 0x3b7f8000 = 2 ^ (-8 : ℤ) - 2 ^ (-17 : ℤ) := by
  norm_num [BinaryFormat.magnitude, BinaryFormat.fractionBits, BinaryFormat.minExponent, binary32]

private theorem magnitude_3f808000 : binary32.magnitude 0x3f808000 = 1 + 2 ^ (-8 : ℤ) := by
  norm_num [BinaryFormat.magnitude, BinaryFormat.fractionBits, BinaryFormat.minExponent, binary32]

/-- A pattern bound on the rounded side is one on the source side. -/
theorem roundedPattern_le_iff {m n bound : ℕ} (hb : roundedPattern bound ≤ n)
    (hs : n < roundedPattern (bound + 1)) : roundedPattern m ≤ n ↔ m ≤ bound := by
  constructor
  · intro h
    by_contra hlt
    have hmono := roundedPattern_mono (show bound + 1 ≤ m by omega)
    omega
  · intro h
    exact (roundedPattern_mono h).trans hb

private theorem abs_floatValue {value : Float32} {q : ℚ} (h : value.value = .finite q) :
    |q| = binary32.magnitude (floatMagnitude value) := by
  rw [floatValue_eq] at h
  split_ifs at h
  all_goals
    rw [← FloatValue.finite.inj h]
    simp [abs_of_nonneg (binary32.magnitude_nonneg _)]

/-- The range check after rounding is a range of source values. -/
theorem inContract_floatToBf16_iff (value : Float32) :
    value.value.isFinite = true ∧ InContract (floatToBf16 value) ↔ InSourceRange value := by
  have hmono := binary32.magnitude_strictMono
  have hrange : ∀ {q}, value.value = .finite q →
      (InContract (floatToBf16 value) ↔ |q| ≤ 2 ^ (-134 : ℤ) ∨
        2 ^ (-8 : ℤ) - 2 ^ (-17 : ℤ) ≤ |q| ∧ |q| ≤ 1 + 2 ^ (-8 : ℤ)) := by
    intro q hq
    have hzero := @roundedPattern_le_iff (floatMagnitude value) 0 0x8000 (by decide) (by decide)
    have hlow := @roundedPattern_le_iff (floatMagnitude value) 0x3b7f 0x3b7f7fff (by decide)
      (by decide)
    have hhigh := @roundedPattern_le_iff (floatMagnitude value) 0x3f80 0x3f808000 (by decide)
      (by decide)
    rw [inContract_iff, wordMagnitude_floatToBf16 (by simp [hq]), abs_floatValue hq,
      ← magnitude_8000, ← magnitude_3b7f8000, ← magnitude_3f808000, hmono.le_iff_le,
      hmono.le_iff_le, hmono.le_iff_le]
    omega
  constructor
  · rintro ⟨hfinite, hcontract⟩
    obtain ⟨q, hq⟩ := FloatValue.isFinite_iff.mp hfinite
    exact ⟨q, hq, (hrange hq).mp hcontract⟩
  · rintro ⟨q, hq, h⟩
    exact ⟨by rw [hq]; rfl, (hrange hq).mpr h⟩

/-- The values of a padded row. -/
def PreparedInput.paddedRow (p : PreparedInput) (r : ℕ) : List ℚ :=
  (List.range p.paddedCols).map fun c =>
    (bf16Value (p.paddedRowMajor.getD (r * p.paddedCols + c) 0)).toRat

/-- The arrays prepared from a matrix of source values. -/
structure PreparedFrom (shape : Shape) (values : List Float32) (p : PreparedInput) : Prop where
  shape_eq : p.shape = shape
  paddedRows : p.paddedRows = padded shape.rows
  paddedCols : p.paddedCols = padded shape.cols
  /-- The rounded values in logical row-major order. -/
  quantized : p.quantized = values.map floatToBf16
  length : p.paddedRowMajor.length = p.paddedRows * p.paddedCols
  inside : ∀ r c, r < shape.rows → c < shape.cols →
    p.paddedRowMajor[r * p.paddedCols + c]? = p.quantized[r * shape.cols + c]?
  outside : ∀ r c, r < p.paddedRows → c < p.paddedCols → ¬(r < shape.rows ∧ c < shape.cols) →
    p.paddedRowMajor[r * p.paddedCols + c]? = some 0x0000#16
  tiled : tilize p.paddedRowMajor p.paddedRows p.paddedCols = .ok p.tiled
  rows : p.reference.length = shape.rows
  reference : ∀ r < shape.rows,
    p.reference[r]? = some ⟨.finite (p.row r).sum, .finite ((p.row r).map abs).sum⟩
  /-- The padding adds nothing. -/
  paddedReference : ∀ r < shape.rows, (p.paddedRow r).sum = (p.row r).sum ∧
    ((p.paddedRow r).map abs).sum = ((p.row r).map abs).sum

namespace QuantizedMatrix

variable {m : QuantizedMatrix} {p : PreparedInput} {r : ℕ}

/-- Inside the matrix the padded words are the quantized ones. -/
theorem Represents.padded_inside (h : m.Represents p) {c : ℕ} (hr : r < m.shape.rows)
    (hc : c < m.shape.cols) :
    p.paddedRowMajor[r * p.paddedCols + c]? = p.quantized[r * m.shape.cols + c]? := by
  rw [h.paddedRowMajor, h.paddedCols, h.quantized, words,
    getElem?_map_positions (hr.trans_le (le_padded _)) (hc.trans_le (le_padded _)), paddedWord,
    if_pos ⟨hr, hc⟩, getElem?_map_positions hr hc]

/-- Outside they are zero. -/
theorem Represents.padded_outside (h : m.Represents p) {c : ℕ} (hr : r < p.paddedRows)
    (hc : c < p.paddedCols) (hout : ¬(r < m.shape.rows ∧ c < m.shape.cols)) :
    p.paddedRowMajor[r * p.paddedCols + c]? = some 0x0000#16 := by
  rw [h.paddedRows] at hr
  rw [h.paddedCols] at hc
  rw [h.paddedRowMajor, h.paddedCols, getElem?_map_positions hr hc, paddedWord, if_neg hout]
  rfl

/-- A padded row has the padded values. -/
theorem Represents.paddedRow_eq (h : m.Represents p) (hr : r < m.shape.rows) :
    p.paddedRow r = (List.range (padded m.shape.cols)).map fun c => m.paddedValue r c := by
  rw [PreparedInput.paddedRow, h.paddedCols]
  apply List.map_congr_left
  intro c hc
  rw [h.paddedRowMajor, List.getD_eq_getElem?_getD,
    getElem?_map_positions (hr.trans_le (le_padded _)) (List.mem_range.mp hc)]
  rfl

/-- Padding adds nothing to a sum of magnitudes. -/
theorem sum_abs_paddedValue (hr : r < m.shape.rows) :
    ((List.range (padded m.shape.cols)).map fun c => |m.paddedValue r c|).sum = m.rowAbsSum r := by
  rw [sum_range_of_zero_tail _ (le_padded m.shape.cols) fun c hc => by
    rw [paddedValue_of_not_lt fun h => absurd h.2 (not_lt.mpr hc), abs_zero], rowAbsSum]
  exact congrArg List.sum (List.map_congr_left fun c hc => by
    rw [paddedValue_of_lt hr (List.mem_range.mp hc)])

end QuantizedMatrix

/-- The representation of a quantized input is made of the prepared arrays. -/
theorem preparedFrom_of_represents {shape : Shape} {values : List Float32} {p : PreparedInput}
    (haccept : AcceptedValues shape values)
    (h : (quantize shape values haccept).Represents p) : PreparedFrom shape values p := by
  set m := quantize shape values haccept with hm
  have hshape : m.shape = shape := rfl
  have hsum : ∀ r < shape.rows, (p.row r).sum = m.rowSum r ∧
      ((p.row r).map abs).sum = m.rowAbsSum r := by
    intro r hr
    rw [h.row_eq (hshape ▸ hr), List.map_map]
    exact ⟨rfl, rfl⟩
  refine ⟨h.shape, h.paddedRows, h.paddedCols, ?_, ?_, ?_, ?_, h.tiled, ?_, ?_, ?_⟩
  · rw [h.quantized, words_quantize]
  · rw [h.paddedRowMajor, h.paddedRows, h.paddedCols]
    simp
  · exact fun r c hr hc => h.padded_inside (hshape ▸ hr) (hshape ▸ hc)
  · exact fun r c hr hc hout => h.padded_outside hr hc (hshape ▸ hout)
  · rw [h.reference]
    simp [hshape]
  · intro r hr
    rw [(hsum r hr).1, (hsum r hr).2, h.reference, List.getElem?_map,
      List.getElem?_range (hshape ▸ hr), Option.map_some]
  · intro r hr
    rw [(hsum r hr).1, (hsum r hr).2, h.paddedRow_eq (hshape ▸ hr), List.map_map]
    exact ⟨QuantizedMatrix.sum_paddedValue (hshape ▸ hr),
      QuantizedMatrix.sum_abs_paddedValue (hshape ▸ hr)⟩

/-- Preparation accepts exactly the contract and prepares exactly the matrix. -/
theorem prepareInput_spec (rd : Rounding binary64) (shape : Shape) (values : List Float32)
    (nodes : ℕ) :
    ((∃ p, prepareInput rd shape values nodes = .ok p) ↔
      nodes = 1 ∧ (1 ≤ shape.rows ∧ shape.rows ≤ 128 ∧ 1 ≤ shape.cols ∧ shape.cols ≤ 128) ∧
        values.length = shape.rows * shape.cols ∧ ∀ v ∈ values, InSourceRange v) ∧
    ∀ p, prepareInput rd shape values nodes = .ok p → PreparedFrom shape values p := by
  constructor
  · constructor
    · rintro ⟨p, hp⟩
      obtain ⟨hnodes, haccept, _⟩ := (prepareInput_eq_ok_iff rd).mp hp
      exact ⟨hnodes, haccept.shape_valid, haccept.length, fun v hv =>
        (inContract_floatToBf16_iff v).mp ⟨haccept.finite v hv, haccept.inContract v hv⟩⟩
    · rintro ⟨rfl, hvalid, hlen, hrange⟩
      have haccept : AcceptedValues shape values := ⟨hvalid, hlen,
        fun v hv => ((inContract_floatToBf16_iff v).mpr (hrange v hv)).1,
        fun v hv => ((inContract_floatToBf16_iff v).mpr (hrange v hv)).2⟩
      obtain ⟨p, hp, _⟩ := prepareInput_eq_ok rd haccept
      exact ⟨p, hp⟩
  · intro p hp
    obtain ⟨_, haccept, hrep⟩ := (prepareInput_eq_ok_iff rd).mp hp
    exact preparedFrom_of_represents haccept hrep

end RowReduce
