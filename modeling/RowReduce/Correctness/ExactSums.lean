import RowReduce.Core.Accumulation
import RowReduce.Correctness.AuditedWords
import RowReduce.Correctness.EmittedRecord

/-!
# Exact accumulation under the input contract

Words of the contract are multiples of `2^-15` of magnitude at most one, so a
row of at most 128 of them adds up without rounding, in any order, association
and width. All oracles compute the same rational sums.
-/

namespace RowReduce

open BinaryFloat Fallible Grid

/-- A multiple of `2^-15` of magnitude at most `2^7`, held exactly by both float widths. -/
structure ExactSum (q : ℚ) : Prop where
  onGrid : OnGrid (-15) (2 ^ 22) q
  abs_le : |q| ≤ 2 ^ 7
  single : binary32.decode (binary32.encode q) = .finite q
  double : binary64.decode (binary64.encode q) = .finite q

/-- A small grid value survives encoding. -/
theorem decode_encode_of_onGrid {f : BinaryFormat} {q : ℚ} (h : OnGrid (-15) (2 ^ 22) q)
    (hp : 2 ^ 22 < 2 ^ f.precision) (he : f.minExponent ≤ -15)
    (hbits : f.roundBits (2 ^ 7) < f.infinityBits) : f.decode (f.encode q) = .finite q := by
  have hle := f.roundBits_mono (abs_nonneg q) (abs_le_of_onGrid h)
  rw [f.decode_encode (hle.trans_lt hbits), f.round_of_representable (h.representable hp he)]

/-- A sum on the grid within the width of a row is exact in every format. -/
theorem ExactSum.of_onGrid {q : ℚ} (h : OnGrid (-15) (2 ^ 22) q) : ExactSum q where
  onGrid := h
  abs_le := abs_le_of_onGrid h
  single := decode_encode_of_onGrid h (by decide) (by decide) (by decide +kernel)
  double := decode_encode_of_onGrid h (by decide) (by decide) (by decide +kernel)

section Row

variable {m : QuantizedMatrix} {p : PreparedInput} {r : ℕ}

namespace QuantizedMatrix

/-- The values of a prepared row are on the grid. -/
theorem Represents.row_onGrid (h : m.Represents p) (hr : r < m.shape.rows) :
    ∀ q ∈ p.row r, OnGrid (-15) (2 ^ 15) q := by
  rw [h.row_eq hr, List.forall_mem_map]
  exact fun c hc => value_onGrid hr (List.mem_range.mp hc)

end QuantizedMatrix

/-- Sums over grid terms, at most 128 of them. -/
theorem exactSum_of_over {t : SumTree ℚ} {terms : List ℚ} (h : t.Over terms)
    (hterms : ∀ q ∈ terms, OnGrid (-15) (2 ^ 15) q) (hlen : terms.length ≤ 128) :
    ExactSum t.sum ∧
      (∀ rd : Rounding binary32, t.computed (FloatValue.add rd) .finite = .finite t.sum) ∧
      ∀ rd : Rounding binary64, t.computed (FloatValue.add rd) .finite = .finite t.sum := by
  have hgrid := h.forall_mem (OnGrid.zero.mono (by norm_num)) hterms
  have hcount : t.terms.countP (fun q => q ≠ 0) * 2 ^ 15 ≤ 2 ^ 22 := by
    have := h.countP_le
    omega
  refine ⟨.of_onGrid ((OnGrid.sumTree hgrid).mono hcount), fun rd => ?_, fun rd => ?_⟩
  · exact OnGrid.computed_sumTree rd (by decide) hgrid (hcount.trans_lt (by decide))
  · exact OnGrid.computed_sumTree rd (by decide) hgrid (hcount.trans_lt (by decide))

end Row

/-- What the oracles add up for one row of the uploaded words: the reference of the preparation,
the correctly rounded sums of the runner and the exact sums of the auditor. -/
structure OraclesAgree (p : PreparedInput) (r : ℕ) (sum absSum : ℚ) : Prop where
  prepared : p.reference[r]? = some ⟨.finite sum, .finite absSum⟩
  runner : ∃ values, unpackFloats (littleEndian p.quantized) = .ok values ∧
    ∀ fr : FloatReading,
      fr.fsum (rowValues (values.map FloatValue.toRat) p.shape.cols r) = .ok sum ∧
      fr.fsum ((rowValues (values.map FloatValue.toRat) p.shape.cols r).map abs) = .ok absSum
  auditor : ∃ inputs, (Audit.rawWords (littleEndian p.quantized)).mapM Audit.bf16 = .ok inputs ∧
    (rowValues inputs p.shape.cols r).sum = sum ∧
    ((rowValues inputs p.shape.cols r).map abs).sum = absSum

/-- Their accurate sum is exact under every reading. -/
theorem FloatReading.fsum_of_onGrid (fr : FloatReading) {xs : List ℚ}
    (h : OnGrid (-15) (2 ^ 22) xs.sum) : fr.fsum xs = .ok xs.sum := by
  have hle : |xs.sum| ≤ 2 ^ 53 := (abs_le_of_onGrid h).trans (by norm_num)
  rw [fsum, fr.not_overflows hle, fr.rd.representable (h.representable (by decide) (by decide))]
  rfl

/-- All oracles give the sums of the matrix. -/
theorem QuantizedMatrix.Represents.oraclesAgree {m : QuantizedMatrix} {p : PreparedInput} {r : ℕ}
    (h : m.Represents p) (hr : r < m.shape.rows) :
    OraclesAgree p r (m.rowSum r) (m.rowAbsSum r) := by
  obtain ⟨hsum, habs⟩ := sum_rowValues_words hr
  have hgrid := rowSum_onGrid hr
  have hgridAbs := rowAbsSum_onGrid hr
  constructor
  · rw [h.reference, List.getElem?_map, List.getElem?_range hr, Option.map_some]
  · refine ⟨_, unpackFloats_littleEndian p.quantized, fun fr => ?_⟩
    have hvalues : (p.quantized.map bf16Value).map FloatValue.toRat = wordValues m.words := by
      rw [h.quantized, List.map_map, wordValues]
      exact List.map_congr_left fun w _ => Function.comp_apply
    rw [← hsum] at hgrid
    rw [← habs] at hgridAbs
    rw [hvalues, h.shape, fr.fsum_of_onGrid hgrid, fr.fsum_of_onGrid hgridAbs, hsum, habs]
    exact ⟨rfl, rfl⟩
  · refine ⟨wordValues p.quantized, ?_, ?_⟩
    · rw [Audit.rawWords_littleEndian, Audit.mapM_bf16_eq_ok_iff, h.quantized]
      refine ⟨fun w hw => ?_, rfl⟩
      obtain ⟨q, hq, rfl⟩ := List.mem_map.mp hw
      obtain ⟨hr', hc⟩ := mem_positions.mp hq
      rw [bf16Value_word hr' hc, FloatValue.isFinite_finite]
    · rw [h.quantized, h.shape]
      exact ⟨hsum, habs⟩

/-- Accumulation of an accepted row is exact. Every sum of some of its values, or of some of their
magnitudes, in any order and association, is a small multiple of `2^-15`, and no accumulation in
single or double precision rounds on the way; the oracles all have the sum of the row. -/
theorem prepareInput_accumulation_exact (rd : Rounding binary64) {shape : Shape}
    {values : List Float32} {nodes : ℕ} {p : PreparedInput}
    (hp : prepareInput rd shape values nodes = .ok p) {r : ℕ} (hr : r < shape.rows) :
    (∀ c < shape.cols, bf16Value (p.quantized.getD (r * shape.cols + c) 0) =
      .finite ((p.row r).getD c 0)) ∧
    (∀ terms ∈ [p.row r, (p.row r).map abs], ∀ t : SumTree ℚ, t.Over terms →
      ExactSum t.sum ∧
        (∀ single : Rounding binary32,
          t.computed (FloatValue.add single) .finite = .finite t.sum) ∧
        ∀ double : Rounding binary64,
          t.computed (FloatValue.add double) .finite = .finite t.sum) ∧
    OraclesAgree p r (p.row r).sum ((p.row r).map abs).sum ∧
    ∀ t : SumTree ℚ, t.terms.Perm (p.row r) → ∀ single : Rounding binary32,
      t.computed (FloatValue.add single) .finite = .finite (p.row r).sum := by
  obtain ⟨_, haccept, hrep⟩ := (prepareInput_eq_ok_iff rd).mp hp
  set m := quantize shape values haccept with hm
  have hshape : m.shape = shape := rfl
  have hrow := hrep.row_eq (hshape ▸ hr)
  have hlen : (p.row r).length ≤ 128 := by
    rw [hrow, List.length_map, List.length_range]
    exact m.valid.2.2.2
  have hgrid := hrep.row_onGrid (hshape ▸ hr)
  have hgridAbs : ∀ q ∈ (p.row r).map abs, OnGrid (-15) (2 ^ 15) q := by
    rw [List.forall_mem_map]
    exact fun q hq => (hgrid q hq).abs
  have htrees : ∀ terms ∈ [p.row r, (p.row r).map abs], ∀ t : SumTree ℚ, t.Over terms →
      ExactSum t.sum ∧
        (∀ single : Rounding binary32,
          t.computed (FloatValue.add single) .finite = .finite t.sum) ∧
        ∀ double : Rounding binary64,
          t.computed (FloatValue.add double) .finite = .finite t.sum := by
    intro terms hterms t ht
    simp only [List.mem_cons, List.not_mem_nil, or_false] at hterms
    rcases hterms with rfl | rfl
    · exact exactSum_of_over ht hgrid hlen
    · exact exactSum_of_over ht hgridAbs (by rwa [List.length_map])
  refine ⟨fun c hc => ?_, htrees, ?_, fun t ht single => ?_⟩
  · have hword := hrep.word_eq (c := c) (hshape ▸ hr) hc
    rw [hshape] at hword
    rw [hword, hrow, hshape, List.getD_eq_getElem?_getD, List.getElem?_map, List.getElem?_range hc,
      Option.map_some, Option.getD_some]
    exact QuantizedMatrix.bf16Value_word hr hc
  · have horacles := hrep.oraclesAgree (hshape ▸ hr)
    rw [QuantizedMatrix.rowSum, QuantizedMatrix.rowAbsSum] at horacles
    rw [hrow, List.map_map]
    exact horacles
  · have hover : t.Over (p.row r) := ⟨0, by simpa using ht.subperm⟩
    rw [(htrees _ List.mem_cons_self t hover).2.1 single, SumTree.sum, ht.sum_eq]

/-- One row of ones. -/
theorem prepareInput_accumulation_exact_ones : ∃ p,
    prepareInput (.exact binary64) ⟨1, 2⟩ (List.replicate 2 0x3f800000) 1 = .ok p ∧
      OraclesAgree p 0 (p.row 0).sum ((p.row 0).map abs).sum := by
  have haccept : AcceptedValues ⟨1, 2⟩ (List.replicate 2 0x3f800000) := by
    refine ⟨by decide, by simp, ?_, ?_⟩ <;> intro v hv <;> rw [List.eq_of_mem_replicate hv]
    · decide
    · decide
  obtain ⟨p, hp, _⟩ := prepareInput_eq_ok (.exact binary64) haccept
  exact ⟨p, hp, (prepareInput_accumulation_exact _ hp (by decide)).2.2.1⟩

end RowReduce
