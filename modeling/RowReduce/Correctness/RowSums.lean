import RowReduce.Host.QuantizedMatrix
import RowReduce.Kernel.TileEngine

/-!
# From the input values to the decoded row sums

Preparation, the paged reduction and the decoder meet on the quantized matrix:
page `t` reduces tile-row `t` of the padded grid, so the decoded column zero is
the rounded row sum of every logical row.
-/

namespace RowReduce

open BinaryFloat Grid

namespace QuantizedMatrix

variable {m : QuantizedMatrix} {p : PreparedInput}

/-- The tiled upload holds the padded matrix at the face indices. -/
theorem Represents.getElem?_tiled (h : m.Represents p) {r c : ℕ} (hr : r < padded m.shape.rows)
    (hc : c < padded m.shape.cols) :
    p.tiled[tileFaceIndexUnchecked r c (padded m.shape.cols)]? = some (m.paddedWord (r, c)) := by
  have hv := m.valid
  have htile : TileShape (padded m.shape.rows) (padded m.shape.cols) :=
    TileShape.padded_row hv.1 hv.2.1 (padded_pos hv.2.2.1) (padded_le hv.2.2.2) (padded_mod _)
  have hlen : p.paddedRowMajor.length = padded m.shape.rows * padded m.shape.cols := by
    simp [h.paddedRowMajor]
  obtain ⟨tiled, htiled, _, hget⟩ := tilize_spec htile hlen
  rw [← h.paddedRows, ← h.paddedCols] at htiled
  obtain rfl := Except.ok.inj (h.tiled.symm.trans htiled)
  rw [hget r c hr hc, h.paddedRowMajor, getElem?_map_positions hr hc]

/-- The tiles fill the padded matrix. -/
theorem Represents.length_tiled (h : m.Represents p) :
    p.tiled.length = padded m.shape.rows * padded m.shape.cols := by
  have hv := m.valid
  have htile : TileShape (padded m.shape.rows) (padded m.shape.cols) :=
    TileShape.padded_row hv.1 hv.2.1 (padded_pos hv.2.2.1) (padded_le hv.2.2.2) (padded_mod _)
  have hlen : p.paddedRowMajor.length = padded m.shape.rows * padded m.shape.cols := by
    simp [h.paddedRowMajor]
  obtain ⟨tiled, htiled, hl, _⟩ := tilize_spec htile hlen
  rw [← h.paddedRows, ← h.paddedCols] at htiled
  rw [Except.ok.inj (h.tiled.symm.trans htiled), hl]

/-- The value at a physical position, zero in the padding. -/
def paddedValue (m : QuantizedMatrix) (r c : ℕ) : ℚ := (bf16Value (m.paddedWord (r, c))).toRat

/-- Inside the matrix padding changes nothing. -/
theorem paddedValue_of_lt {r c : ℕ} (hr : r < m.shape.rows) (hc : c < m.shape.cols) :
    m.paddedValue r c = m.value r c := by
  rw [paddedValue, paddedWord, if_pos ⟨hr, hc⟩]
  rfl

private theorem paddedWord_inContract (r c : ℕ) : InContract (m.paddedWord (r, c)) := by
  rw [paddedWord]
  split_ifs with h
  · exact m.inContract r c h.1 h.2
  · exact inContract_iff.mpr (Or.inl rfl)

/-- Outside it is zero. -/
theorem paddedValue_of_not_lt {r c : ℕ} (h : ¬(r < m.shape.rows ∧ c < m.shape.cols)) :
    m.paddedValue r c = 0 := by
  rw [paddedValue, paddedWord, if_neg h, (bf16Value_eq_zero_iff 0).mpr rfl]
  rfl

/-- Words of the contract are finite. -/
theorem InContract.isFinite {word : Bf16Word} (h : InContract word) :
    (bf16Value word).isFinite = true := by
  obtain ⟨q, hq, _⟩ := h
  rw [hq]
  rfl

section Pages

variable (h : m.Represents p) {t : ℕ} (ht : t < padded m.shape.rows / 32)

include h ht

private theorem outputWord_tilePage {j : ℕ} (hj : j < padded m.shape.cols / 32) {r c : ℕ}
    (hr : r < 32) (hc : c < 32) :
    outputWord (tilePage p.tiled (t * (padded m.shape.cols / 32) + j)) r c =
      m.paddedWord (32 * t + r, 32 * j + c) := by
  have hrows := padded_mod m.shape.rows
  have hcols := padded_mod m.shape.cols
  rw [outputWord, List.getD_eq_getElem?_getD, getElem?_tilePage _ _ (tileFaceIndex_lt_tile hr hc),
    ← tileFaceIndex_tile t j _ hr hc, h.getElem?_tiled (by omega) (by omega), Option.getD_some]

private theorem tilePage_finite {j : ℕ} (hj : j < padded m.shape.cols / 32) :
    ∀ w ∈ tilePage p.tiled (t * (padded m.shape.cols / 32) + j),
      (bf16Value w).isFinite = true := by
  intro w hw
  obtain ⟨k, hk, rfl⟩ := List.mem_iff_getElem.mp hw
  have hk' : k < 1024 := by
    have := List.length_take_le 1024 (p.tiled.drop (1024 * (t * (padded m.shape.cols / 32) + j)))
    unfold tilePage at hk
    omega
  obtain ⟨hr, hc, he⟩ := tileFaceIndex_position (by norm_num : 32 % 32 = 0)
    (by norm_num : 32 % 32 = 0) hk'
  have hword := outputWord_tilePage h ht hj hr hc
  rw [outputWord, he, List.getD_eq_getElem?_getD, List.getElem?_eq_getElem hk,
    Option.getD_some] at hword
  rw [hword]
  exact InContract.isFinite (paddedWord_inContract _ _)

/-- One page's reduction accumulates the padded row. -/
private theorem sum_tileRowSum {r : ℕ} (hr : r < 32) :
    ((List.range (padded m.shape.cols / 32)).map fun j =>
        tileRowSum (tilePage p.tiled (t * (padded m.shape.cols / 32) + j)) r).sum =
      ((List.range (padded m.shape.cols)).map fun c => m.paddedValue (32 * t + r) c).sum := by
  have hcols : 32 * (padded m.shape.cols / 32) = padded m.shape.cols := by
    have := padded_mod m.shape.cols
    omega
  rw [← hcols, ← sum_tiles (fun c => m.paddedValue (32 * t + r) c), hcols]
  refine congrArg List.sum (List.map_congr_left fun j hj => ?_)
  rw [tileRowSum]
  refine congrArg List.sum (List.map_congr_left fun c hc => ?_)
  rw [outputWord_tilePage h ht (List.mem_range.mp hj) hr (List.mem_range.mp hc)]
  rfl

end Pages

/-- The padded row of a logical row has that row's sum. -/
theorem sum_paddedValue {r : ℕ} (hr : r < m.shape.rows) :
    ((List.range (padded m.shape.cols)).map fun c => m.paddedValue r c).sum = m.rowSum r := by
  rw [sum_range_of_zero_tail _ (le_padded m.shape.cols)
    fun c hc => paddedValue_of_not_lt fun h => absurd h.2 (not_lt.mpr hc), rowSum]
  exact congrArg List.sum (List.map_congr_left fun c hc =>
    paddedValue_of_lt hr (List.mem_range.mp hc))

/-- A padding row sums to zero. -/
theorem sum_paddedValue_of_le {r : ℕ} (hr : m.shape.rows ≤ r) :
    ((List.range (padded m.shape.cols)).map fun c => m.paddedValue r c).sum = 0 := by
  apply List.sum_eq_zero
  intro q hq
  obtain ⟨c, _, rfl⟩ := List.mem_map.mp hq
  exact paddedValue_of_not_lt fun h => absurd h.1 (not_lt.mpr hr)

/-- The row sums of the quantized words are those of the matrix. -/
theorem Represents.rowSum_eq (h : m.Represents p) {i : ℕ} (hi : i < m.shape.rows) :
    ((List.range m.shape.cols).map fun j =>
      (bf16Value (p.quantized.getD (i * m.shape.cols + j) 0)).toRat).sum = m.rowSum i := by
  rw [rowSum, ← h.row_eq hi, PreparedInput.row, h.shape]

end QuantizedMatrix

@[simp] theorem roundToBf16_zero : roundToBf16 0 = 0 := by simp [roundToBf16]

/-- The pages the device leaves for a tiled input, in page order. -/
def deviceOutput {Dest : Type} (engine : TileEngine (List Bf16Word) Dest) (scaler : List Bf16Word)
    (ht wt : ℕ) (tiled : List Bf16Word) : List Bf16Word :=
  (List.range ht).flatMap (outputPage engine scaler wt (tilePage tiled))

section EndToEnd

variable {Dest : Type} {engine : TileEngine (List Bf16Word) Dest} {scaler : List Bf16Word}
  {read : Dest → ℕ → ℕ → ℚ} {m : QuantizedMatrix} {p : PreparedInput}

/-- The concatenated pages of one length are read page by page. -/
theorem getElem?_flatMap_pages (page : ℕ → List Bf16Word) {size : ℕ}
    (hlen : ∀ t, (page t).length = size) {ht t k : ℕ} (ht' : t < ht) (hk : k < size) :
    ((List.range ht).flatMap page)[t * size + k]? = (page t)[k]? := by
  induction ht with
  | zero => omega
  | succ ht ih =>
    have hflat : ((List.range ht).flatMap page).length = ht * size := by
      simp [List.length_flatMap, hlen]
    rw [List.range_succ, List.flatMap_append]
    rcases (show t < ht ∨ t = ht by omega) with h | rfl
    · rw [List.getElem?_append_left, ih h]
      rw [hflat]
      exact rowMajor_lt h hk
    · rw [List.getElem?_append_right (by omega), hflat]
      simp

/-- The device output holds the rounded padded row sums in column zero and zeros elsewhere. -/
theorem outputWord_deviceOutput (hlaws : RowSumLaws engine scaler read) (h : m.Represents p)
    {r c : ℕ} (hr : r < padded m.shape.rows) (hc : c < 32) :
    outputWord (deviceOutput engine scaler (padded m.shape.rows / 32)
        (padded m.shape.cols / 32) p.tiled) r c =
      if c = 0 then roundToBf16
        ((List.range (padded m.shape.cols)).map fun c => m.paddedValue r c).sum
      else 0 := by
  have hrows := padded_mod m.shape.rows
  have ht : r / 32 < padded m.shape.rows / 32 := by omega
  have hr' : r % 32 < 32 := Nat.mod_lt _ (by norm_num)
  have hsplit : 32 * (r / 32) + r % 32 = r := Nat.div_add_mod r 32
  have hindex : tileFaceIndexUnchecked r c 32 =
      r / 32 * 1024 + tileFaceIndexUnchecked (r % 32) c 32 := by
    have := tileFaceIndex_tile (r / 32) 0 32 hr' hc
    rw [hsplit, Nat.mul_zero, Nat.zero_add] at this
    rw [this]
    simp
  have hfinite : ∀ j < padded m.shape.cols / 32,
      ∀ w ∈ tilePage p.tiled (r / 32 * (padded m.shape.cols / 32) + j),
        (bf16Value w).isFinite = true :=
    fun j hj => QuantizedMatrix.tilePage_finite h ht hj
  rw [outputWord, hindex, List.getD_eq_getElem?_getD, deviceOutput,
    getElem?_flatMap_pages (outputPage engine scaler (padded m.shape.cols / 32)
      (tilePage p.tiled)) (fun t => hlaws.pack_length _) ht (tileFaceIndex_lt_tile hr' hc),
    outputPage, hlaws.pack _ _ _ hr' hc, Option.getD_some]
  split_ifs with hc0
  · rw [hc0, hlaws.read_reducedDest hfinite hr', QuantizedMatrix.sum_tileRowSum h ht hr', hsplit]
  · rw [hlaws.read_reducedDest_other hfinite hr' hc hc0, roundToBf16_zero]

/-- The decoded device output of an accepted input is, row by row, the BF16 rounding of the
exact sum of the quantized values. -/
theorem decodeOutput_deviceOutput (hlaws : RowSumLaws engine scaler read)
    (rd : Rounding binary64) {shape : Shape} {values : List Float32} {nodes : ℕ}
    (hp : prepareInput rd shape values nodes = .ok p) :
    decodeOutput (deviceOutput engine scaler (p.paddedRows / 32) (p.paddedCols / 32) p.tiled)
        shape =
      .ok ((List.range shape.rows).map fun i => bf16ToFloat (roundToBf16
        ((List.range shape.cols).map fun j =>
          (bf16Value (p.quantized.getD (i * shape.cols + j) 0)).toRat).sum)) := by
  obtain ⟨_, haccept, hrep⟩ := (prepareInput_eq_ok_iff rd).mp hp
  set m := quantize shape values haccept with hm
  have hshape : m.shape = shape := rfl
  have hlen : (deviceOutput engine scaler (p.paddedRows / 32) (p.paddedCols / 32)
      p.tiled).length = padded shape.rows * 32 := by
    have := padded_mod shape.rows
    simp only [deviceOutput, List.length_flatMap, outputPage, hlaws.pack_length, hrep.paddedRows,
      hshape]
    simp
    omega
  have hword := fun {r c : ℕ} (hr : r < padded shape.rows) (hc : c < 32) =>
    outputWord_deviceOutput hlaws hrep hr hc
  rw [decodeOutput_eq_ok_iff haccept.shape_valid hlen, hrep.paddedRows, hrep.paddedCols]
  constructor
  · intro r c hr hc hn
    rw [hword hr hc]
    split_ifs with hc0
    · rw [QuantizedMatrix.sum_paddedValue_of_le
        (not_lt.mp fun hlt => hn ⟨hshape ▸ hlt, hc0⟩), roundToBf16_zero]
      rfl
    · rfl
  · apply List.map_congr_left
    intro i hi
    have hi := List.mem_range.mp hi
    rw [hword (hi.trans_le (le_padded _)) (by norm_num), if_pos rfl,
      QuantizedMatrix.sum_paddedValue hi, ← hrep.rowSum_eq hi, hshape]

/-- One row of 33 ones, two tiles wide. -/
theorem decodeOutput_deviceOutput_ones : ∃ p,
    prepareInput (Rounding.exact binary64) ⟨1, 33⟩ (List.replicate 33 0x3f800000) 1 = .ok p ∧
      decodeOutput (deviceOutput rationalEngine [] (p.paddedRows / 32) (p.paddedCols / 32) p.tiled)
          ⟨1, 33⟩ =
        .ok ((List.range 1).map fun i => bf16ToFloat (roundToBf16
          ((List.range 33).map fun j =>
            (bf16Value (p.quantized.getD (i * 33 + j) 0)).toRat).sum)) := by
  have haccept : AcceptedValues ⟨1, 33⟩ (List.replicate 33 0x3f800000) := by
    refine ⟨by decide, by simp, ?_, ?_⟩ <;> intro v hv <;> rw [List.eq_of_mem_replicate hv]
    · decide
    · decide
  obtain ⟨p, hp, _⟩ := prepareInput_eq_ok (Rounding.exact binary64) haccept
  exact ⟨p, hp, decodeOutput_deviceOutput (rationalEngine_laws []) _ hp⟩

end EndToEnd

end RowReduce
