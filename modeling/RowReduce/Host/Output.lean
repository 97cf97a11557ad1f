import RowReduce.Host.Prepare

/-!
# Decoding the output tiles

Each output tile carries its row sums in column zero. The decoder accepts an
output exactly when all other words have zero magnitude, and returns column zero.
-/

namespace RowReduce

open BinaryFloat Grid Fallible

/-- Outside the results the decoder admits only zeros, of either sign. -/
def checkOutputPadding (rows : ℕ) (p : ℕ × ℕ) (value : Float32) : Except HostException Unit :=
  throwIf (¬(p.1 < rows ∧ p.2 = 0) ∧
      (value.value.isFinite = false ∨ value.value.eq (.finite 0) = false))
    (.runtimeError ("nonzero or nonfinite output padding at row " ++ toString p.1 ++
      ", col " ++ toString p.2))

def decodeOutput (tiled : List Bf16Word) (shape : Shape) :
    Except HostException (List Float32) := do
  validateShape shape 1
  let paddedRows ← paddedDimension shape.rows
  let rowMajor ← untilize tiled paddedRows 32
  (positions paddedRows 32).foldlM (fun actual p => do
      checkOutputPadding shape.rows p (bf16ToFloat (rowMajor.getD (p.1 * 32 + p.2) 0))
      pure (if p.1 < shape.rows ∧ p.2 = 0 then
        actual.set p.1 (bf16ToFloat (rowMajor.getD (p.1 * 32 + p.2) 0)) else actual))
    (List.replicate shape.rows 0)

/-- The output word at a physical position of the one-tile-wide output. -/
def outputWord (tiled : List Bf16Word) (row col : ℕ) : Bf16Word :=
  tiled.getD (tileFaceIndexUnchecked row col 32) 0

/-- Every word outside the logical rows' column zero has zero magnitude. -/
def PaddingZero (rows : ℕ) (tiled : List Bf16Word) : Prop :=
  ∀ r c, r < padded rows → c < 32 → ¬(r < rows ∧ c = 0) → wordMagnitude (outputWord tiled r c) = 0

/-- The float test of the decoder is the mask test for zero magnitude. -/
theorem checkOutputPadding_eq_ok_iff {rows : ℕ} {p : ℕ × ℕ} {word : Bf16Word} :
    checkOutputPadding rows p (bf16ToFloat word) = .ok () ↔
      (¬(p.1 < rows ∧ p.2 = 0) → wordMagnitude word = 0) := by
  rw [checkOutputPadding, throwIf_eq_ok_iff, ← bf16Value_eq_zero_iff, bf16Value]
  cases (bf16ToFloat word).value <;> simp [FloatValue.isFinite, FloatValue.eq]

variable {shape : Shape} {tiled : List Bf16Word}

/-- The one-tile-wide output of a valid shape is a tiled buffer. -/
theorem outputTileShape (hv : shape.Valid) : TileShape (padded shape.rows) 32 :=
  TileShape.padded_row hv.1 hv.2.1 (by norm_num) (by norm_num) (by norm_num)

/-- Collecting column zero in loop order lists the logical rows. -/
private theorem foldl_collect_rows {rows : ℕ} (value : ℕ × ℕ → Float32) :
    (positions (padded rows) 32).foldl (fun actual p =>
        if p.1 < rows ∧ p.2 = 0 then actual.set p.1 (value p) else actual)
        (List.replicate rows 0) =
      (List.range rows).map fun r => value (r, 0) := by
  have hrows := le_padded rows
  have hfilter := @List.foldl_filter _ _ (fun p : ℕ × ℕ => decide (p.1 < rows ∧ p.2 = 0))
    (fun (actual : List Float32) p => actual.set p.1 (value p))
    (positions (padded rows) 32) (List.replicate rows 0)
  simp only [decide_eq_true_eq] at hfilter
  rw [← hfilter]
  refine foldl_set_eq_map_range Prod.fst _ ((nodup_positions _ _).filter _) ?_
    (by simp) _ ?_
  · intro p hp q hq h
    have hp' := (List.mem_filter.mp hp).2
    have hq' := (List.mem_filter.mp hq).2
    simp only [decide_eq_true_eq] at hp' hq'
    exact Prod.ext h (hp'.2.trans hq'.2.symm)
  · intro r hr
    exact ⟨(r, 0), List.mem_filter.mpr ⟨mem_positions.mpr ⟨by omega, by norm_num⟩, by simp [hr]⟩,
      rfl, rfl⟩

/-- Decoding succeeds exactly on zero padding and returns the column-zero words. -/
theorem decodeOutput_eq_ok_iff (hv : shape.Valid) (hlen : tiled.length = padded shape.rows * 32)
    {actual : List Float32} : decodeOutput tiled shape = .ok actual ↔ PaddingZero shape.rows tiled ∧
      actual = (List.range shape.rows).map fun r => bf16ToFloat (outputWord tiled r 0) := by
  set rowMajor := (positions (padded shape.rows) 32).map fun p =>
    tiled.getD (tileFaceIndexUnchecked p.1 p.2 32) default with hrowMajor
  have hword : ∀ r c, r < padded shape.rows → c < 32 →
      rowMajor.getD (r * 32 + c) 0 = outputWord tiled r c := by
    intro r c hr hc
    rw [hrowMajor, List.getD_eq_getElem?_getD, getElem?_map_positions hr hc]
    rfl
  have hpadding : forM (positions (padded shape.rows) 32) (fun p => checkOutputPadding shape.rows p
      (bf16ToFloat (rowMajor.getD (p.1 * 32 + p.2) 0))) = .ok () ↔
      PaddingZero shape.rows tiled := by
    simp only [forM_eq_ok_iff, checkOutputPadding_eq_ok_iff, mem_positions, Prod.forall, and_imp]
    constructor
    · intro h r c hr hc hn
      rw [← hword r c hr hc]
      exact h r c hr hc hn
    · intro h r c hr hc hn
      rw [hword r c hr hc]
      exact h r c hr hc hn
  have hrows : (List.range shape.rows).map (fun r => bf16ToFloat (rowMajor.getD (r * 32 + 0) 0)) =
      (List.range shape.rows).map fun r => bf16ToFloat (outputWord tiled r 0) := by
    have := le_padded shape.rows
    apply List.map_congr_left
    intro r hr
    rw [hword r 0 (by have := List.mem_range.mp hr; omega) (by norm_num)]
  rw [decodeOutput, validateShape_of_valid hv, ok_bind, paddedDimension_eq_ok hv.1 hv.2.1, ok_bind,
    untilize_spec (outputTileShape hv) hlen, ok_bind, ← hrowMajor,
    foldlM_check (positions (padded shape.rows) 32)
      (fun p => checkOutputPadding shape.rows p (bf16ToFloat (rowMajor.getD (p.1 * 32 + p.2) 0)))
      (fun (actual : List Float32) p => if p.1 < shape.rows ∧ p.2 = 0 then
        actual.set p.1 (bf16ToFloat (rowMajor.getD (p.1 * 32 + p.2) 0)) else actual),
    foldl_collect_rows fun p => bf16ToFloat (rowMajor.getD (p.1 * 32 + p.2) 0), hrows,
    bind_eq_ok_iff]
  simp only [hpadding, pure_eq_ok, Except.ok.injEq, exists_const, eq_comm]

end RowReduce
