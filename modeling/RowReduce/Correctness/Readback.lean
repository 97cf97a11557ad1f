import RowReduce.Host.QuantizedMatrix
import RowReduce.Host.Run

/-!
# The verdict on a readback

Results and padding partition the physical output. A readback passes exactly
when every result row is finite and within tolerance and every other word has
zero magnitude; the two independent padding tests agree on that.
-/

namespace RowReduce

open BinaryFloat Fallible Grid

/-- The runtime's untilizer is the project's. -/
def Upstream.UntilizeAgrees (up : Upstream) : Prop :=
  ∀ tiled rows cols rowMajor, untilize tiled rows cols = .ok rowMajor →
    up.untilizeNfaces tiled rows cols = rowMajor

/-- The runtime's converter and tilizer are the project's. -/
structure Upstream.UploadAgrees (up : Upstream) : Prop where
  convert : ∀ value : Float32, value.value.isFinite = true →
    up.fp32ToBf16 value = floatToBf16 value
  tilize : ∀ rowMajor rows cols tiled, tilize rowMajor rows cols = .ok tiled →
    up.tilizeNfaces rowMajor rows cols = tiled

def tilizerDisagrees : HostException :=
  .runtimeError "Upstream tilizer disagrees with independent layout oracle"

def converterDisagrees : HostException :=
  .runtimeError "Upstream BF16 converter disagrees with independent quantizer"

def untilizerDisagrees : HostException :=
  .runtimeError "Upstream untilizer disagrees with independent output decoder"

section Upload

variable {up : Upstream} {m : QuantizedMatrix} {p : PreparedInput}

/-- The upload succeeds or the tilizers disagree. -/
theorem transferWords_cases (up : Upstream) (p : PreparedInput) :
    (∃ words, transferWords up p = .ok words) ∨ transferWords up p = .error tilizerDisagrees := by
  simp only [transferWords]
  by_cases h : up.tilizeNfaces p.paddedRowMajor p.paddedRows p.paddedCols ≠ p.tiled
  · rw [throwIf_of h]
    exact Or.inr rfl
  · rw [throwIf_of_not h]
    exact Or.inl ⟨_, rfl⟩

/-- With an agreeing library the upload succeeds. -/
theorem transferWords_ok (h : up.UploadAgrees) (hrep : m.Represents p) :
    ∃ words, transferWords up p = .ok words := by
  simp only [transferWords]
  rw [h.tilize _ _ _ _ hrep.tiled, throwIf_of_not (by simp)]
  exact ⟨_, rfl⟩

/-- The check of the quantizer passes or the converters disagree. -/
theorem checkUpstreamQuantization_cases (up : Upstream) (original : List Float32)
    (p : PreparedInput) : checkUpstreamQuantization up original p = .ok () ∨
      checkUpstreamQuantization up original p = .error converterDisagrees := by
  unfold checkUpstreamQuantization
  generalize List.range original.length = l
  induction l with
  | nil => exact Or.inl rfl
  | cons i l ih =>
    rw [List.forM_cons]
    by_cases h : up.fp32ToBf16 (original.getD i 0) ≠ p.quantized.getD i 0
    · rw [throwIf_of h]
      exact Or.inr rfl
    · rw [throwIf_of_not h, ok_bind]
      exact ih

/-- With an agreeing library the check passes. -/
theorem checkUpstreamQuantization_ok {shape : Shape} {values : List Float32}
    (h : up.UploadAgrees) (haccept : AcceptedValues shape values)
    (hrep : (quantize shape values haccept).Represents p) :
    checkUpstreamQuantization up values p = .ok () := by
  refine forM_eq_ok_iff.mpr fun i hi => ?_
  have hlt := List.mem_range.mp hi
  rw [throwIf_eq_ok_iff, not_not, hrep.quantized, words_quantize,
    List.getD_eq_getElem?_getD, List.getD_eq_getElem?_getD, List.getElem?_map,
    List.getElem?_eq_getElem hlt]
  exact h.convert _ (haccept.finite _ (List.getElem_mem hlt))

end Upload

/-- Two words for each uploaded one. -/
@[simp] theorem length_resultBits (words : List Word32) :
    (resultBits words).length = 2 * words.length := by
  induction words with
  | nil => rfl
  | cons w words ih =>
    rw [resultBits, List.flatMap_cons, List.length_append]
    change 2 + (resultBits words).length = _
    rw [ih, List.length_cons]
    omega

/-- Zero words are unpacked to zero words. -/
theorem resultBits_replicate_zero (n : ℕ) :
    resultBits (List.replicate n 0) = List.replicate (2 * n) 0 := by
  induction n with
  | zero => rfl
  | succ n ih =>
    rw [List.replicate_succ, resultBits, List.flatMap_cons]
    change [0, 0] ++ resultBits (List.replicate n 0) = _
    rw [ih, show 2 * (n + 1) = 2 * n + 1 + 1 by ring]
    rfl

/-- The two halves of a transferred word. -/
theorem packed_low (a b : Bf16Word) :
    ((a.setWidth 32 ||| (b.setWidth 32 <<< 16) : Word32)).setWidth 16 = a := by
  ext i hi
  simp

private theorem packed_high (a b : Bf16Word) :
    ((a.setWidth 32 ||| (b.setWidth 32 <<< 16) : Word32) >>> 16).setWidth 16 = b := by
  ext i hi
  simp [show i < 32 by omega, show 16 + i < 32 by omega, BitVec.getLsbD_eq_getElem hi]

/-- Two words are packed into one. -/
theorem packWords_cons (a b : Bf16Word) (l : List Bf16Word) :
    packWords (a :: b :: l) = (a.setWidth 32 ||| (b.setWidth 32 <<< 16)) :: packWords l := by
  have hlen : (a :: b :: l).length / 2 = l.length / 2 + 1 := by simp only [List.length_cons]; omega
  rw [packWords, hlen, List.range_succ_eq_map, List.map_cons, List.map_map]
  rfl

/-- Packing loses nothing. -/
theorem resultBits_packWords :
    ∀ {l : List Bf16Word}, l.length % 2 = 0 → resultBits (packWords l) = l
  | [], _ => rfl
  | [_], h => by simp at h
  | a :: b :: l, h => by
    have hrest := resultBits_packWords (l := l) (by simpa [Nat.add_assoc] using h)
    rw [packWords_cons, resultBits, List.flatMap_cons, packed_low, packed_high]
    exact congrArg (a :: b :: ·) hrest

/-- Every word is either a result or padding, at its place in the tile layout. -/
theorem exists_outputWord_of_mem {rows : ℕ} {bits : List Bf16Word} {w : Bf16Word}
    (hlen : bits.length = padded rows * 32) (hw : w ∈ bits) :
    ∃ r c, r < padded rows ∧ c < 32 ∧ outputWord bits r c = w := by
  obtain ⟨k, hk, rfl⟩ := List.getElem_of_mem hw
  obtain ⟨hr, hc, he⟩ := tileFaceIndex_position (padded_mod rows) (by norm_num : 32 % 32 = 0)
    (hlen ▸ hk)
  refine ⟨_, _, hr, hc, ?_⟩
  rw [outputWord, he, List.getD_eq_getElem?_getD, List.getElem?_eq_getElem hk, Option.getD_some]

/-- The word at a position is one of the words. -/
theorem outputWord_mem {rows r c : ℕ} {bits : List Bf16Word} (hlen : bits.length = padded rows * 32)
    (hr : r < padded rows) (hc : c < 32) : outputWord bits r c ∈ bits := by
  have hk := tileFaceIndex_lt (padded_mod rows) (by norm_num : 32 % 32 = 0) hr hc
  rw [outputWord, List.getD_eq_getElem?_getD, List.getElem?_eq_getElem (hlen ▸ hk)]
  exact List.getElem_mem _

/-- The padding test in loop order. -/
def outputPaddingZero (rows : ℕ) (bits : List Bf16Word) : Bool :=
  (positions (padded rows) 32).all fun p =>
    decide (p.1 < rows ∧ p.2 = 0) || decide (wordMagnitude (outputWord bits p.1 p.2) = 0)

/-- The padding check asks for zeros outside the results. -/
theorem outputPaddingZero_eq_true_iff {rows : ℕ} {bits : List Bf16Word} :
    outputPaddingZero rows bits = true ↔ PaddingZero rows bits := by
  simp only [outputPaddingZero, List.all_eq_true, mem_positions, Prod.forall, Bool.or_eq_true,
    decide_eq_true_eq, and_imp, PaddingZero]
  constructor
  · intro h r c hr hc hn
    exact (h r c hr hc).resolve_left hn
  · intro h r c hr hc
    exact or_iff_not_imp_left.mpr (h r c hr hc)

/-- The comparison of result rows with the references of a represented matrix. -/
theorem compareRows_represented {rd : Rounding binary64} {exact : Bool} {m : QuantizedMatrix}
    {prepared : PreparedInput} (hrep : m.Represents prepared) (actual : ℕ → Float32) :
    compareRows rd ((List.range m.shape.rows).map actual) prepared.reference m.shape.cols exact =
      .ok (((List.range m.shape.rows).map fun r => comparedRow rd exact (m.rowSum r)
        (m.rowAbsSum r) m.shape.cols (actual r).value).foldl Comparison.push {}) := by
  obtain ⟨hr0, hr1, hc0, hc1⟩ := m.valid
  have hreference : prepared.reference = ((List.range m.shape.rows).map fun r =>
      (m.rowSum r, m.rowAbsSum r)).map finiteReference := by
    rw [hrep.reference, List.map_map]
    rfl
  have hne : (List.range m.shape.rows).map actual ≠ [] := by
    rw [Ne, List.map_eq_nil_iff, List.range_eq_nil]
    omega
  have habs : ∀ p ∈ (List.range m.shape.rows).map (fun r => (m.rowSum r, m.rowAbsSum r)),
      0 ≤ p.2 := by
    intro p hp
    obtain ⟨r, _, rfl⟩ := List.mem_map.mp hp
    exact m.rowAbsSum_nonneg r
  rw [hreference, compareRows_finite (by simp) hne (by simpa using hr1) hc0 hc1 habs,
    List.zip_map', List.map_map]
  rfl

/-- It passes when every row does. -/
theorem comparedRows_pass_iff {rd : Rounding binary64} {exact : Bool} {m : QuantizedMatrix}
    (actual : ℕ → FloatValue) :
    (((List.range m.shape.rows).map fun r => comparedRow rd exact (m.rowSum r) (m.rowAbsSum r)
        m.shape.cols (actual r)).foldl Comparison.push {}).pass = true ↔
      ∀ r < m.shape.rows,
        RowPasses rd exact (m.rowSum r) (m.rowAbsSum r) m.shape.cols (actual r) := by
  rw [(foldl_push_rows _ _).2, Bool.true_and]
  simp only [List.all_eq_true, List.mem_map, List.mem_range, forall_exists_index, and_imp,
    forall_apply_eq_imp_iff₂, comparedRow_pass_iff]

/-- All result rows within tolerance of the matrix's row sums, everything else zero. -/
def ReadbackPasses (rd : Rounding binary64) (exact : Bool) (m : QuantizedMatrix)
    (bits : List Bf16Word) : Prop :=
  (∀ r < m.shape.rows, RowPasses rd exact (m.rowSum r) (m.rowAbsSum r) m.shape.cols
    (bf16Value (outputWord bits r 0))) ∧ PaddingZero m.shape.rows bits

/-- The compared rows of a readback. -/
def judgedRows (rd : Rounding binary64) (exact : Bool) (m : QuantizedMatrix)
    (bits : List Bf16Word) : List RowComparison :=
  (List.range m.shape.rows).map fun r => comparedRow rd exact (m.rowSum r) (m.rowAbsSum r)
    m.shape.cols (bf16Value (outputWord bits r 0))

def judgementOf (rd : Rounding binary64) (exact : Bool) (m : QuantizedMatrix)
    (bits : List Bf16Word) : Judgement where
  exact := exact
  comparison := (judgedRows rd exact m bits).foldl Comparison.push {}
  paddingZero := outputPaddingZero m.shape.rows bits

/-- The judged rows. -/
theorem judgementOf_rows (rd : Rounding binary64) (exact : Bool) (m : QuantizedMatrix)
    (bits : List Bf16Word) :
    (judgementOf rd exact m bits).comparison.rows = judgedRows rd exact m bits :=
  (foldl_push_rows _ _).1

/-- A judgement passes where the readback does. -/
theorem judgementOf_pass_iff {rd : Rounding binary64} {exact : Bool} {m : QuantizedMatrix}
    {bits : List Bf16Word} : ((judgementOf rd exact m bits).comparison.pass &&
      (judgementOf rd exact m bits).paddingZero) = true ↔ ReadbackPasses rd exact m bits := by
  rw [judgementOf, Bool.and_eq_true, outputPaddingZero_eq_true_iff, judgedRows, ReadbackPasses,
    comparedRows_pass_iff fun r => bf16Value (outputWord bits r 0)]

/-- Finite vectors equal themselves. -/
theorem floatsDiffer_self {l : List Float32} (h : ∀ v ∈ l, ∃ q, v.value = .finite q) :
    floatsDiffer l l = false := by
  have hall : ((l.zip l).all fun p => p.1.value.eq p.2.value) = true := by
    induction l with
    | nil => rfl
    | cons v l ih =>
      obtain ⟨q, hq⟩ := h v List.mem_cons_self
      rw [List.zip_cons_cons, List.all_cons, ih fun w hw => h w (List.mem_cons_of_mem _ hw)]
      simp [hq]
  rw [floatsDiffer, beq_self_eq_true, Bool.true_and, hall, Bool.not_true]

section Judge

variable {env : HostEnv} {options : Options} {pattern : String} {prepared : PreparedInput}
  {m : QuantizedMatrix} {bits : List Bf16Word}

/-- With agreeing untilizers every readback is judged, none raises. -/
theorem judgeReadback_eq (hup : env.upstream.UntilizeAgrees) (hshape : options.shape = m.shape)
    (hrep : m.Represents prepared) (hlen : bits.length = padded m.shape.rows * 32) {exact : Bool}
    (hexact : launchIsExact pattern = .ok exact) :
    judgeReadback env options pattern prepared bits = .ok (judgementOf env.rd exact m bits) := by
  have hle := le_padded m.shape.rows
  set rowMajor := (positions (padded m.shape.rows) 32).map fun p =>
    bits.getD (tileFaceIndexUnchecked p.1 p.2 32) default with hrowMajor
  have huntilize : env.upstream.untilizeNfaces bits (padded m.shape.rows) 32 = rowMajor :=
    hup _ _ _ _ (untilize_spec (outputTileShape m.valid) hlen)
  have hword : ∀ r c, r < padded m.shape.rows → c < 32 →
      rowMajor.getD (r * 32 + c) 0 = outputWord bits r c := by
    intro r c hr hc
    rw [hrowMajor, List.getD_eq_getElem?_getD, getElem?_map_positions hr hc]
    rfl
  have hpadding : paddingZeroMask m.shape.rows (padded m.shape.rows) rowMajor =
      outputPaddingZero m.shape.rows bits := by
    rw [paddingZeroMask, outputPaddingZero, Bool.eq_iff_iff, List.all_eq_true, List.all_eq_true]
    refine forall₂_congr fun p hp => ?_
    obtain ⟨hr, hc⟩ := mem_positions.mp hp
    rw [hword _ _ hr hc]
    simp only [Bool.not_eq_true', Bool.and_eq_false_iff, decide_eq_false_iff_not, ne_eq, not_not,
      and_7fff_eq_zero_iff, Bool.or_eq_true, decide_eq_true_eq, not_or, not_le]
  set actual := (List.range m.shape.rows).map fun r => bf16ToFloat (rowMajor.getD (r * 32) 0)
    with hactual
  have hactual' : actual = (List.range m.shape.rows).map fun r =>
      bf16ToFloat (outputWord bits r 0) := by
    apply List.map_congr_left
    intro r hr
    have := hword r 0 ((List.mem_range.mp hr).trans_le hle) (by norm_num)
    rw [Nat.add_zero] at this
    rw [this]
  have hcompare : compareRows env.rd actual prepared.reference m.shape.cols exact =
      .ok (judgementOf env.rd exact m bits).comparison := by
    rw [hactual', compareRows_represented hrep]
    rfl
  simp only [judgeReadback, hshape, hrep.paddedRows, huntilize, hpadding, ← hactual, hexact,
    ok_bind, hcompare, pure_eq_ok]
  -- only a passing readback is decoded a second time, and then to the same finite rows
  by_cases hpass : ((judgementOf env.rd exact m bits).comparison.pass &&
      outputPaddingZero m.shape.rows bits) = true
  · obtain ⟨hrows, hzero⟩ := judgementOf_pass_iff.mp hpass
    have hdecode : decodeOutput bits m.shape = .ok actual :=
      (decodeOutput_eq_ok_iff m.valid hlen).mpr ⟨hzero, hactual'⟩
    have hsame : floatsDiffer actual actual = false := by
      refine floatsDiffer_self fun v hv => ?_
      rw [hactual', List.mem_map] at hv
      obtain ⟨r, hr, rfl⟩ := hv
      obtain ⟨q, hq, _⟩ := hrows r (List.mem_range.mp hr)
      exact ⟨q, hq⟩
    rw [if_pos hpass, hdecode, ok_bind, throwIf_of_not (by simp [hsame]), ok_bind]
    rfl
  · rw [if_neg hpass]
    rfl

/-- A readback that still holds a poisoned half-word fails, wherever that is. -/
theorem not_readbackPasses_of_poison {rd : Rounding binary64} {exact : Bool}
    (hlen : bits.length = padded m.shape.rows * 32) (hp : 0x7fc1#16 ∈ bits) :
    ¬ReadbackPasses rd exact m bits := by
  rintro ⟨hrows, hzero⟩
  obtain ⟨r, c, hr, hc, hword⟩ := exists_outputWord_of_mem hlen hp
  by_cases hresult : r < m.shape.rows ∧ c = 0
  · obtain ⟨hr', rfl⟩ := hresult
    obtain ⟨q, hq, _⟩ := hrows r hr'
    have hfinite := (isFinite_bf16Value_iff (outputWord bits r 0)).mp (by rw [hq]; rfl)
    rw [hword] at hfinite
    exact absurd hfinite (by decide)
  · have hmag := hzero r c hr hc hresult
    rw [hword] at hmag
    exact absurd hmag (by decide)

end Judge

end RowReduce
