import RowReduce.Host.Prepare

/-!
# What preparation is for: a quantized matrix

A quantized matrix is a valid shape filled with words of the numeric contract;
its row sums are exact rationals. A prepared input represents exactly one such
matrix, and preparation succeeds precisely on the inputs that have one.
-/

namespace RowReduce

open BinaryFloat Grid Fallible

/-- Row sums of the contract have magnitude at most `2^7`. -/
theorem abs_le_of_onGrid {q : ℚ} (h : OnGrid (-15) (2 ^ 22) q) : |q| ≤ 2 ^ 7 := by
  have hle := h.abs_le
  norm_num at hle ⊢
  exact hle

/-- A grid of words inside the numeric contract. -/
structure QuantizedMatrix where
  shape : Shape
  valid : shape.Valid
  word : ℕ → ℕ → Bf16Word
  inContract : ∀ r c, r < shape.rows → c < shape.cols → InContract (word r c)

namespace QuantizedMatrix

variable (m : QuantizedMatrix)

/-- The rational value of one entry. -/
def value (r c : ℕ) : ℚ := (bf16Value (m.word r c)).toRat

def rowSum (r : ℕ) : ℚ := ((List.range m.shape.cols).map fun c => m.value r c).sum

def rowAbsSum (r : ℕ) : ℚ := ((List.range m.shape.cols).map fun c => |m.value r c|).sum

/-- The words in logical row-major order. -/
def words : List Bf16Word := (positions m.shape.rows m.shape.cols).map fun p => m.word p.1 p.2

/-- The word at a physical position, zero outside the logical grid. -/
def paddedWord (p : ℕ × ℕ) : Bf16Word :=
  if p.1 < m.shape.rows ∧ p.2 < m.shape.cols then m.word p.1 p.2 else 0

variable {m}

/-- The words of a matrix have its values. -/
theorem bf16Value_word {r c : ℕ} (hr : r < m.shape.rows) (hc : c < m.shape.cols) :
    bf16Value (m.word r c) = .finite (m.value r c) := by
  obtain ⟨q, hq, _⟩ := m.inContract r c hr hc
  rw [value, hq, FloatValue.toRat_finite]

/-- Every value is on the grid of the contract. -/
theorem value_onGrid {r c : ℕ} (hr : r < m.shape.rows) (hc : c < m.shape.cols) :
    OnGrid (-15) (2 ^ 15) (m.value r c) :=
  (m.inContract r c hr hc).onGrid

private theorem rowValues_onGrid {r : ℕ} (hr : r < m.shape.rows) {q : ℚ}
    (hq : q ∈ (List.range m.shape.cols).map fun c => m.value r c) : OnGrid (-15) (2 ^ 15) q := by
  obtain ⟨c, hc, rfl⟩ := List.mem_map.mp hq
  exact value_onGrid hr (List.mem_range.mp hc)

private theorem rowMagnitudes_onGrid {r : ℕ} (hr : r < m.shape.rows) {q : ℚ}
    (hq : q ∈ (List.range m.shape.cols).map fun c => |m.value r c|) : OnGrid (-15) (2 ^ 15) q := by
  obtain ⟨c, hc, rfl⟩ := List.mem_map.mp hq
  exact (value_onGrid hr (List.mem_range.mp hc)).abs

private theorem cols_bound (m : QuantizedMatrix) : m.shape.cols * 2 ^ 15 ≤ 2 ^ 22 := by
  have := m.valid.2.2.2
  omega

/-- So is every row sum, within the width of a row. -/
theorem rowSum_onGrid {r : ℕ} (hr : r < m.shape.rows) : OnGrid (-15) (2 ^ 22) (m.rowSum r) := by
  refine (OnGrid.sum fun q hq => rowValues_onGrid hr hq).mono ?_
  simpa using cols_bound m

/-- And every sum of magnitudes. -/
theorem rowAbsSum_onGrid {r : ℕ} (hr : r < m.shape.rows) :
    OnGrid (-15) (2 ^ 22) (m.rowAbsSum r) := by
  refine (OnGrid.sum fun q hq => rowMagnitudes_onGrid hr hq).mono ?_
  simpa using cols_bound m

/-- A sum of magnitudes is nonnegative. -/
theorem rowAbsSum_nonneg (r : ℕ) : 0 ≤ m.rowAbsSum r :=
  List.sum_nonneg fun q hq => by
    obtain ⟨c, _, rfl⟩ := List.mem_map.mp hq
    exact abs_nonneg _

variable (m)

/-- A prepared input holding exactly this matrix. -/
structure Represents (p : PreparedInput) : Prop where
  shape : p.shape = m.shape
  paddedRows : p.paddedRows = padded m.shape.rows
  paddedCols : p.paddedCols = padded m.shape.cols
  quantized : p.quantized = m.words
  paddedRowMajor : p.paddedRowMajor =
    (positions (padded m.shape.rows) (padded m.shape.cols)).map m.paddedWord
  tiled : tilize p.paddedRowMajor p.paddedRows p.paddedCols = .ok p.tiled
  reference : p.reference = (List.range m.shape.rows).map fun r =>
    { sum := .finite (m.rowSum r), absSum := .finite (m.rowAbsSum r) }

end QuantizedMatrix

/-- The uploaded values of a logical row. -/
def PreparedInput.row (p : PreparedInput) (r : ℕ) : List ℚ :=
  (List.range p.shape.cols).map fun c =>
    (bf16Value (p.quantized.getD (r * p.shape.cols + c) 0)).toRat

namespace QuantizedMatrix

variable {m : QuantizedMatrix} {p : PreparedInput} {r : ℕ}

/-- The quantized words in row-major order are those of the matrix. -/
theorem Represents.word_eq (h : m.Represents p) {c : ℕ} (hr : r < m.shape.rows)
    (hc : c < m.shape.cols) : p.quantized.getD (r * m.shape.cols + c) 0 = m.word r c := by
  rw [h.quantized, words, List.getD_eq_getElem?_getD, getElem?_map_positions hr hc]
  rfl

/-- The rows of a prepared input are those of the matrix. -/
theorem Represents.row_eq (h : m.Represents p) (hr : r < m.shape.rows) :
    p.row r = (List.range m.shape.cols).map fun c => m.value r c := by
  rw [PreparedInput.row, h.shape]
  apply List.map_congr_left
  intro c hc
  rw [h.word_eq hr (List.mem_range.mp hc), value]

end QuantizedMatrix

/-- The inputs the numeric contract accepts. -/
structure AcceptedValues (shape : Shape) (values : List Float32) : Prop where
  shape_valid : shape.Valid
  length : values.length = shape.rows * shape.cols
  finite : ∀ v ∈ values, v.value.isFinite = true
  inContract : ∀ v ∈ values, InContract (floatToBf16 v)

private theorem AcceptedValues.mem_getD {shape : Shape} {values : List Float32}
    (h : AcceptedValues shape values) {r c : ℕ} (hr : r < shape.rows) (hc : c < shape.cols) :
    values.getD (r * shape.cols + c) 0 ∈ values := by
  have hlt : r * shape.cols + c < values.length := h.length ▸ rowMajor_lt hr hc
  rw [List.getD_eq_getElem?_getD, List.getElem?_eq_getElem hlt]
  exact List.getElem_mem hlt

/-- The matrix of an accepted input. -/
def quantize (shape : Shape) (values : List Float32) (h : AcceptedValues shape values) :
    QuantizedMatrix where
  shape := shape
  valid := h.shape_valid
  word r c := floatToBf16 (values.getD (r * shape.cols + c) 0)
  inContract _ _ hr hc := h.inContract _ (h.mem_getD hr hc)

/-- The words of the quantized matrix are the quantized values in order. -/
theorem words_quantize {shape : Shape} {values : List Float32} (h : AcceptedValues shape values) :
    (quantize shape values h).words = values.map floatToBf16 := by
  symm
  refine eq_map_positions (fun p => (quantize shape values h).word p.1 p.2)
    (by rw [List.length_map]; exact h.length) fun r c hr hc => ?_
  have hlt : r * shape.cols + c < values.length := h.length ▸ rowMajor_lt hr hc
  simp [quantize, hlt]

section Loop

variable (rd : Rounding binary64) {shape : Shape} {values : List Float32}

private theorem foldl_push_quantized (paddedCols : ℕ) (value : ℕ × ℕ → Float32)
    (l : List (ℕ × ℕ)) (s : PrepareState) :
    (l.foldl (fun s p => PrepareState.push rd paddedCols s p (value p)) s).quantized =
      s.quantized ++ l.map fun p => floatToBf16 (value p) := by
  induction l generalizing s with
  | nil => simp
  | cons p l ih => rw [List.foldl_cons, ih]; simp [PrepareState.push]

private theorem foldl_push_padded (paddedCols : ℕ) (value : ℕ × ℕ → Float32)
    (l : List (ℕ × ℕ)) (s : PrepareState) :
    (l.foldl (fun s p => PrepareState.push rd paddedCols s p (value p)) s).paddedRowMajor =
      l.foldl (fun acc p => acc.set (p.1 * paddedCols + p.2) (floatToBf16 (value p)))
        s.paddedRowMajor := by
  induction l generalizing s with
  | nil => rfl
  | cons p l ih => rw [List.foldl_cons, ih]; rfl

private theorem foldl_push_reference (paddedCols : ℕ) (value : ℕ × ℕ → Float32)
    (l : List (ℕ × ℕ)) (s : PrepareState) :
    (l.foldl (fun s p => PrepareState.push rd paddedCols s p (value p)) s).reference =
      l.foldl (fun acc p => acc.modify p.1 fun ref =>
        { sum := ref.sum.add rd (bf16Value (floatToBf16 (value p))),
          absSum := ref.absSum.add rd (bf16Value (floatToBf16 (value p))).abs }) s.reference := by
  induction l generalizing s with
  | nil => rfl
  | cons p l ih => rw [List.foldl_cons, ih]; rfl

/-- Writing the logical grid into a zeroed padded grid leaves the padded matrix. -/
theorem foldl_set_padded (m : QuantizedMatrix) :
    (positions m.shape.rows m.shape.cols).foldl
        (fun acc p => acc.set (p.1 * padded m.shape.cols + p.2) (m.word p.1 p.2))
        (List.replicate (padded m.shape.rows * padded m.shape.cols) 0) =
      (positions (padded m.shape.rows) (padded m.shape.cols)).map m.paddedWord := by
  have hrows := le_padded m.shape.rows
  have hcols := le_padded m.shape.cols
  apply eq_map_positions _ (by simp)
  intro r c hr hc
  have hinj : ∀ p : ℕ × ℕ, p.2 < padded m.shape.cols → ∀ q : ℕ × ℕ, q.2 < padded m.shape.cols →
      p.1 * padded m.shape.cols + p.2 = q.1 * padded m.shape.cols + q.2 → p = q := by
    intro p hp q hq h
    obtain ⟨h1, h2⟩ := rowMajor_injective hp hq h
    exact Prod.ext h1 h2
  have hmem : ∀ p ∈ positions m.shape.rows m.shape.cols, p.2 < padded m.shape.cols :=
    fun p hp => (mem_positions.mp hp).2.trans_le hcols
  by_cases hin : r < m.shape.rows ∧ c < m.shape.cols
  · rw [QuantizedMatrix.paddedWord, if_pos hin]
    exact getElem?_foldl_set (fun p : ℕ × ℕ => p.1 * padded m.shape.cols + p.2)
      (fun p => m.word p.1 p.2) _ (nodup_positions _ _)
      (fun p hp q hq => hinj p (hmem p hp) q (hmem q hq)) (i := (r, c)) (mem_positions.mpr hin)
      (by rw [List.length_replicate]; exact rowMajor_lt hr hc)
  · rw [QuantizedMatrix.paddedWord, if_neg hin,
      getElem?_foldl_set_of_forall_ne (fun p : ℕ × ℕ => m.word p.1 p.2),
      List.getElem?_replicate_of_lt (rowMajor_lt hr hc)]
    intro p hp he
    have := hinj p (hmem p hp) (r, c) hc he
    rw [this] at hp
    exact hin (mem_positions.mp hp)

/-- The accumulated references are the exact row sums, whatever the rounding. -/
theorem foldl_reference (m : QuantizedMatrix) :
    (positions m.shape.rows m.shape.cols).foldl (fun acc p => acc.modify p.1 fun ref =>
        { sum := ref.sum.add rd (bf16Value (m.word p.1 p.2)),
          absSum := ref.absSum.add rd (bf16Value (m.word p.1 p.2)).abs })
        (List.replicate m.shape.rows ({} : RowReference)) =
      (List.range m.shape.rows).map fun r =>
        { sum := .finite (m.rowSum r), absSum := .finite (m.rowAbsSum r) } := by
  rw [foldl_modify_positions m.shape.rows m.shape.cols (fun p (ref : RowReference) =>
    { sum := ref.sum.add rd (bf16Value (m.word p.1 p.2)),
      absSum := ref.absSum.add rd (bf16Value (m.word p.1 p.2)).abs })]
  apply List.map_congr_left
  intro r hr
  have hr := List.mem_range.mp hr
  have hsplit : ∀ (l : List ℕ) (ref : RowReference), (∀ c ∈ l, c < m.shape.cols) →
      l.foldl (fun (ref : RowReference) c =>
        { sum := ref.sum.add rd (bf16Value (m.word r c)),
          absSum := ref.absSum.add rd (bf16Value (m.word r c)).abs : RowReference }) ref =
        { sum := (l.map fun c => m.value r c).foldl
            (fun acc q => FloatValue.add rd acc (.finite q)) ref.sum,
          absSum := (l.map fun c => |m.value r c|).foldl
            (fun acc q => FloatValue.add rd acc (.finite q)) ref.absSum } := by
    intro l
    induction l with
    | nil => intro ref _; rfl
    | cons c l ih =>
      intro ref hl
      rw [List.foldl_cons, ih _ fun d hd => hl d (List.mem_cons_of_mem _ hd),
        QuantizedMatrix.bf16Value_word hr (hl c List.mem_cons_self)]
      rfl
  have hexp : binary64.minExponent ≤ -15 := by
    simp only [BinaryFormat.minExponent, binary64]
    norm_num
  have hbound : m.shape.cols * 2 ^ 15 < 2 ^ binary64.precision := by
    have := m.valid.2.2.2
    simp only [binary64]
    omega
  rw [hsplit _ _ fun c hc => List.mem_range.mp hc,
    OnGrid.foldl_add rd hexp (fun q hq => QuantizedMatrix.rowValues_onGrid hr hq) OnGrid.zero
      (by simpa using hbound),
    OnGrid.foldl_add rd hexp (fun q hq => QuantizedMatrix.rowMagnitudes_onGrid hr hq) OnGrid.zero
      (by simpa using hbound), zero_add, zero_add]
  rfl

/-- An accepted input prepares the representation of its quantized matrix. -/
theorem prepareInput_eq_ok (h : AcceptedValues shape values) :
    ∃ p, prepareInput rd shape values 1 = .ok p ∧ (quantize shape values h).Represents p := by
  have hv := h.shape_valid
  have hsize : shape.rows * shape.cols ≤ sizeMax := by
    have := Nat.mul_le_mul hv.2.1 hv.2.2.2
    unfold sizeMax
    omega
  have hchecks : forM (positions shape.rows shape.cols)
      (fun p => checkValue (values.getD (p.1 * shape.cols + p.2) 0)) = .ok () := by
    rw [forM_eq_ok_iff]
    intro p hp
    obtain ⟨hr, hc⟩ := mem_positions.mp hp
    have hmem := h.mem_getD hr hc
    exact checkValue_eq_ok_iff.mpr ⟨h.finite _ hmem, h.inContract _ hmem⟩
  have htile : TileShape (padded shape.rows) (padded shape.cols) :=
    TileShape.padded_row hv.1 hv.2.1 (padded_pos hv.2.2.1) (padded_le hv.2.2.2) (padded_mod _)
  obtain ⟨tiled, htiled, _⟩ := tilize_spec htile (by simp : ((positions (padded shape.rows)
    (padded shape.cols)).map (quantize shape values h).paddedWord).length = _)
  refine ⟨⟨shape, padded shape.rows, padded shape.cols, (quantize shape values h).words, _, tiled,
    _⟩, ?_, ⟨rfl, rfl, rfl, rfl, rfl, htiled, rfl⟩⟩
  rw [prepareInput, validateShape_of_valid hv, ok_bind, checkedProduct_eq_ok hsize, ok_bind,
    throwIf_of_not (by simp [h.length]), ok_bind, paddedDimension_eq_ok hv.1 hv.2.1, ok_bind,
    paddedDimension_eq_ok hv.2.2.1 hv.2.2.2, ok_bind,
    foldlM_check (positions shape.rows shape.cols)
      (fun p => checkValue (values.getD (p.1 * shape.cols + p.2) 0))
      (fun s p => PrepareState.push rd (padded shape.cols) s p
        (values.getD (p.1 * shape.cols + p.2) 0)), hchecks]
  simp only [ok_bind, pure_eq_ok, foldl_push_quantized, foldl_push_padded, foldl_push_reference,
    List.nil_append]
  have hpadded := foldl_set_padded (quantize shape values h)
  have hreference := foldl_reference rd (quantize shape values h)
  simp only [quantize] at hpadded hreference
  rw [hpadded, hreference]
  simp only [quantize] at htiled
  rw [htiled]
  rfl

/-- Preparation succeeds exactly on the accepted inputs, on one node. -/
theorem prepareInput_eq_ok_iff {nodes : ℕ} {p : PreparedInput} :
    prepareInput rd shape values nodes = .ok p ↔
      nodes = 1 ∧ ∃ h : AcceptedValues shape values, (quantize shape values h).Represents p := by
  have hunique : ∀ {m : QuantizedMatrix} {p q : PreparedInput}, m.Represents p → m.Represents q →
      p = q := by
    intro m p q hp hq
    have htiled := hp.tiled
    rw [hp.paddedRowMajor, hp.paddedRows, hp.paddedCols, ← hq.paddedRowMajor, ← hq.paddedRows,
      ← hq.paddedCols, hq.tiled] at htiled
    cases p
    cases q
    simp only [PreparedInput.mk.injEq]
    exact ⟨hp.shape.trans hq.shape.symm, hp.paddedRows.trans hq.paddedRows.symm,
      hp.paddedCols.trans hq.paddedCols.symm, hp.quantized.trans hq.quantized.symm,
      hp.paddedRowMajor.trans hq.paddedRowMajor.symm, (Except.ok.inj htiled).symm,
      hp.reference.trans hq.reference.symm⟩
  constructor
  · intro hok
    have hok' := hok
    rw [prepareInput] at hok
    obtain ⟨_, hshape, hok⟩ := bind_eq_ok_iff.mp hok
    obtain ⟨hv, hn⟩ := validateShape_eq_ok_iff.mp hshape
    obtain ⟨size, hsize, hok⟩ := bind_eq_ok_iff.mp hok
    obtain ⟨_, hlen, hok⟩ := bind_eq_ok_iff.mp hok
    obtain ⟨paddedRows, _, hok⟩ := bind_eq_ok_iff.mp hok
    obtain ⟨paddedCols, _, hok⟩ := bind_eq_ok_iff.mp hok
    obtain ⟨s, hloop, _⟩ := bind_eq_ok_iff.mp hok
    have hsize' : size = shape.rows * shape.cols := by
      unfold checkedProduct at hsize
      split at hsize
      · cases hsize
      · exact (Except.ok.inj hsize).symm
    have hlen' : values.length = shape.rows * shape.cols := by
      rw [throwIf_eq_ok_iff, not_not] at hlen
      exact hlen.trans hsize'
    rw [foldlM_check (positions shape.rows shape.cols)
      (fun p => checkValue (values.getD (p.1 * shape.cols + p.2) 0))
      (fun s p => PrepareState.push rd paddedCols s p
        (values.getD (p.1 * shape.cols + p.2) 0))] at hloop
    obtain ⟨_, hchecks, _⟩ := bind_eq_ok_iff.mp hloop
    have hall : ∀ v ∈ values, checkValue v = .ok () := by
      intro v hvmem
      obtain ⟨k, hk, rfl⟩ := List.mem_iff_getElem.mp hvmem
      rw [hlen'] at hk
      have hcols : 0 < shape.cols := hv.2.2.1
      have hcheck := forM_eq_ok_iff.mp hchecks (k / shape.cols, k % shape.cols)
        (mem_positions.mpr ⟨Nat.div_lt_of_lt_mul (by rwa [Nat.mul_comm]), Nat.mod_lt _ hcols⟩)
      simpa [Nat.div_add_mod', hlen', hk] using hcheck
    have haccept : AcceptedValues shape values := ⟨hv, hlen',
      fun v hvm => (checkValue_eq_ok_iff.mp (hall v hvm)).1,
      fun v hvm => (checkValue_eq_ok_iff.mp (hall v hvm)).2⟩
    obtain ⟨q, hq, hrep⟩ := prepareInput_eq_ok rd haccept
    rw [hn] at hok'
    obtain rfl := Except.ok.inj (hq.symm.trans hok')
    exact ⟨hn, haccept, hrep⟩
  · rintro ⟨rfl, h, hrep⟩
    obtain ⟨q, hq, hrep'⟩ := prepareInput_eq_ok rd h
    rwa [hunique hrep hrep']

end Loop

end RowReduce
