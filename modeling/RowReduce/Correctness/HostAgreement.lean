import RowReduce.Correctness.AuditedRecord
import RowReduce.Correctness.EmittedRecord
import RowReduce.Correctness.PatternSums
import RowReduce.Correctness.RowComparison
import RowReduce.Correctness.RunnerPass

/-!
# Host, runner and auditor agree

Over exact rationals the runner recomputes the host's results, references, failed
rows and padding from the host's own record, and what the host passes is passed
by the runner and accepted by the auditor.
-/

namespace RowReduce

open BinaryFloat Fallible Grid Hexadecimal

/-- The auditor's budget is the runner's over exact rationals. -/
theorem Audit.rowLimit_eq (p : Pattern) {cols : ℤ} (hcols : cols ≠ 2 ^ 24 - 64) (inputs : List ℚ) :
    Audit.rowLimit p cols inputs = recomputedTolerance p cols inputs.sum (inputs.map abs).sum := by
  have hne : ((2 ^ 24 - cols - 64 : ℤ) : ℚ) ≠ 0 := by
    exact_mod_cast (by omega : (2 ^ 24 - cols - 64 : ℤ) ≠ 0)
  have hdivisor : 1 - ((cols + 64 : ℤ) : ℚ) * 2 ^ (-24 : ℤ) =
      ((2 ^ 24 - cols - 64 : ℤ) : ℚ) * 2 ^ (-24 : ℤ) := by
    push_cast
    norm_num
    ring
  have hgamma :
      ((cols + 64 : ℤ) : ℚ) * 2 ^ (-24 : ℤ) / (1 - ((cols + 64 : ℤ) : ℚ) * 2 ^ (-24 : ℤ)) =
      ((cols + 64 : ℤ) : ℚ) / ((2 ^ 24 - cols - 64 : ℤ) : ℚ) := by
    rw [hdivisor, mul_div_mul_right _ _ (by positivity)]
  have hexact : Audit.exact.contains p.name = p.isExact := exactPatterns_contains p
  rw [Audit.rowLimit, Audit.auditBudget, recomputedTolerance, hexact, hgamma]
  split_ifs
  · rfl
  · norm_num
    ring

/-- The greatest of nonnegative numbers, collected from zero. -/
theorem foldl_max_zero {l : List ℚ} (hne : l ≠ []) (h : ∀ q ∈ l, 0 ≤ q) :
    l.foldl max 0 = greatest l := by
  cases l with
  | nil => exact absurd rfl hne
  | cons q l =>
    rw [List.foldl_cons, max_eq_right (h q List.mem_cons_self)]
    rfl

private theorem greatest_mem {l : List ℚ} (hne : l ≠ []) : greatest l ∈ l := by
  cases l with
  | nil => exact absurd rfl hne
  | cons q l => exact foldl_max_mem l q

section Bounds

variable {m : QuantizedMatrix} {r : ℕ}

/-- Over exact rationals the coefficient is the closed formula. -/
theorem gammaCoefficient_exact (width : ℕ) : gammaCoefficient (.exact binary64) width =
    (width + 64 : ℕ) * 2 ^ (-24 : ℤ) / (1 - (width + 64 : ℕ) * 2 ^ (-24 : ℤ)) := rfl

private theorem gammaCoefficient_exact_le_one {width : ℕ} (hw : width ≤ 128) :
    gammaCoefficient (.exact binary64) width ≤ 1 := by
  have hk : ((width + 64 : ℕ) : ℚ) ≤ 192 := by exact_mod_cast (by omega : width + 64 ≤ 192)
  rw [gammaCoefficient_exact, div_le_one (by norm_num at hk ⊢; linarith)]
  norm_num at hk ⊢
  linarith

/-- A tolerance is a small number. -/
theorem toleranceValue_exact_le (hr : r < m.shape.rows) (exact : Bool) :
    toleranceValue (.exact binary64) exact (m.rowSum r) (m.rowAbsSum r) m.shape.cols ≤ 2 ^ 9 := by
  have hs := abs_le_of_onGrid (QuantizedMatrix.rowSum_onGrid hr)
  have ha := (le_abs_self _).trans (abs_le_of_onGrid (QuantizedMatrix.rowAbsSum_onGrid hr))
  have hgamma0 := @gammaCoefficient_nonneg (.exact binary64) _ m.valid.2.2.2
  have hgamma := gammaCoefficient_exact_le_one m.valid.2.2.2
  have hproduct : gammaCoefficient (.exact binary64) m.shape.cols * m.rowAbsSum r ≤ 1 * 2 ^ 7 :=
    mul_le_mul hgamma ha (m.rowAbsSum_nonneg r) zero_le_one
  unfold toleranceValue
  split_ifs
  · norm_num
  · simp only [budgetValue, Rounding.exact_round, mul_assoc]
    norm_num at hs hproduct ⊢
    linarith

end Bounds

section Audited

variable {env : HostEnv} {options : Options} {prepared : PreparedInput} {i : ℕ} {p : Pattern}
  {m : QuantizedMatrix} {words : List Word32}

/-- The error of a row over exact rationals. -/
def rowError (m : QuantizedMatrix) (bits : List Bf16Word) (r : ℕ) : ℚ :=
  |(bf16Value (outputWord bits r 0)).toRat - m.rowSum r|

/-- The auditor's row is the matrix's. -/
theorem auditedRow_words {r : ℕ} (hr : r < m.shape.rows) (q : ℚ) :
    Audit.auditedRow p m.shape.cols (rowValues (wordValues m.words) m.shape.cols r) q =
      { sum := m.rowSum r
        magnitude := m.rowAbsSum r
        error := |q - m.rowSum r|
        limit := toleranceValue (.exact binary64) p.isExact (m.rowSum r) (m.rowAbsSum r)
          m.shape.cols } := by
  obtain ⟨hsum, habs⟩ := sum_rowValues_words hr
  have hcols : (m.shape.cols : ℤ) ≠ 2 ^ 24 - 64 := by
    have := m.valid.2.2.2
    omega
  have hlimit : Audit.rowLimit p m.shape.cols (rowValues (wordValues m.words) m.shape.cols r) =
      (validatedRow .exact p.isExact (gammaOf .exact m.shape.cols)
        (rowValues (wordValues m.words) m.shape.cols r) q).tolerance :=
    Audit.rowLimit_eq p hcols _
  rw [Audit.auditedRow, hlimit, validatedRow_words hr, hsum, habs]
  rfl

/-- Within its tolerance a row's error is small. -/
theorem rowError_le (hrd : env.rd = .exact binary64)
    (hpass : ReadbackPasses env.rd p.isExact m (resultBits words)) {r : ℕ}
    (hr : r < m.shape.rows) :
    rowError m (resultBits words) r ≤ toleranceValue (.exact binary64) p.isExact (m.rowSum r)
        (m.rowAbsSum r) m.shape.cols := by
  obtain ⟨q, hq, hle⟩ := hpass.1 r hr
  rw [hrd] at hle
  rw [rowError, hq, FloatValue.toRat_finite]
  exact hle

/-- The printed row of a finite result over exact rationals. -/
theorem comparedRow_exact {exact : Bool} {s a q : ℚ} {width : ℕ} :
    comparedRow (.exact binary64) exact s a width (.finite q) =
      { actual := .finite q
        reference := .finite s
        absError := .finite |q - s|
        tolerance := .finite (toleranceValue (.exact binary64) exact s a width)
        scaledError := .finite (|q - s| / max a (2 ^ (-20 : ℤ)))
        finite := true
        pass := decide (|q - s| ≤ toleranceValue (.exact binary64) exact s a width) } := by
  have hmax : max a (2 ^ (-20 : ℤ)) ≠ 0 := by
    have : (0 : ℚ) < 2 ^ (-20 : ℤ) := by positivity
    exact (lt_max_of_lt_right this).ne'
  simp only [comparedRow, FloatValue.sub_finite, FloatValue.abs_finite, FloatValue.isFinite_finite,
    FloatValue.le_finite, FloatValue.div_finite _ _ hmax, Rounding.exact_round, Bool.true_and]

/-- The error of a row in units of its magnitude. -/
def scaledRowError (m : QuantizedMatrix) (bits : List Bf16Word) (r : ℕ) : ℚ :=
  rowError m bits r / max (m.rowAbsSum r) (2 ^ (-20 : ℤ))

/-- The tolerance of a row over exact rationals. -/
def exactTolerance (m : QuantizedMatrix) (p : Pattern) (r : ℕ) : ℚ :=
  toleranceValue (.exact binary64) p.isExact (m.rowSum r) (m.rowAbsSum r) m.shape.cols

private theorem rowError_nonneg (m : QuantizedMatrix) (bits : List Bf16Word) (r : ℕ) :
    0 ≤ rowError m bits r := abs_nonneg _

private theorem scaledRowError_nonneg (m : QuantizedMatrix) (bits : List Bf16Word) (r : ℕ) :
    0 ≤ scaledRowError m bits r :=
  div_nonneg (rowError_nonneg m bits r) (le_max_of_le_left (m.rowAbsSum_nonneg r))

/-- In units of its magnitude an error grows by at most `2 ^ 20`. -/
theorem scaledRowError_le (m : QuantizedMatrix) (bits : List Bf16Word) (r : ℕ) :
    scaledRowError m bits r ≤ rowError m bits r * 2 ^ 20 := by
  have hpos : (0 : ℚ) < 2 ^ (-20 : ℤ) := by positivity
  have hmax : (2 : ℚ) ^ (-20 : ℤ) ≤ max (m.rowAbsSum r) (2 ^ (-20 : ℤ)) := le_max_right _ _
  calc scaledRowError m bits r ≤ rowError m bits r / 2 ^ (-20 : ℤ) :=
        div_le_div_of_nonneg_left (rowError_nonneg m bits r) hpos hmax
    _ = rowError m bits r * 2 ^ 20 := by
        rw [zpow_neg, div_inv_eq_mul]
        norm_num

section Passed

variable (hrd : env.rd = .exact binary64)
  (hpass : ReadbackPasses env.rd p.isExact m (resultBits words))
include hrd hpass

/-- The rows of a passing record over exact rationals. -/
theorem launchRecord_rows_of_pass :
    (launchRecord env options i p.name prepared m p.isExact words).comparison.rows =
      (List.range m.shape.rows).map fun r =>
        { actual := .finite (bf16Value (outputWord (resultBits words) r 0)).toRat
          reference := .finite (m.rowSum r)
          absError := .finite (rowError m (resultBits words) r)
          tolerance := .finite (exactTolerance m p r)
          scaledError := .finite (scaledRowError m (resultBits words) r)
          finite := true
          pass := true } := by
  rw [launchRecord, emitResult, judgementOf_rows, judgedRows]
  refine List.map_congr_left fun r hr => ?_
  have hle := rowError_le hrd hpass (List.mem_range.mp hr)
  obtain ⟨q, hq, _⟩ := hpass.1 r (List.mem_range.mp hr)
  rw [rowError, hq, FloatValue.toRat_finite] at hle
  rw [hrd, hq, comparedRow_exact, decide_eq_true hle, scaledRowError, rowError, hq,
    FloatValue.toRat_finite]
  rfl

/-- The maxima of a passing record are those of its row errors. -/
theorem launchRecord_maxima_of_pass :
    (launchRecord env options i p.name prepared m p.isExact words).comparison.maxAbsError =
        .finite (((List.range m.shape.rows).map (rowError m (resultBits words))).foldl max 0) ∧
      (launchRecord env options i p.name prepared m p.isExact words).comparison.maxScaledError =
        .finite (((List.range m.shape.rows).map
          (scaledRowError m (resultBits words))).foldl max 0) := by
  have hrows := @launchRecord_rows_of_pass env options prepared i p m words hrd hpass
  rw [launchRecord, emitResult, judgementOf_rows] at hrows
  simp only [launchRecord, emitResult, judgementOf, hrows]
  exact foldl_push_max (fun r _ => ⟨rfl, rfl, rfl⟩) rfl rfl

/-- The errors of a passing record are small. -/
theorem rowError_le_of_pass {r : ℕ} (hr : r < m.shape.rows) :
    rowError m (resultBits words) r ≤ 2 ^ 9 :=
  (rowError_le hrd hpass hr).trans (toleranceValue_exact_le hr _)

omit hrd in
/-- All words of a passing readback are finite. -/
theorem isFinite_of_pass (hlen : (resultBits words).length = padded m.shape.rows * 32)
    {w : Bf16Word}
    (hw : w ∈ resultBits words) : (bf16Value w).isFinite = true := by
  obtain ⟨r, c, hr, hc, rfl⟩ := exists_outputWord_of_mem hlen hw
  by_cases hresult : r < m.shape.rows ∧ c = 0
  · obtain ⟨hr', rfl⟩ := hresult
    obtain ⟨q, hq, _⟩ := hpass.1 r hr'
    rw [hq]
    rfl
  · rw [isFinite_bf16Value_iff, hpass.2 r c hr hc hresult]
    norm_num

end Passed

/-- A printed list over the rows is read back as a vector. -/
theorem vectorOf_rows {rows : ℕ} {f : ℕ → ℚ}
    (h : ∀ r < rows, NumberOf (readNumber (.finite (f r))) (f r)) :
    VectorOf (Emitted.numbers ((List.range rows).map fun r => .finite (f r))).toJson rows
      ((List.range rows).map f) := by
  have hvector := @vectorOf_readNumber ((List.range rows).map f) fun q hq => by
    obtain ⟨r, hr, rfl⟩ := List.mem_map.mp hq
    exact h r (List.mem_range.mp hr)
  rwa [List.map_map, List.length_map, List.length_range] at hvector

/-- Over exact rationals the audit's checks hold of every printed record that passes. -/
theorem launchRecord_hostChecks (hrd : env.rd = .exact binary64)
    (hpass : ReadbackPasses env.rd p.isExact m (resultBits words))
    (hshape : options.shape = m.shape) (hrep : m.Represents prepared) (hpinned : env.Pinned)
    (hgenerated : Generated options p prepared)
    (hlen : (resultBits words).length = padded m.shape.rows * 32) {t : ℚ} (ht : 0 ≤ t)
    (hseconds : env.device.seconds i = .finite t) :
    Audit.HostChecks .exact
      (launchRecord env options i p.name prepared m p.isExact words).jsonFields m.shape.rows
      m.shape.cols p options.seed.toNat options.repeats i m.words (resultBits words)
      (columnValues m.shape.rows (resultBits words)) := by
  obtain ⟨hr0, hr1, hc0, hc1⟩ := m.valid
  set record := launchRecord env options i p.name prepared m p.isExact words with hrecord
  set bits := resultBits words with hbits
  have hrows := @launchRecord_rows_of_pass env options prepared i p m words hrd hpass
  obtain ⟨hmaxError, hmaxScaled⟩ :=
    @launchRecord_maxima_of_pass env options prepared i p m words hrd hpass
  rw [← hrecord] at hrows hmaxError hmaxScaled
  have hregenerated := hgenerated.regenerated
  rw [hshape, hrep.quantized] at hregenerated
  obtain ⟨hwords, hcontract⟩ := regenerated_spec hregenerated
  rw [Int.toNat_natCast, Int.toNat_natCast] at hwords
  -- every number of the record is exact or small
  have hactual : ∀ r < m.shape.rows, NumberOf
      (readNumber (.finite (bf16Value (outputWord bits r 0)).toRat))
      (bf16Value (outputWord bits r 0)).toRat := by
    intro r hr
    obtain ⟨q, hq, _⟩ := hpass.1 r hr
    exact numberOf_readNumber_of_representable (bf16Value_representable (by rw [hq]; rfl))
  have hsmall : ∀ {q : ℚ}, 0 ≤ q → q ≤ 2 ^ 29 → NumberOf (readNumber (.finite q)) q := by
    intro q h0 hq
    refine numberOf_readNumber_of_abs_lt ?_
    rw [abs_of_nonneg h0]
    linarith
  have herror : ∀ r < m.shape.rows,
      NumberOf (readNumber (.finite (rowError m bits r))) (rowError m bits r) := by
    intro r hr
    have := rowError_le_of_pass hrd hpass hr
    exact hsmall (rowError_nonneg m bits r) (by linarith)
  have hscaled : ∀ r < m.shape.rows,
      NumberOf (readNumber (.finite (scaledRowError m bits r))) (scaledRowError m bits r) := by
    intro r hr
    have := rowError_le_of_pass hrd hpass hr
    have := scaledRowError_le m bits r
    exact hsmall (scaledRowError_nonneg m bits r) (by linarith)
  have htolerance : ∀ r < m.shape.rows,
      NumberOf (readNumber (.finite (exactTolerance m p r))) (exactTolerance m p r) := by
    intro r hr
    have := toleranceValue_exact_le hr p.isExact
    have := rowError_le hrd hpass hr
    have := rowError_nonneg m bits r
    exact hsmall (by unfold exactTolerance; linarith) (by unfold exactTolerance; linarith)
  have hmaximum : ∀ {f : ℕ → ℚ}, (∀ r, 0 ≤ f r) →
      (∀ r < m.shape.rows, NumberOf (readNumber (.finite (f r))) (f r)) →
      Audit.Near .exact (readNumber (.finite (((List.range m.shape.rows).map f).foldl max 0)))
        (greatest ((List.range m.shape.rows).map f)) := by
    intro f hf hnumber
    have hne : (List.range m.shape.rows).map f ≠ [] := by
      simp only [ne_eq, List.map_eq_nil_iff, List.range_eq_nil]
      omega
    rw [foldl_max_zero hne fun q hq => by
      obtain ⟨r, _, rfl⟩ := List.mem_map.mp hq
      exact hf r]
    refine Audit.near_of_eq ?_ rfl
    obtain ⟨r, hr, heq⟩ := List.mem_map.mp (greatest_mem hne)
    rw [← heq]
    exact hnumber r (List.mem_range.mp hr)
  have haudited : Audit.auditedRows p m.shape.rows m.shape.cols m.words
      (columnValues m.shape.rows bits) = (List.range m.shape.rows).map fun r =>
        { sum := m.rowSum r, magnitude := m.rowAbsSum r, error := rowError m bits r,
          limit := exactTolerance m p r } := by
    refine List.map_congr_left fun r hr => ?_
    rw [getD_columnValues (List.mem_range.mp hr), auditedRow_words (List.mem_range.mp hr)]
    rfl
  have hget : ∀ {name : String} {value : Emitted}, record.fields.lookup name = some value →
      Json.get record.jsonFields name = value.toJson := ResultRecord.get_jsonFields
  exact {
    fields := by
      intro q hq
      simp only [Audit.hostFields, List.mem_cons, List.not_mem_nil, or_false] at hq
      rcases hq with rfl | rfl | rfl | rfl | rfl | rfl | rfl | rfl | rfl | rfl | rfl | rfl | rfl |
        rfl | rfl | rfl | rfl | rfl | rfl
      · exact congrArg (fun s : Shape => Json.int s.rows) hshape
      · exact congrArg (fun s : Shape => Json.int s.cols) hshape
      · rfl
      · rfl
      · rfl
      · rfl
      · rfl
      · rw [Audit.paddedExtent_natCast]
        exact congrArg (fun n : ℕ => Json.int n) hrep.paddedRows
      · rw [Audit.paddedExtent_natCast]
        exact congrArg (fun n : ℕ => Json.int n) hrep.paddedCols
      · exact congrArg Json.str (launchRecord_status_iff.mpr hpass)
      · exact congrArg Json.str (if_pos hpinned.simulator)
      · exact congrArg Json.str (if_pos hpinned.simulator)
      · exact congrArg Json.str hpinned.upstreamCommit
      · exact congrArg Json.bool (outputPaddingZero_eq_true_iff.mpr hpass.2)
      · exact congrArg Json.bool (launchRecord_exact.trans (exactPatterns_contains p).symm)
      · rfl
      · rfl
      · rfl
      · rfl
    commit := ⟨env.sourceCommit, rfl, hpinned.sourceCommit⟩
    input := by
      refine ⟨quantizedBitsHex prepared.quantized, rfl, fun c hc => ?_, ?_, ?_⟩
      · rw [quantizedBitsHex_toList] at hc
        exact isDigit_encode hc
      · rw [length_quantizedBitsHex, hrep.quantized]
      · rw [decode_quantizedBitsHex, hrep.quantized]
    inputLength := hwords
    contract := hcontract
    table := by
      intro hp
      have htable := regenerated_patternWord hp m.shape.rows m.shape.cols options.seed.toNat
      exact littleEndian_injective (Except.ok.inj (hregenerated.symm.trans htable))
    output := by
      refine ⟨quantizedBitsHex bits, rfl, fun c hc => ?_, ?_, ?_⟩
      · rw [quantizedBitsHex_toList] at hc
        exact isDigit_encode hc
      · rw [length_quantizedBitsHex]
      · rw [decode_quantizedBitsHex]
    outputLength := hlen
    finite := fun w hw => isFinite_of_pass hpass hlen hw
    padding := hpass.2
    results := by
      rw [hget rfl, hrows, List.map_map]
      exact vectorOf_rows hactual
    vectors := by
      refine ⟨(List.range m.shape.rows).map m.rowSum, (List.range m.shape.rows).map
        (rowError m bits), (List.range m.shape.rows).map (exactTolerance m p), ?_, ?_, ?_, ?_⟩
      · rw [hget rfl, hrows, List.map_map]
        exact vectorOf_rows fun r hr => numberOf_readNumber_of_representable
          (rowSum_representable hr)
      · rw [hget rfl, hrows, List.map_map]
        exact vectorOf_rows herror
      · rw [hget rfl, hrows, List.map_map]
        exact vectorOf_rows htolerance
      · intro r hr
        have hrow := auditedRow_words (p := p) hr (bf16Value (outputWord bits r 0)).toRat
        have hsum := congrArg Audit.AuditedRow.sum hrow
        have hdistance := congrArg Audit.AuditedRow.error hrow
        have hlimit := congrArg Audit.AuditedRow.limit hrow
        simp only [Audit.auditedRow] at hsum hdistance hlimit
        rw [getD_columnValues hr, getD_map_range hr, getD_map_range hr, getD_map_range hr]
        exact {
          readback := rfl
          reference := hsum.symm
          within := by
            rw [hdistance, hlimit]
            exact rowError_le hrd hpass hr
          error := by
            rw [hdistance]
            exact Audit.near_of_eq (.float _) rfl
          limit := by
            rw [hlimit]
            exact Audit.near_of_eq (.float _) rfl }
    gamma := by omega
    maxError := by
      rw [hget rfl, haudited, List.map_map]
      exact hmaxError ▸ hmaximum (rowError_nonneg m bits) herror
    maxScaled := by
      have hunit : (1 / 2 ^ 20 : ℚ) = 2 ^ (-20 : ℤ) := by norm_num
      have hscaledRow : ∀ r, Audit.AuditedRow.scaled ⟨m.rowSum r, m.rowAbsSum r, rowError m bits r,
          exactTolerance m p r⟩ = scaledRowError m bits r := by
        intro r
        rw [Audit.AuditedRow.scaled, hunit]
        rfl
      rw [hget rfl, haudited, List.map_map]
      simp only [Function.comp_def, hscaledRow]
      exact hmaxScaled ▸ hmaximum (scaledRowError_nonneg m bits) hscaled
    failedRows := by
      have hnone : record.comparison.failedRows = [] := by
        rw [Comparison.failedRows, hrows, List.length_map, List.length_range]
        refine List.filter_eq_nil_iff.mpr fun r hr => ?_
        rw [List.getElem?_map, List.getElem?_range (List.mem_range.mp hr)]
        simp
      rw [hget rfl, hnone]
      rfl
    wallTime := by
      rw [hget rfl]
      change ∃ t, NumberOf (readNumber (env.device.seconds i)) t ∧ 0 ≤ t
      rw [hseconds]
      exact exists_numberOf_readNumber ht }

end Audited

/-- The audit's checks hold of every passing record of a run on generated inputs, whose words are
those of its launch. -/
theorem run_hostChecks {env : HostEnv} {files : String → Option InputFile} {args : List String}
    {options : Options} {prepared : PreparedInput} {case : Case} {i : ℕ} {record : ResultRecord}
    {t : ℚ} (hup : env.upstream.UntilizeAgrees) (hrd : env.rd = .exact binary64)
    (hpinned : env.Pinned) (h : beforeDevice env files args = .ok (options, prepared))
    (hfile : options.inputFile = "") (hcase : options.Requests case)
    (hrecord : (run env options prepared).1[i]? = some record) (hpass : record.status = "pass")
    (ht : 0 ≤ t) (hseconds : env.device.seconds i = .finite t) :
    ∃ (p : Pattern) (input : PreparedInput) (outputs : List Bf16Word) (actual : List ℚ),
      inputSequence env options prepared i = .ok (p.name, input) ∧
      (i = 0 → p.name = options.pattern) ∧ Generated options p input ∧
      Audit.HostChecks .exact record.jsonFields options.shape.rows options.shape.cols p case.seed
        case.repeats i input.quantized outputs actual := by
  obtain ⟨p, input, m, words, hlaunched, hfirst, hgenerated, rfl⟩ :=
    run_generated hup h hfile hrecord
  have hshape := hlaunched.launchInput.shape
  have hrep := hlaunched.launchInput.represents
  have hchecks := launchRecord_hostChecks hrd (launchRecord_status_iff.mp hpass) hshape hrep
    hpinned hgenerated hlaunched.length_resultBits ht hseconds
  rw [← hshape, ← hrep.quantized, ← hcase.seed, ← hcase.repeats] at hchecks
  exact ⟨p, input, _, _, hlaunched.input, hfirst, hgenerated, hchecks⟩

/-- Of a generated input's record with finite results, the runner recomputes the host's results,
references, failed rows and padding; what the host passes, runner and auditor pass. -/
theorem main_hostAgreement {env : HostEnv} {files : String → Option InputFile} {args : List String}
    {options : Options} {prepared : PreparedInput} {case : Case} {i : ℕ} {record : ResultRecord}
    {t : ℚ} (hup : env.upstream.UntilizeAgrees) (hrd : env.rd = .exact binary64)
    (hpinned : env.Pinned) (h : beforeDevice env files args = .ok (options, prepared))
    (hfile : options.inputFile = "") (hcase : options.Requests case)
    (hrecord : (main env files args).records[i]? = some record)
    (hfinite : ∀ row ∈ record.comparison.rows, row.actual.isFinite = true)
    (ht : 0 ≤ t) (hseconds : record.executeWallSeconds = .finite t)
    (sha256 : List Byte → String) :
    ∃ v, validateResult .exact sha256 case i record.toJson = .ok v ∧
      v.actual.map .finite = record.comparison.rows.map RowComparison.actual ∧
      v.reference.map .finite = record.comparison.rows.map RowComparison.reference ∧
      v.failedRows = record.comparison.failedRows ∧ v.paddingZero = record.paddingZero ∧
      (record.status = "pass" → v.status = "pass" ∧
        ∃ audited, Audit.auditHost .exact sha256 record.jsonFields case.rows case.cols
          record.pattern case.seed case.repeats i = .ok audited) := by
  have hrun : (run env options prepared).1[i]? = some record := by
    rcases (main_records h).1 with hnil | hrun
    · simp [hnil] at hrecord
    · rwa [hrun] at hrecord
  obtain ⟨p, input, m, words, hlaunched, hfirst, hgenerated, rfl⟩ :=
    run_generated hup h hfile hrun
  have hshape := hlaunched.launchInput.shape
  have hrep := hlaunched.launchInput.represents
  have hlen := hlaunched.length_resultBits
  have hfinite' : ∀ r < m.shape.rows,
      (bf16Value (outputWord (resultBits words) r 0)).isFinite = true := by
    intro r hr
    have hmem : comparedRow env.rd p.isExact (m.rowSum r) (m.rowAbsSum r) m.shape.cols
        (bf16Value (outputWord (resultBits words) r 0)) ∈
        (launchRecord env options i p.name input m p.isExact words).comparison.rows := by
      rw [launchRecord, emitResult, judgementOf_rows]
      exact List.mem_map.mpr ⟨r, List.mem_range.mpr hr, rfl⟩
    have hrow := hfinite _ hmem
    simp only [comparedRow] at hrow
    exact hrow
  refine ⟨_, validateResult_eq_ok_iff.mpr ⟨_, p, _, m.words, _, _, rfl,
    launchRecord_checks hshape hfinite' hrep hpinned hcase hfirst hgenerated hlen, rfl⟩,
    (launchRecord_actual hfinite' _).symm, ?_,
    launchRecord_failedRows hshape hfinite' hcase (by rw [hrd]; rfl), rfl, ?_⟩
  · rw [launchRecord_reference]
    exact congrArg (List.map FloatValue.finite) (validatedRows_reference hshape hcase _)
  · intro hpass
    refine ⟨launchRecord_validated_pass hshape hfinite' hcase (by rw [hrd]; rfl) hpass, ?_⟩
    have hchecks := launchRecord_hostChecks hrd (launchRecord_status_iff.mp hpass) hshape hrep
      hpinned hgenerated hlen ht hseconds
    rw [hcase.rows, hcase.cols, hcase.seed, hcase.repeats, hshape]
    exact ⟨_, (Audit.auditHost_eq_ok_iff m.valid.1).mpr ⟨p, _, _, _, rfl, hchecks, rfl⟩⟩

/-- A device that writes zeros over its whole output. -/
def zeroDevice : Device :=
  { idleDevice with launch := fun _ _ output => .ok (List.replicate output.length 0) }

def zeroEnv : HostEnv where
  rd := .exact binary64
  upstream := projectUpstream
  device := zeroDevice
  upstreamCommit := metalCommit
  sourceCommit := "aaaaaaaaaaaaaaaaaaaaaaaaaaaaaaaaaaaaaaaa"
  simulator := true
  profiler := none

private theorem zeroEnv_pinned : zeroEnv.Pinned := ⟨rfl, rfl, by decide +kernel⟩

/-- The case of the zero pattern at the default size. -/
def zeroSquare : Case :=
  { caseId := "m32_n32_zero", rows := 32, cols := 32, pattern := "zero", seed := 1 }

def zeroOptions : Options := { pattern := "zero" }

private theorem outputWord_replicate_zero (n r c : ℕ) :
    outputWord (List.replicate n 0) r c = 0 := by
  rw [outputWord, List.getD_eq_getElem?_getD, List.getElem?_replicate]
  split_ifs <;> rfl

/-- The run on zeros prints one passing record of zeros. -/
theorem exists_zero_record : ∃ prepared record,
    beforeDevice zeroEnv (fun _ => none) ["--pattern", "zero"] = .ok (zeroOptions, prepared) ∧
      (main zeroEnv (fun _ => none) ["--pattern", "zero"]).records[0]? = some record ∧
      (∀ row ∈ record.comparison.rows, row.actual.isFinite = true) ∧
      record.executeWallSeconds = .finite 0 ∧ record.status = "pass" ∧ record.pattern = "zero" := by
  obtain ⟨values, hmake, haccept, _⟩ := @generated_agrees ⟨32, 32⟩ (by decide) .zero 1
  obtain ⟨prepared, _, hrep⟩ := prepareInput_eq_ok (.exact binary64) haccept
  have h : beforeDevice zeroEnv (fun _ => none) ["--pattern", "zero"] =
      .ok (zeroOptions, prepared) :=
    (beforeDevice_eq_ok_iff projectUpstream_uploadAgrees).mpr
      ⟨rfl, rfl, by simp [zeroOptions], values, hmake, haccept, hrep⟩
  have hquiet : zeroEnv.device.Quiet (padded zeroOptions.shape.rows / 32) :=
    ⟨rfl, rfl, fun _ _ output hlen => ⟨_, rfl, by rw [List.length_replicate, hlen]⟩, fun _ => rfl⟩
  obtain ⟨hrecords, hpass⟩ := run_spec projectUpstream_untilizeAgrees h
  obtain ⟨pass, hok⟩ := (run_quiet projectUpstream_untilizeAgrees h hquiet).2
    projectUpstream_uploadAgrees
  obtain ⟨record, hrecord⟩ : ∃ record, (run zeroEnv zeroOptions prepared).1[0]? = some record := by
    have hlen : (run zeroEnv zeroOptions prepared).1.length = 1 := (hpass pass hok).1
    exact ⟨_, List.getElem?_eq_getElem (by omega)⟩
  obtain ⟨pattern, input, m, exact, words, hlaunched, rfl⟩ := hrecords 0 record hrecord
  obtain ⟨rfl, rfl⟩ := Prod.mk.inj (Except.ok.inj hlaunched.input)
  have hexact : exact = true := Except.ok.inj (hlaunched.launchInput.exact.symm.trans rfl)
  have hgenerated : Generated zeroOptions .zero prepared :=
    ⟨values, hmake, by rw [hrep.quantized, words_quantize]⟩
  have hword : ∀ r c, outputWord (resultBits words) r c = 0 := by
    intro r c
    obtain ⟨_, _, hwords⟩ := hlaunched.readback
    rw [← Except.ok.inj hwords, resultBits_replicate_zero, outputWord_replicate_zero]
  refine ⟨prepared, _, h, by rw [(main_records h).2 rfl]; exact hrecord, ?_, rfl, ?_, rfl⟩
  · intro row hrow
    rw [launchRecord, emitResult, judgementOf_rows] at hrow
    obtain ⟨r, _, rfl⟩ := List.mem_map.mp hrow
    rw [hword, bf16Value_zero]
    rfl
  · rw [launchRecord_status_iff]
    refine ⟨fun r hr => ⟨0, by rw [hword, bf16Value_zero], ?_⟩, fun r c _ _ _ => by rw [hword]; rfl⟩
    rw [hgenerated.rowSum_eq rfl hlaunched.launchInput.shape hlaunched.launchInput.represents hr,
      hexact]
    simp [patternSum, toleranceValue]

/-- The record of a run on zeros, passed by the runner and accepted by the auditor. -/
theorem main_hostAgreement_zero : ∃ record v,
    (main zeroEnv (fun _ => none) ["--pattern", "zero"]).records[0]? = some record ∧
      validateResult .exact (fun _ => "") zeroSquare 0 record.toJson = .ok v ∧ v.status = "pass" ∧
      ∃ audited, Audit.auditHost .exact (fun _ => "") record.jsonFields 32 32 record.pattern 1 1 0 =
        .ok audited := by
  obtain ⟨prepared, record, h, hrecord, hfinite, hseconds, hpass, _⟩ := exists_zero_record
  obtain ⟨v, hv, _, _, _, _, hpassed⟩ := @main_hostAgreement zeroEnv (fun _ => none) _ zeroOptions
    prepared zeroSquare 0 record 0 projectUpstream_untilizeAgrees rfl zeroEnv_pinned h rfl
    ⟨rfl, rfl, rfl, rfl, rfl⟩ hrecord hfinite le_rfl hseconds (fun _ => "")
  exact ⟨record, v, hrecord, hv, (hpassed hpass).1, (hpassed hpass).2⟩

end RowReduce
