import RowReduce.Correctness.HostAgreement
import RowReduce.Correctness.KernelCase

/-!
# The auditor refines the runner

The two validators share no code. What the auditor accepts the runner accepts
too, as passed and with the same recomputed values.
-/

namespace RowReduce.Audit

open BinaryFloat Fallible Grid Hexadecimal

section Refinement

variable {fr : FloatReading} {fields : List (String × Json)} {case : Case} {index : ℕ}
  {p : Pattern} {inputs outputs : List Bf16Word} {actual : List ℚ} {rows cols : ℕ}

/-- The typed fields of the audit satisfy the runner's header. -/
theorem HostChecks.header (h : HostChecks fr fields rows cols p case.seed case.repeats index inputs
      outputs actual) (hrows : case.rows = rows) (hcols : case.cols = cols)
    (hfirst : index = 0 → p.name = case.pattern) {commit : String}
    (hcommit : Json.get fields "compiled_source_commit" = .str commit)
    (hhex : isCommit commit = true) : HeaderMatches fields case index p commit := by
  have hget : ∀ name expected, (name, expected) ∈ hostFields rows cols p.name case.seed case.repeats
      index → Json.get fields name = expected := fun name expected hmem => h.fields _ hmem
  exact {
    rows := by rw [hget "rows" (.int rows) (by simp [hostFields]), hrows]; simp
    cols := by rw [hget "cols" (.int cols) (by simp [hostFields]), hcols]; simp
    repeatIndex := by rw [hget "repeat_index" (.int index) (by simp [hostFields])]; simp
    pattern := hget _ _ (by simp [hostFields])
    first := hfirst
    seed := by rw [hget "seed" (.int case.seed) (by simp [hostFields])]; simp
    backend := hget _ _ (by simp [hostFields])
    stage := hget _ _ (by simp [hostFields])
    sourceCommit := hcommit
    isCommit := hhex
    nodes := by rw [hget "nodes" (.int 1) (by simp [hostFields])]; rfl
    repeatCount := by rw [hget "repeat_count" (.int case.repeats) (by simp [hostFields])]; simp
    upstream := hget _ (.str metal) (by simp [hostFields])
    inputEncoding := hget _ _ (by simp [hostFields])
    outputEncoding := hget _ _ (by simp [hostFields])
    layoutVerified := by
      rw [hget "input_layout_verified_against_upstream" (.bool true) (by simp [hostFields])]; rfl
    quantizationVerified := by
      rw [hget "input_quantization_verified_against_upstream" (.bool true) (by simp [hostFields])]
      rfl }

/-- The checks of the audit are those of the runner on a regenerated input. -/
theorem HostChecks.resultChecks (h : HostChecks fr fields rows cols p case.seed case.repeats index
      inputs outputs actual) (h0 : 0 < rows) (hrows : case.rows = rows) (hcols : case.cols = cols)
    (hfirst : index = 0 → p.name = case.pattern)
    (hregenerated : expectedInputBytes case.rows case.cols p.name case.seed =
      .ok (littleEndian inputs)) :
    ∃ commit, ResultChecks .exact case index fields p commit inputs actual true := by
  obtain ⟨commit, hcommit, hhex⟩ := h.commit
  obtain ⟨inputText, hinput, _, hinputLength, hinputDecode⟩ := h.input
  obtain ⟨outputText, houtput, _, houtputLength, houtputDecode⟩ := h.output
  obtain ⟨refs, _, _, hrefs, _, _, hchecks⟩ := h.vectors
  have hget : ∀ name expected, (name, expected) ∈ hostFields rows cols p.name case.seed case.repeats
      index → Json.get fields name = expected := fun name expected hmem => h.fields _ hmem
  refine ⟨commit, h.header hrows hcols hfirst hcommit hhex, ⟨⟨inputText, hinput, ?_, hinputDecode⟩,
    hregenerated⟩, hrows ▸ h.results, ?_, ⟨refs, hrows ▸ hrefs, ?_⟩, ?_, ⟨rfl, hcols ▸ h.gamma⟩,
    Or.inl (hget _ _ (by simp [hostFields])), by omega⟩
  · rw [hinputLength, h.inputLength, hrows, hcols]
    push_cast
    ring
  · rw [houtput, hrows, decodeOutputBits_eq_ok_iff h.outputLength ?_ houtputDecode]
    · refine ⟨fun r hr => ?_, (outputPaddingZero_eq_true_iff.mpr h.padding).symm⟩
      have hreadback := Option.some.inj (hchecks r hr).readback
      have hfinite := h.finite _ (outputWord_mem h.outputLength (hr.trans_le (le_padded rows))
        (by norm_num : 0 < 32))
      rw [FloatValue.eq_finite_toRat hfinite, hreadback]
    · rw [houtputLength, h.outputLength]
      push_cast
      ring
  · intro r hr
    rw [hrows, Int.toNat_natCast] at hr
    rw [(hchecks r hr).reference, hcols]
    rfl
  · rw [hget "exact" (.bool (exact.contains p.name)) (by simp [hostFields])]
    exact congrArg Json.bool (exactPatterns_contains p)

/-- The words of an accepted record are the regenerated ones; of random ones this is assumed. -/
theorem HostChecks.regenerated (h : HostChecks fr fields rows cols p case.seed case.repeats index
      inputs outputs actual) (hrows : case.rows = rows) (hcols : case.cols = cols)
    (hrandom : p = .random → ∃ text bytes, Json.get fields "quantized_bits_hex" = .str text ∧
      fromHex text = .ok bytes ∧
      expectedInputBytes case.rows case.cols p.name case.seed = .ok bytes) :
    expectedInputBytes case.rows case.cols p.name case.seed = .ok (littleEndian inputs) := by
  by_cases hp : p = .random
  · obtain ⟨text, bytes, htext, hbytes, hexpected⟩ := hrandom hp
    obtain ⟨text', htext', _, _, hdecode⟩ := h.input
    obtain rfl := Json.str.inj (htext.symm.trans htext')
    obtain rfl := Option.some.inj ((fromHex_eq_ok_iff.mp hbytes).symm.trans hdecode)
    exact hexpected
  · rw [regenerated_patternWord hp, hrows, hcols, Int.toNat_natCast, Int.toNat_natCast,
      ← h.table hp]

/-- A recomputed row as the auditor calculates it. -/
def auditedRowOf (row : ValidatedRow) : AuditedRow :=
  ⟨row.reference, row.absSum, row.error, row.tolerance⟩

/-- Over exact rationals the two calculations of a row agree. -/
theorem auditedRow_eq (p : Pattern) {cols : ℤ} (hcols : cols ≠ 2 ^ 24 - 64) (values : List ℚ)
    (q : ℚ) : auditedRow p cols values q =
      auditedRowOf (validatedRow .exact p.isExact (gammaOf .exact cols) values q) := by
  rw [auditedRow, rowLimit_eq p hcols]
  rfl

/-- In units of its magnitude too. -/
theorem scaled_auditedRowOf (row : ValidatedRow) :
    (auditedRowOf row).scaled = scaledError .exact row := by
  have hunit : (1 / 2 ^ 20 : ℚ) = 2 ^ (-20 : ℤ) := by norm_num
  rw [AuditedRow.scaled, hunit]
  rfl

/-- The recorded values are the audited ones. -/
structure Agrees (v : Validated) (a : Audited) : Prop where
  inputSha256 : v.inputSha256 = a.inputSha256
  outputSha256 : v.outputSha256 = a.outputSha256
  actual : v.actual = a.actual
  reference : v.reference = a.reference
  absSums : v.absSums = a.absSums
  absErrors : v.absErrors = a.absErrors
  tolerances : v.tolerances = a.tolerances
  maxAbsError : v.maxAbsError = a.maxAbsError
  maxScaledError : v.maxScaledError = a.maxScaledError

/-- What the runner records of an accepted record agrees with what the auditor returns. -/
theorem HostChecks.agrees (h : HostChecks fr fields rows cols p case.seed case.repeats index inputs
      outputs actual) (hrows : case.rows = rows) (hcols : case.cols = cols)
    (sha256 : List Byte → String) (commit : String) :
    Agrees (validatedOf .exact sha256 case index fields p commit inputs actual true)
      (auditedOf sha256 rows cols p inputs outputs actual) := by
  obtain ⟨outputText, houtput, _, _, hdecode⟩ := h.output
  have hrowsEq : auditedRows p rows cols inputs actual =
      (validatedRows .exact case p inputs actual).map auditedRowOf := by
    rw [auditedRows, validatedRows, List.map_map, hrows, hcols, Int.toNat_natCast]
    exact List.map_congr_left fun r _ => auditedRow_eq p h.gamma _ _
  have hmap : ∀ f : AuditedRow → ℚ, (auditedRows p rows cols inputs actual).map f =
      (validatedRows .exact case p inputs actual).map fun row => f (auditedRowOf row) := by
    intro f
    rw [hrowsEq, List.map_map]
    rfl
  have hscaled : (fun row => (auditedRowOf row).scaled) = scaledError .exact :=
    funext scaled_auditedRowOf
  exact {
    inputSha256 := rfl
    outputSha256 := by
      simp only [validatedOf, auditedOf, houtput, Json.text, hdecode, Option.getD_some]
    actual := rfl
    reference := (hmap AuditedRow.sum).symm
    absSums := (hmap AuditedRow.magnitude).symm
    absErrors := (hmap AuditedRow.error).symm
    tolerances := (hmap AuditedRow.limit).symm
    maxAbsError := congrArg greatest (hmap AuditedRow.error).symm
    maxScaledError := by
      simp only [validatedOf, auditedOf, hmap, hscaled] }

/-- Every row of an accepted record is inside the recomputed tolerance. -/
theorem HostChecks.failed_eq_false (h : HostChecks fr fields rows cols p case.seed case.repeats
      index inputs outputs actual) (hrows : case.rows = rows) (hcols : case.cols = cols) :
    ∀ row ∈ validatedRows .exact case p inputs actual, row.failed = false := by
  obtain ⟨_, _, _, _, _, _, hall⟩ := h.vectors
  intro row hrow
  obtain ⟨r, hr, rfl⟩ := List.mem_map.mp hrow
  rw [List.mem_range, hrows, Int.toNat_natCast] at hr
  rw [validatedRow_exact, hcols, ← rowLimit_eq p h.gamma]
  exact (hall r hr).within

/-- What the runner records of it has passed. -/
theorem HostChecks.validated_pass (h : HostChecks fr fields rows cols p case.seed case.repeats index
      inputs outputs actual) (hrows : case.rows = rows) (hcols : case.cols = cols)
    (sha256 : List Byte → String) (commit : String) :
    (validatedOf .exact sha256 case index fields p commit inputs actual true).status = "pass" :=
  validatedOf_status_iff.mpr ⟨h.failed_eq_false hrows hcols,
    h.fields ("status", .str "pass") (by simp [hostFields]), rfl,
    h.fields ("padding_zero", .bool true) (by simp [hostFields])⟩

end Refinement

/-- A record the auditor accepts is validated by the runner as passed, with the same results,
sums, absolute sums and tolerances. -/
theorem auditHost_refines {fr : FloatReading} {sha256 : List Byte → String}
    {fields : List (String × Json)} {case : Case} {pattern : String} {index : ℕ} {audited : Audited}
    (h : auditHost fr sha256 fields case.rows case.cols pattern case.seed case.repeats index =
      .ok audited)
    (hrows : 1 ≤ case.rows) (hcols : 1 ≤ case.cols) (hfirst : index = 0 → pattern = case.pattern)
    (hrandom : pattern = "random" → ∃ text bytes,
      Json.get fields "quantized_bits_hex" = .str text ∧ fromHex text = .ok bytes ∧
      expectedInputBytes case.rows case.cols pattern case.seed = .ok bytes) :
    ∃ v, validateResult .exact sha256 case index (.dict fields) = .ok v ∧ v.status = "pass" ∧
      v.actual = audited.actual ∧ v.reference = audited.reference ∧
      v.absSums = audited.absSums ∧ v.tolerances = audited.tolerances := by
  obtain ⟨rows, hrows'⟩ : ∃ rows : ℕ, case.rows = rows := ⟨case.rows.toNat, by omega⟩
  obtain ⟨cols, hcols'⟩ : ∃ cols : ℕ, case.cols = cols := ⟨case.cols.toNat, by omega⟩
  have h0 : 0 < rows := by omega
  rw [hrows', hcols'] at h
  obtain ⟨p, inputs, outputs, actual, rfl, hchecks, rfl⟩ := (auditHost_eq_ok_iff h0).mp h
  have hregenerated := hchecks.regenerated hrows' hcols' fun hp => hrandom (by rw [hp]; rfl)
  obtain ⟨commit, hresult⟩ := hchecks.resultChecks h0 hrows' hcols' hfirst hregenerated
  have hagrees := hchecks.agrees hrows' hcols' sha256 commit
  exact ⟨_, validateResult_eq_ok_iff.mpr ⟨fields, p, commit, inputs, actual, true, rfl,
    hresult, rfl⟩,
    hchecks.validated_pass hrows' hcols' sha256 commit, hagrees.actual, hagrees.reference,
    hagrees.absSums, hagrees.tolerances⟩

/-- Two rows of three random numbers, launched three times. -/
def randomCase : Case :=
  { caseId := "m2_n3_random", rows := 2, cols := 3, pattern := "random", seed := 7, repeats := 3 }

/-- The case is one of the matrix's kind. -/
theorem randomCase_valid : randomCase.Valid where
  rows := by norm_num [randomCase]
  cols := by norm_num [randomCase]
  pattern := mem_runnerPatterns.mpr ⟨.random, rfl⟩
  seed := by norm_num [randomCase]
  repeats := by norm_num [randomCase]

/-- The first record of the case from the kernels, accepted by the auditor and validated by the
runner as passed. -/
theorem auditHost_refines_random : ∃ record audited v,
    (RowReduce.main (kernelHost (.exact binary64) randomCase) (fun _ => none)
      (randomCase.command none)).records[0]? = some record ∧
    auditHost .exact (fun _ => "") record.jsonFields 2 3 "random" 7 3 0 = .ok audited ∧
    validateResult .exact (fun _ => "") randomCase 0 record.toJson = .ok v ∧ v.status = "pass" ∧
    v.reference = audited.reference := by
  obtain ⟨first, hbefore, _, hmain, _, hlength, hpass⟩ :=
    exists_kernelHost_run (.exact binary64) randomCase_valid
  obtain ⟨record, hrecord⟩ : ∃ record, (run (kernelHost (.exact binary64) randomCase)
      (randomCase.options none) first).1[0]? = some record :=
    ⟨_, List.getElem?_eq_getElem (by rw [hlength]; decide)⟩
  obtain ⟨p, input, outputs, actual, _, hfirst, hgenerated, hchecks⟩ := run_hostChecks
    projectUpstream_untilizeAgrees rfl (kernelHost_pinned _ _) hbefore rfl
    (randomCase_valid.requests none) hrecord (hpass record (List.mem_of_getElem? hrecord))
      le_rfl rfl
  obtain rfl : p = .random := Pattern.name_injective (hfirst rfl)
  obtain ⟨text, htext, _, _, hdecode⟩ := hchecks.input
  have haudited := (@auditHost_eq_ok_iff .exact (fun _ => "") record.jsonFields 2 3 (by norm_num)
    "random" 7 3 0 _).mpr ⟨.random, _, _, _, rfl, hchecks, rfl⟩
  obtain ⟨v, hv, hstatus, _, hreference, _, _⟩ := @auditHost_refines .exact (fun _ => "")
    record.jsonFields randomCase "random" 0 _ haudited (by norm_num [randomCase])
    (by norm_num [randomCase]) (fun _ => rfl)
    (fun _ => ⟨text, _, htext, fromHex_eq_ok_iff.mpr hdecode, hgenerated.regenerated⟩)
  exact ⟨record, _, v, hmain ▸ hrecord, haudited, hv, hstatus, hreference⟩

end RowReduce.Audit
