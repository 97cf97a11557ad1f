import RowReduce.Correctness.RepeatCase

/-!
# The evidence in a passing case

A case the runner records as passed is evidence of its launches, one record of the
host for each.
-/

namespace RowReduce

open BinaryFloat Fallible Grid Hexadecimal

variable {env : RunnerEnv} {child : ChildRun} {case : Case}

/-- A case recorded as passed: one exit code, one commit, the right number of records in order,
distinct inputs, and the evidence of every record. -/
theorem runCase_pass {stdout : List Byte} {record : CaseRecord} (hexact : env.fr = .exact)
    (hout : child.stdout = some stdout) (h : runCase env case child = .ok record)
    (hpass : record.status = some "pass")
    (hhex : ∀ entries, EntriesOf env stdout entries → ∀ result ∈ entries, HexOnly result) :
    ∃ exit entries commit, ∃ uploads : List (List Bf16Word),
      child.exit = .ok exit ∧ exit.timedOut = false ∧ exit.code = 0 ∧
      EntriesOf env stdout entries ∧ (entries.length : ℤ) = case.repeats ∧
      isCommit commit = true ∧ uploads.length = entries.length ∧
      (1 < case.repeats → (uploads.map littleEndian).Nodup) ∧
      ∀ i result, entries[i]? = some result → ∃ fields p inputs outputs,
        result = .dict fields ∧ uploads[i]? = some inputs ∧
        PassingRecord case i commit fields p inputs outputs := by
  obtain ⟨exit, entries, executions, hexit, htimeout, hcode, hentries, hcount, hvalid, hcommits,
    hdistinct, hstatus⟩ := (runCase_pass_iff hout).mp ⟨record, h, hpass⟩
  have hvalid' := List.forall₂_iff_get.mp (mapM_eq_ok_iff.mp hvalid)
  have hlen : executions.length = entries.length := by simpa using hvalid'.1.symm
  obtain ⟨commit, hne, hcommit⟩ := dedup_length_eq_one_iff.mp hcommits
  -- the evidence of the entry at each index
  have hevidence : ∀ i (hi : i < entries.length), ∃ fields p inputs outputs,
      entries[i] = .dict fields ∧ PassingRecord case i commit fields p inputs outputs ∧
        isCommit commit = true ∧
        (executions.get ⟨i, hlen ▸ hi⟩).inputSha256 = env.sha256 (littleEndian inputs) := by
    intro i hi
    have hi' : i < executions.length := hlen ▸ hi
    have hresult := hvalid'.2 i (by simpa using hi) hi'
    simp only [List.get_eq_getElem, List.getElem_range] at hresult ⊢
    rw [List.getD_eq_getElem?_getD, List.getElem?_eq_getElem hi, Option.getD_some, hexact]
      at hresult
    obtain ⟨fields, p, commit', words, actual, padding, hfields, hchecks, hv⟩ :=
      validateResult_eq_ok_iff.mp hresult
    have hmem : executions[i] ∈ executions := List.getElem_mem _
    have hpass' := hstatus _ hmem
    have hsame := hcommit _ (List.mem_map.mpr ⟨_, hmem, rfl⟩)
    rw [hv] at hpass' hsame
    obtain rfl : commit' = commit := hsame
    have hdigits := hhex entries hentries _ (List.getElem_mem hi)
    rw [hfields] at hdigits
    obtain ⟨outputs, hrecord⟩ := passingRecord_of_checks hchecks hdigits hpass'
    exact ⟨fields, p, words, outputs, hfields, hrecord, hchecks.header.isCommit, by rw [hv]; rfl⟩
  choose! fields p inputs outputs hfields hrecord hhexCommit hhash using hevidence
  have hpos : 0 < entries.length := by
    rw [← hlen]
    refine List.length_pos_of_ne_nil ?_
    rintro rfl
    exact hne rfl
  have hhashes : executions.map Validated.inputSha256 =
      (((List.range entries.length).map inputs).map littleEndian).map env.sha256 := by
    apply List.ext_getElem
    · simp [hlen]
    · intro i hi hi'
      have hi'' : i < entries.length := by simpa using hi'
      simpa using hhash i hi''
  refine ⟨exit, entries, commit, (List.range entries.length).map inputs, hexit, htimeout, hcode,
    hentries, hcount, hhexCommit 0 hpos, by simp, ?_, ?_⟩
  · intro hmany
    have hnodup := hdistinct hmany
    rw [← hcount, ← hlen, Nat.cast_inj, hhashes] at hnodup
    refine List.Nodup.of_map env.sha256 (dedup_length_eq_iff.mp (hnodup.trans ?_))
    simp [hlen]
  · intro i result hi
    obtain ⟨hlt, rfl⟩ := List.getElem?_eq_some_iff.mp hi
    exact ⟨fields i, p i hlt, inputs i, outputs i, hfields i hlt, by simp [hlt], hrecord i hlt⟩

/-- The hexadecimal fields of a launch's record are digits. -/
theorem launchRecord_hexOnly {host : HostEnv} {options : Options} {i : ℕ} {pattern : String}
    {input : PreparedInput} {m : QuantizedMatrix} {exact : Bool} {words : List Word32} :
    HexOnly (launchRecord host options i pattern input m exact words).toJson := by
  have hdigits :
      ∀ bits : List Bf16Word, ∀ c ∈ (quantizedBitsHex bits).toList, isDigit c = true := by
    intro bits c hc
    rw [quantizedBitsHex_toList] at hc
    exact isDigit_encode hc
  intro fields hfields name hname text htext
  obtain rfl := Json.dict.inj hfields
  simp only [List.mem_cons, List.not_mem_nil, or_false] at hname
  rcases hname with rfl | rfl
  · have hbits := @ResultRecord.get_jsonFields (launchRecord host options i pattern input m exact
      words) "quantized_bits_hex" _ rfl
    obtain rfl := Json.str.inj (hbits.symm.trans htext)
    exact hdigits _
  · have hbits := @ResultRecord.get_jsonFields (launchRecord host options i pattern input m exact
      words) "output_tiled_bits_hex" _ rfl
    obtain rfl := Json.str.inj (hbits.symm.trans htext)
    exact hdigits _

/-- So are those of whatever is read from what the host of a case prints. -/
theorem Case.Valid.hexOnly_of_stdout {host : HostEnv} {files : String → Option InputFile}
    {maxDigits : Option ℕ} {digits : ℚ → String} {log : List Byte} (hcase : case.Valid)
    (hup : host.upstream.UntilizeAgrees) (hpinned : host.Pinned) (hlimit : DigitLimit maxDigits)
    (hjson : ∀ text value, jsonLoads maxDigits text = some value → env.jsonLoads text = .ok value)
    (hdigits : ∀ record ∈ (main host files (case.command host.profiler)).records,
      record.Readable maxDigits digits)
    (hexit : (main host files (case.command host.profiler)).exitCode = 0)
    (hlog : env.readText log =
      String.ofList ((main host files (case.command host.profiler)).stdout digits)) :
    ∀ entries, EntriesOf env log entries → ∀ result ∈ entries, HexOnly result := by
  intro entries hentries result hresult
  obtain rfl := hentries.unique
    (hcase.entriesOf_stdout hup hpinned hlimit hjson hdigits hexit hlog)
  obtain ⟨record, hmem, rfl⟩ := List.mem_map.mp hresult
  obtain ⟨i, p, input, m, words, rfl, _⟩ := hcase.exists_launchRecord hup hexit hmem
  exact launchRecord_hexOnly

/-- Two rows of three small integers, launched twice. -/
def integersCase : Case :=
  { caseId := "m2_n3_small_integers", rows := 2, cols := 3, pattern := "small_integers", seed := 7,
    repeats := 2 }

private theorem integersCase_valid : integersCase.Valid where
  rows := by norm_num [integersCase]
  cols := by norm_num [integersCase]
  pattern := mem_runnerPatterns.mpr ⟨.smallIntegers, rfl⟩
  seed := by norm_num [integersCase]
  repeats := by norm_num [integersCase]

/-- The runner over exact rationals. -/
def exactRunner : RunnerEnv := { cellRunner with fr := .exact }

private theorem exactRunner_jsonLoads (text : String) (value : Json)
    (h : jsonLoads (some 4300) text = some value) :
    exactRunner.jsonLoads text = .ok value :=
  cellRunner_jsonLoads text value h

/-- What its host prints of both launches. -/
def integersResult : MainResult :=
  main (kernelHost (.exact binary64) integersCase) (fun _ => none) (integersCase.command none)

private theorem integersResult_exitCode : integersResult.exitCode = 0 :=
  let ⟨_, _, _, _, hexit, _⟩ := exists_kernelHost_run (.exact binary64) integersCase_valid
  hexit

/-- Its records read back. -/
theorem integersResult_readable :
    ∀ record ∈ integersResult.records, record.Readable (some 4300) doubleDigits :=
  kernelHost_exact_readable digitLimit_default (q := .smallIntegers) integersCase_valid rfl rfl

/-- Both launches of small integers and of ones, recorded as passed, are evidence of distinct
inputs and their row sums. -/
theorem runCase_pass_integers :
    ∃ (record : CaseRecord) (entries : List Json) (commit : String)
      (uploads : List (List Bf16Word)),
      runCase exactRunner integersCase (finishedChild integersResult) = .ok record ∧
      record.status = some "pass" ∧ entries.length = 2 ∧ uploads.length = 2 ∧
      (uploads.map littleEndian).Nodup ∧
      ∀ i result, entries[i]? = some result → ∃ fields p inputs outputs,
        result = .dict fields ∧ uploads[i]? = some inputs ∧
        PassingRecord integersCase i commit fields p inputs outputs := by
  have hvalid := integersCase_valid
  have hup : (kernelHost (.exact binary64) integersCase).upstream.UntilizeAgrees :=
    projectUpstream_untilizeAgrees
  have hpinned := kernelHost_pinned (.exact binary64) integersCase
  have hhash : ∀ a ∈ integersCase.uploads, ∀ b ∈ integersCase.uploads,
      exactRunner.sha256 (littleEndian a) = exactRunner.sha256 (littleEndian b) → a = b := by
    decide +kernel
  have hchild := runOf_finishedChild (show exactRunner.readText = utf8Text from rfl) integersResult
  obtain ⟨record, hrecord, hpass⟩ := (runCase_repeats_iff hvalid hup hpinned rfl
    digitLimit_default exactRunner_jsonLoads integersResult_readable hhash hchild
    integersResult_exitCode).mpr
    (Or.inl le_rfl)
  obtain ⟨log, hlog, htext⟩ := hchild.stdout
  have hhex := hvalid.hexOnly_of_stdout hup hpinned digitLimit_default exactRunner_jsonLoads
    integersResult_readable integersResult_exitCode htext
  obtain ⟨_, entries, commit, uploads, _, _, _, _, hcount, _, hlength, hnodup, hevidence⟩ :=
    runCase_pass rfl hlog hrecord hpass hhex
  have htwo : entries.length = 2 := by
    rw [← Nat.cast_inj (R := ℤ), hcount]
    rfl
  exact ⟨record, entries, commit, uploads, hrecord, hpass, htwo, hlength.trans htwo,
    hnodup (by decide), hevidence⟩

end RowReduce
