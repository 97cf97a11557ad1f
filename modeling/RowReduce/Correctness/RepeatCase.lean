import RowReduce.Core.Alternation
import RowReduce.Correctness.DoubleRecord
import RowReduce.Correctness.RepeatRun
import RowReduce.Correctness.RunnerPass

/-!
# Repeated runs before the runner

After its first input a run uploads ones and zeros in turn, while the runner
wants all uploads of a case to differ. Three launches are the most it can pass.
-/

namespace RowReduce

open Alternation BinaryFloat Fallible Grid Hexadecimal

section Inputs

variable {env : HostEnv} {files : String → Option InputFile} {args : List String}
  {options : Options} {first prepared : PreparedInput} {pattern : String}

/-- A prepared input has one word for each element. -/
theorem QuantizedMatrix.Represents.length_quantized {m : QuantizedMatrix}
    (hrep : m.Represents prepared) : prepared.quantized.length = m.shape.rows * m.shape.cols := by
  rw [hrep.quantized, QuantizedMatrix.words, List.length_map, length_positions]

variable (h : beforeDevice env files args = .ok (options, first))

include h

/-- So has each later input. -/
theorem inputSequence_length {i : ℕ}
    (hinput : inputSequence env options first i = .ok (pattern, prepared)) :
    prepared.quantized.length = options.shape.rows * options.shape.cols := by
  obtain ⟨m, hshape, hrep⟩ := inputSequence_represented h hinput
  rw [hrep.length_quantized, hshape]

/-- Each input follows from the words of the one before. -/
theorem nextInput_quantized {previous : PreparedInput} {n : ℕ}
    (hlen : previous.quantized.length = n)
    (hn : n = options.shape.rows * options.shape.cols)
    (hnext : nextInput env options previous = .ok (pattern, prepared)) :
    prepared.quantized =
      alternate (List.replicate n 0x3f80#16) (List.replicate n 0) previous.quantized := by
  obtain ⟨p, hp, _, hgenerated, m, hshape, hrep⟩ := nextInput_generated h hnext
  have hlen' : prepared.quantized.length = n := by rw [hrep.length_quantized, hshape, hn]
  have hconstant : ∀ {w : Bf16Word}, (∀ rows cols : ℤ, ∀ r c : ℕ, patternWord rows cols r c p = w) →
      prepared.quantized = List.replicate n w := by
    intro w hw
    refine List.eq_replicate_iff.mpr ⟨hlen', ?_⟩
    exact hgenerated.quantized_eq (by rw [hp]; split_ifs <;> decide) hw hshape.symm hrep
  have hall : previous.quantized.all (fun bits => bits == 0x3f80#16) = true ↔
      previous.quantized = List.replicate n 0x3f80#16 := by
    simp [List.eq_replicate_iff, hlen]
  by_cases hones : previous.quantized = List.replicate n 0x3f80#16
  · rw [if_pos (hall.mpr hones)] at hp
    rw [hones, alternate_self]
    exact hconstant fun _ _ _ _ => by rw [hp, patternWord]
  · rw [if_neg (mt hall.mp hones)] at hp
    rw [alternate_of_ne hones]
    exact hconstant fun _ _ _ _ => by rw [hp, patternWord]

/-- The words of each input, from those of the first. -/
theorem inputSequence_quantized {n : ℕ} (hn : n = options.shape.rows * options.shape.cols) {i : ℕ}
    (hinput : inputSequence env options first i = .ok (pattern, prepared)) :
    prepared.quantized =
      (alternate (List.replicate n 0x3f80#16) (List.replicate n 0))^[i] first.quantized := by
  induction i generalizing pattern prepared with
  | zero =>
    obtain ⟨_, rfl⟩ := Prod.mk.inj (Except.ok.inj hinput)
    rfl
  | succ i ih =>
    obtain ⟨⟨pattern', previous⟩, hprevious, hnext⟩ := bind_eq_ok_iff.mp hinput
    rw [Function.iterate_succ_apply', ← ih hprevious]
    exact nextInput_quantized h ((inputSequence_length h hprevious).trans hn.symm) hn hnext

end Inputs

section Records

variable {env : HostEnv} {files : String → Option InputFile} {args : List String}
  {options : Options} {first : PreparedInput} {case : Case} {fr : FloatReading}

/-- A passing record of a run without an input file passes its validation, with the hash of the
upload of its launch. -/
theorem validateResult_record (hup : env.upstream.UntilizeAgrees) (hpinned : env.Pinned)
    (hrd : fr.rd = env.rd) (h : beforeDevice env files args = .ok (options, first))
    (hfile : options.inputFile = "") (hcase : options.Requests case) {n : ℕ}
    (hn : n = options.shape.rows * options.shape.cols) {i : ℕ} {record : ResultRecord}
    (hrecord : (run env options first).1[i]? = some record) (hpass : record.status = "pass")
    (sha256 : List Byte → String) :
    ∃ v, validateResult fr sha256 case i record.toJson = .ok v ∧ v.status = "pass" ∧
      v.compiledSourceCommit = env.sourceCommit ∧
      v.inputSha256 = sha256 (littleEndian
        ((alternate (List.replicate n 0x3f80#16) (List.replicate n 0))^[i] first.quantized)) := by
  obtain ⟨p, input, m, words, hlaunched, hfirst, hgenerated, rfl⟩ :=
    run_generated hup h hfile hrecord
  have hshape := hlaunched.launchInput.shape
  have hrep := hlaunched.launchInput.represents
  have hfinite : ∀ r < m.shape.rows,
      (bf16Value (outputWord (resultBits words) r 0)).isFinite = true := by
    intro r hr
    obtain ⟨q, hq, _⟩ := (launchRecord_status_iff.mp hpass).1 r hr
    rw [hq]
    rfl
  refine ⟨_, validateResult_eq_ok_iff.mpr ⟨_, p, _, m.words, _, _, rfl,
    launchRecord_checks hshape hfinite hrep hpinned hcase hfirst hgenerated
      hlaunched.length_resultBits, rfl⟩,
    launchRecord_validated_pass hshape hfinite hcase hrd hpass, rfl, ?_⟩
  rw [validatedOf_inputSha256, ← inputSequence_quantized h hn hlaunched.input, hrep.quantized]

/-- The hashes of a run's uploads, in order. -/
def uploadHashes (sha256 : List Byte → String) (options : Options) (first : PreparedInput) :
    List String :=
  let n := options.shape.rows * options.shape.cols
  (List.range options.repeats).map fun i => sha256 (littleEndian
    ((alternate (List.replicate n 0x3f80#16) (List.replicate n 0))^[i] first.quantized))

/-- A run whose records all pass is recorded as passed just when its
uploads have distinct hashes. -/
theorem runCase_records_pass_iff {renv : RunnerEnv} {child : ChildRun} {stdout : List Byte}
    {elapsed : ℚ} (hup : env.upstream.UntilizeAgrees) (hpinned : env.Pinned)
    (hrd : renv.fr.rd = env.rd) (h : beforeDevice env files args = .ok (options, first))
    (hfile : options.inputFile = "") (hcase : options.Requests case) (hpos : 0 < options.repeats)
    (hlen : (run env options first).1.length = options.repeats)
    (hpass : ∀ record ∈ (run env options first).1, record.status = "pass")
    (hexit : child.exit = .ok ⟨0, false, elapsed⟩) (hout : child.stdout = some stdout)
    (hentries : EntriesOf renv stdout ((run env options first).1.map ResultRecord.toJson)) :
    (∃ record, runCase renv case child = .ok record ∧ record.status = some "pass") ↔
      (1 < options.repeats → (uploadHashes renv.sha256 options first).Nodup) := by
  set records := (run env options first).1 with hrecords
  have hvalid : ∀ i < options.repeats, ∃ v,
      validateResult renv.fr renv.sha256 case i ((records.map ResultRecord.toJson).getD i .null) =
        .ok v ∧ v.status = "pass" ∧ v.compiledSourceCommit = env.sourceCommit ∧
      v.inputSha256 = renv.sha256 (littleEndian
        ((alternate (List.replicate (options.shape.rows * options.shape.cols) 0x3f80#16)
          (List.replicate (options.shape.rows * options.shape.cols) 0))^[i] first.quantized)) := by
    intro i hi
    have hrecord : records[i]? = some records[i] := List.getElem?_eq_getElem (hlen ▸ hi)
    have hentry : (records.map ResultRecord.toJson).getD i .null = records[i].toJson := by
      rw [List.getD_eq_getElem?_getD, List.getElem?_map, hrecord]
      rfl
    rw [hentry]
    exact validateResult_record hup hpinned hrd h hfile hcase rfl hrecord
      (hpass _ (List.getElem_mem _)) renv.sha256
  have hne : Nonempty Validated := ⟨(hvalid 0 hpos).choose⟩
  choose! v hv hstatus hcommit hhash using hvalid
  have hlength : (records.map ResultRecord.toJson).length = options.repeats := by
    rw [List.length_map, hlen]
  have hexecutions : validateEntries renv case (records.map ResultRecord.toJson) =
      .ok ((List.range options.repeats).map v) := by
    rw [validateEntries, hlength]
    exact mapM_ok fun i hi => hv i (List.mem_range.mp hi)
  have hcommits : (((List.range options.repeats).map v).map
      Validated.compiledSourceCommit).dedup.length = 1 := by
    refine dedup_length_eq_one_iff.mpr ⟨env.sourceCommit, ?_, ?_⟩
    · simp [hpos.ne']
    · intro t ht
      rw [List.map_map, List.mem_map] at ht
      obtain ⟨i, hi, rfl⟩ := ht
      exact hcommit i (List.mem_range.mp hi)
  have hhashes : ((List.range options.repeats).map v).map Validated.inputSha256 =
      uploadHashes renv.sha256 options first := by
    rw [List.map_map]
    exact List.map_congr_left fun i hi => hhash i (List.mem_range.mp hi)
  have hdistinct : ((((List.range options.repeats).map v).map
      Validated.inputSha256).dedup.length : ℤ) = case.repeats ↔
      (uploadHashes renv.sha256 options first).Nodup := by
    have hcount : (uploadHashes renv.sha256 options first).length = options.repeats := by
      simp [uploadHashes]
    rw [hhashes, hcase.repeats, Nat.cast_inj, ← dedup_length_eq_iff, hcount]
  have hmany : 1 < case.repeats ↔ 1 < options.repeats := by
    rw [hcase.repeats]
    exact Nat.one_lt_cast
  rw [runCase_pass_iff hout]
  constructor
  · rintro ⟨exit, entries, executions, _, _, _, hentries', _, hvalid, _, hnodup, _⟩
    obtain rfl := hentries'.unique hentries
    obtain rfl := Except.ok.inj (hvalid.symm.trans hexecutions)
    exact fun h1 => hdistinct.mp (hnodup (hmany.mpr h1))
  · intro hnodup
    refine ⟨_, _, _, hexit, rfl, rfl, hentries, ?_, hexecutions, hcommits,
      fun h1 => hdistinct.mpr (hnodup (hmany.mp h1)), ?_⟩
    · rw [hlength, hcase.repeats]
    · intro r hr
      obtain ⟨i, hi, rfl⟩ := List.mem_map.mp hr
      exact hstatus i (List.mem_range.mp hi)

/-- The texts a record of a pinned run is made of, beside hashes, words and its pattern. -/
def fixedTexts : List String :=
  ["pass", "numerical-fail", "C3", "C4", "ttsim", "device", metalCommit,
    "logical_row_major_bf16_little_endian", "tile_face_bf16_little_endian", "simulator_wall_time",
    "host_wall_time", "enqueue_including_first_run_JIT_and_Finish_excluding_transfers"]

/-- The texts of a record of a pinned run hold no separator. -/
theorem launchRecord_onOneLine (hpinned : env.Pinned) {i : ℕ} {p : Pattern}
    {prepared : PreparedInput} {m : QuantizedMatrix} {words : List Word32} :
    (launchRecord env options i p.name prepared m p.isExact words).OnOneLine := by
  have hhex : ∀ bits, ∀ c ∈ (quantizedBitsHex bits).toList, separates c = false := by
    intro bits c hc
    rw [quantizedBitsHex_toList] at hc
    exact separates_eq_false (P := isDigit) (by decide) (isDigit_encode hc)
  have hcommit : ∀ c ∈ env.sourceCommit.toList, separates c = false := by
    have hdigits := hpinned.sourceCommit
    rw [isCommit, Bool.and_eq_true, List.all_eq_true] at hdigits
    exact fun c hc => separates_eq_false
      (P := fun c => decide ('0' ≤ c ∧ c ≤ '9' ∨ 'a' ≤ c ∧ c ≤ 'f')) (by decide) (hdigits.2 c hc)
  have hfixed : ∀ s ∈ fixedTexts ++ patterns.map Pattern.name,
      ∀ c ∈ s.toList, separates c = false := by decide
  have hupstream : ∀ c ∈ env.upstreamCommit.toList, separates c = false := by
    rw [hpinned.upstreamCommit]
    exact hfixed metalCommit (by decide)
  have hchoice : ∀ (b : Bool) (s t : String), s ∈ fixedTexts → t ∈ fixedTexts →
      ∀ c ∈ (if b then s else t).toList, separates c = false := by
    intro b s t hs ht
    cases b with
    | true => exact hfixed s (List.mem_append_left _ hs)
    | false => exact hfixed t (List.mem_append_left _ ht)
  have hpattern : ∀ c ∈ p.name.toList, separates c = false :=
    hfixed p.name (List.mem_append_right _ (List.mem_map_of_mem (mem_patterns p)))
  intro s hs
  have htexts : s ∈ [_, _, _, _, _, _, _, _, _, _, _, _] := hs
  simp only [List.mem_cons, List.not_mem_nil, or_false] at htexts
  rcases htexts with rfl | rfl | rfl | rfl | rfl | rfl | rfl | rfl | rfl | rfl | rfl | rfl
  · exact hchoice _ _ _ (by decide) (by decide)
  · exact hchoice _ _ _ (by decide) (by decide)
  · exact hchoice _ _ _ (by decide) (by decide)
  · exact hupstream
  · exact hcommit
  · exact hpattern
  · exact hfixed _ (by decide)
  · exact hhex _
  · exact hfixed _ (by decide)
  · exact hhex _
  · exact hchoice _ _ _ (by decide) (by decide)
  · exact hfixed _ (by decide)

/-- The counters of a launch's record fit the machine's. -/
theorem launchRecord_counted {i : ℕ} {p : Pattern} {prepared : PreparedInput} {m : QuantizedMatrix}
    {words : List Word32} (hinput : LaunchInput options p.name prepared m p.isExact)
    (hrepeats : options.repeats < 2 ^ 64) (hi : i < options.repeats) :
    (launchRecord env options i p.name prepared m p.isExact words).Counted := by
  obtain ⟨_, hrows, _, hcols⟩ := m.valid
  have hsize : ∀ {n : ℕ}, n ≤ 128 → n < 2 ^ 64 := fun h => by omega
  have hfailed : ∀ n ∈ (judgementOf env.rd p.isExact m (resultBits words)).comparison.failedRows,
      n < 2 ^ 64 := by
    intro n hn
    have hlt := List.mem_range.mp (List.mem_filter.mp hn).1
    rw [judgementOf_rows, judgedRows, List.length_map, List.length_range] at hlt
    exact hsize (hlt.le.trans hrows)
  simp only [ResultRecord.Counted, launchRecord, emitResult, ResultRecord.fields, Emitted.counters,
    List.flatMap_cons, List.flatMap_nil, List.nil_append, List.append_nil, List.forall_mem_append,
    List.forall_mem_cons, List.not_mem_nil, false_imp_iff, implies_true, and_true]
  exact ⟨hinput.shape ▸ hsize hrows, hinput.shape ▸ hsize hcols,
    hsize (hinput.represents.paddedRows.trans_le (padded_le hrows)),
    hsize (hinput.represents.paddedCols.trans_le (padded_le hcols)), by norm_num,
    options.seed.isLt.trans (by norm_num), hi.trans hrepeats, hrepeats, hfailed⟩

/-- The log of a run that exited on its own holds what the run printed. -/
structure RunOf (renv : RunnerEnv) (digits : ℚ → String) (result : MainResult) (child : ChildRun) :
    Prop where
  exit : ∃ elapsed, child.exit = .ok ⟨result.exitCode, false, elapsed⟩
  stdout : ∃ log, child.stdout = some log ∧
    renv.readText log = String.ofList (result.stdout digits)

/-- The entries the runner decodes are the printed records. -/
theorem entriesOf_printed {renv : RunnerEnv} {maxDigits : Option ℕ} {digits : ℚ → String}
    {log : List Byte} {records : List ResultRecord} (hlimit : DigitLimit maxDigits)
    (hjson : ∀ text value, jsonLoads maxDigits text = some value → renv.jsonLoads text = .ok value)
    (hlog : renv.readText log = String.ofList (records.flatMap (ResultRecord.line digits)))
    (hcounted : ∀ record ∈ records, record.Counted)
    (hread : ∀ record ∈ records, record.Readable maxDigits digits)
    (hline : ∀ record ∈ records, record.OnOneLine) :
    EntriesOf renv log (records.map ResultRecord.toJson) := by
  rw [EntriesOf, hlog, resultTexts_lines hread hline, List.forall₂_map_left_iff,
    List.forall₂_map_right_iff, List.forall₂_same]
  exact fun record hrecord => hjson _ _
    (ResultRecord.jsonLoads_text hlimit (hcounted record hrecord) (hread record hrecord))

end Records

section Repeats

/-- The words of the generated first input of a case. -/
def Case.inputWords (case : Case) : List Bf16Word :=
  match makeInput ⟨case.rows.toNat, case.cols.toNat⟩ case.pattern
    (BitVec.ofNat 32 case.seed.toNat) with
  | .ok values => values.map floatToBf16
  | .error _ => []

/-- The same word everywhere. -/
def Case.constantWords (case : Case) (w : Bf16Word) : List Bf16Word :=
  List.replicate (case.rows.toNat * case.cols.toNat) w

/-- Everything the launches of a case upload: its first input, ones and zeros. -/
def Case.uploads (case : Case) : List (List Bf16Word) :=
  [case.inputWords, case.constantWords 0x3f80#16, case.constantWords 0]

variable {maxDigits : Option ℕ} {env : HostEnv} {files : String → Option InputFile} {case : Case}

/-- The host's first input for a case is the generated one. -/
theorem Case.Valid.quantized_eq (hcase : case.Valid) {first : PreparedInput}
    (h : beforeDevice env files (case.command env.profiler) =
      .ok (case.options env.profiler, first)) : first.quantized = case.inputWords := by
  obtain ⟨p, hp, values, hmake, hwords⟩ := beforeDevice_generated h rfl
  have hmake' : makeInput ⟨case.rows.toNat, case.cols.toNat⟩ case.pattern
      (BitVec.ofNat 32 case.seed.toNat) = .ok values := by
    rw [← patternAlias_of_mem hcase.pattern]
    exact (congrArg (makeInput _ · _) hp).trans hmake
  rw [hwords, Case.inputWords, hmake']

/-- A command that ends with exit code 0 was accepted with the options of its case. -/
theorem Case.Valid.beforeDevice_of_exitCode (hcase : case.Valid)
    (hexit : (main env files (case.command env.profiler)).exitCode = 0) :
    ∃ first, beforeDevice env files (case.command env.profiler) =
        .ok (case.options env.profiler, first) := by
  rcases main_cases env files (case.command env.profiler) with
    ⟨e, _, hmain⟩ | ⟨hhelp | ⟨⟨options, first⟩, h⟩, _⟩
  · rw [hmain] at hexit
    cases hexit
  · exact absurd (List.cons.inj hhelp).1 (by decide)
  · obtain rfl := Except.ok.inj ((hcase.sized.parseOptions_command env.profiler).symm.trans
      (parseOptions_of_beforeDevice h))
    exact ⟨first, h⟩

/-- What it prints are records of its launches. -/
theorem Case.Valid.exists_launchRecord (hcase : case.Valid) (hup : env.upstream.UntilizeAgrees)
    (hexit : (main env files (case.command env.profiler)).exitCode = 0) {record : ResultRecord}
    (hrecord : record ∈ (main env files (case.command env.profiler)).records) :
    ∃ (i : ℕ) (p : Pattern) (input : PreparedInput) (m : QuantizedMatrix) (words : List Word32),
      record = launchRecord env (case.options env.profiler) i p.name input m p.isExact words ∧
        record.Counted := by
  obtain ⟨first, h⟩ := hcase.beforeDevice_of_exitCode hexit
  obtain ⟨_, hlen, _⟩ := (main_exitCode_iff hup h).mp hexit
  have hrepeats : (case.options env.profiler).repeats < 2 ^ 64 := by
    have := hcase.repeats
    have := (hcase.requests env.profiler).repeats
    omega
  rcases (main_records h).1 with hnil | hrun
  · rw [hnil] at hrecord
    exact absurd hrecord List.not_mem_nil
  · rw [hrun] at hrecord hlen
    obtain ⟨i, hi⟩ := List.mem_iff_getElem?.mp hrecord
    obtain ⟨p, input, m, words, hlaunched, _, _, rfl⟩ := run_generated hup h rfl hi
    have hindex := (List.getElem?_eq_some_iff.mp hi).1
    exact ⟨i, p, input, m, words, rfl,
      launchRecord_counted hlaunched.launchInput hrepeats (hlen ▸ hindex)⟩

/-- The entries of its log are its records. -/
theorem Case.Valid.entriesOf_stdout {renv : RunnerEnv} {digits : ℚ → String} {log : List Byte}
    (hcase : case.Valid) (hup : env.upstream.UntilizeAgrees) (hpinned : env.Pinned)
    (hlimit : DigitLimit maxDigits)
    (hjson : ∀ text value, jsonLoads maxDigits text = some value → renv.jsonLoads text = .ok value)
    (hdigits : ∀ record ∈ (main env files (case.command env.profiler)).records,
      record.Readable maxDigits digits)
    (hexit : (main env files (case.command env.profiler)).exitCode = 0)
    (hlog : renv.readText log =
      String.ofList ((main env files (case.command env.profiler)).stdout digits)) :
    EntriesOf renv log
      ((main env files (case.command env.profiler)).records.map ResultRecord.toJson) := by
  obtain ⟨first, h⟩ := hcase.beforeDevice_of_exitCode hexit
  rw [MainResult.stdout, main_usage h] at hlog
  refine entriesOf_printed hlimit hjson hlog (fun record hrecord => ?_) hdigits
    fun record hrecord => ?_
  · obtain ⟨_, _, _, _, _, _, hcounted⟩ := hcase.exists_launchRecord hup hexit hrecord
    exact hcounted
  · obtain ⟨i, p, input, m, words, rfl, _⟩ := hcase.exists_launchRecord hup hexit hrecord
    exact launchRecord_onOneLine hpinned

/-- All of it has the shape of the case. -/
theorem Case.Valid.length_of_mem_uploads (hcase : case.Valid) {words : List Bf16Word}
    (hwords : words ∈ case.uploads) : words.length = case.rows.toNat * case.cols.toNat := by
  obtain ⟨first, h, _⟩ := exists_kernelHost_run (.nearestEven binary64) hcase
  have hfirst := inputSequence_length h (show inputSequence _ _ first 0 = _ from rfl)
  rw [hcase.quantized_eq h] at hfirst
  simp only [Case.uploads, List.mem_cons, List.not_mem_nil, or_false] at hwords
  rcases hwords with rfl | rfl | rfl
  · exact hfirst
  · exact List.length_replicate
  · exact List.length_replicate

/-- Every launch uploads one of the three. -/
theorem iterate_mem_uploads (case : Case) (i : ℕ) :
    (alternate (case.constantWords 0x3f80#16) (case.constantWords 0))^[i] case.inputWords ∈
      case.uploads := by
  cases i with
  | zero => exact List.mem_cons_self
  | succ i =>
    rw [Function.iterate_succ_apply']
    rcases alternate_cases (case.constantWords 0x3f80#16) (case.constantWords 0)
      ((alternate (case.constantWords 0x3f80#16) (case.constantWords 0))^[i] case.inputWords) with
      h | h <;> rw [h] <;> simp [Case.uploads]

/-- The hashes of the launches of a case, in order. -/
def Case.uploadHashes (case : Case) (sha256 : List Byte → String) : List String :=
  ((List.range case.repeats.toNat).map fun i =>
    (alternate (case.constantWords 0x3f80#16) (case.constantWords 0))^[i] case.inputWords).map
      fun words => sha256 (littleEndian words)

/-- Ones are not zeros. -/
theorem Case.Valid.constantWords_ne (hcase : case.Valid) :
    case.constantWords 0x3f80#16 ≠ case.constantWords 0 := by
  have hsize : 0 < case.rows.toNat * case.cols.toNat :=
    Nat.mul_pos (Int.pos_iff_toNat_pos.mp hcase.rows.1) (Int.pos_iff_toNat_pos.mp hcase.cols.1)
  intro heq
  exact absurd ((List.replicate_inj.mp heq).2.resolve_left hsize.ne') (by decide)

/-- Launches have distinct hashes just where their inputs do not come back. -/
theorem Case.Valid.nodup_uploadHashes_iff (hcase : case.Valid) {sha256 : List Byte → String}
    (hhash : ∀ a ∈ case.uploads, ∀ b ∈ case.uploads,
      sha256 (littleEndian a) = sha256 (littleEndian b) → a = b) :
    (case.uploadHashes sha256).Nodup ↔ case.repeats.toNat ≤ 2 ∨ case.repeats.toNat = 3 ∧
      case.inputWords ≠ case.constantWords 0x3f80#16 ∧ case.inputWords ≠ case.constantWords 0 := by
  rw [Case.uploadHashes, ← nodup_alternate_iff hcase.constantWords_ne]
  constructor
  · exact List.Nodup.of_map _
  · refine List.Nodup.map_on fun a ha b hb heq => ?_
    obtain ⟨i, _, rfl⟩ := List.mem_map.mp ha
    obtain ⟨j, _, rfl⟩ := List.mem_map.mp hb
    exact hhash _ (iterate_mem_uploads case i) _ (iterate_mem_uploads case j) heq

/-- A case whose host exits with code 0 passes just when its launches have distinct hashes. -/
theorem runCase_exitCode_iff {renv : RunnerEnv} {digits : ℚ → String} {child : ChildRun}
    (hcase : case.Valid) (hup : env.upstream.UntilizeAgrees) (hpinned : env.Pinned)
    (hrd : renv.fr.rd = env.rd) (hlimit : DigitLimit maxDigits)
    (hjson : ∀ text value, jsonLoads maxDigits text = some value → renv.jsonLoads text = .ok value)
    (hdigits : ∀ record ∈ (main env files (case.command env.profiler)).records,
      record.Readable maxDigits digits)
    (hchild : RunOf renv digits (main env files (case.command env.profiler)) child)
    (hexit : (main env files (case.command env.profiler)).exitCode = 0) :
    (∃ record, runCase renv case child = .ok record ∧ record.status = some "pass") ↔
      (1 < case.repeats.toNat → (case.uploadHashes renv.sha256).Nodup) := by
  obtain ⟨first, h⟩ := hcase.beforeDevice_of_exitCode hexit
  have hfirst := hcase.quantized_eq h
  obtain ⟨_, hlen, hpass, _⟩ := (main_exitCode_iff hup h).mp hexit
  have hrequests := hcase.requests env.profiler
  have hrepeats := hrequests.repeats
  have hpos : 0 < (case.options env.profiler).repeats := by
    have := hcase.repeats.1
    omega
  have hrecords : (main env files (case.command env.profiler)).records =
      (run env (case.options env.profiler) first).1 := by
    refine (main_records h).1.resolve_left fun hnil => ?_
    rw [hnil] at hlen
    exact hpos.ne hlen
  obtain ⟨⟨elapsed, hended⟩, log, hlog, htext⟩ := hchild
  rw [hexit] at hended
  have hentries := hcase.entriesOf_stdout hup hpinned hlimit hjson hdigits hexit htext
  rw [hrecords] at hlen hpass hentries
  have hhashes : uploadHashes renv.sha256 (case.options env.profiler) first =
      case.uploadHashes renv.sha256 := by
    rw [Case.uploadHashes, List.map_map, ← hfirst]
    rfl
  rw [runCase_records_pass_iff hup hpinned hrd h rfl hrequests hpos hlen hpass hended hlog hentries,
    hhashes]
  rfl

/-- A case whose host exits with code 0 passes just when it has at most two launches, or three
from a first input that is neither ones nor zeros. -/
theorem runCase_repeats_iff {renv : RunnerEnv} {digits : ℚ → String} {child : ChildRun}
    (hcase : case.Valid) (hup : env.upstream.UntilizeAgrees) (hpinned : env.Pinned)
    (hrd : renv.fr.rd = env.rd) (hlimit : DigitLimit maxDigits)
    (hjson : ∀ text value, jsonLoads maxDigits text = some value → renv.jsonLoads text = .ok value)
    (hdigits : ∀ record ∈ (main env files (case.command env.profiler)).records,
      record.Readable maxDigits digits)
    (hhash : ∀ a ∈ case.uploads, ∀ b ∈ case.uploads,
      renv.sha256 (littleEndian a) = renv.sha256 (littleEndian b) → a = b)
    (hchild : RunOf renv digits (main env files (case.command env.profiler)) child)
    (hexit : (main env files (case.command env.profiler)).exitCode = 0) :
    (∃ record, runCase renv case child = .ok record ∧ record.status = some "pass") ↔
      case.repeats ≤ 2 ∨ case.repeats = 3 ∧ case.inputWords ≠ case.constantWords 0x3f80#16 ∧
        case.inputWords ≠ case.constantWords 0 := by
  rw [runCase_exitCode_iff hcase hup hpinned hrd hlimit hjson hdigits hchild hexit,
    hcase.nodup_uploadHashes_iff hhash]
  constructor
  · intro hmany
    by_cases hone : 1 < case.repeats.toNat
    · rcases hmany hone with htwo | ⟨hthree, hfirst⟩
      · exact Or.inl (by omega)
      · exact Or.inr ⟨by omega, hfirst⟩
    · exact Or.inl (by omega)
  · rintro (htwo | ⟨hthree, hfirst⟩) _
    · exact Or.inl (by omega)
    · exact Or.inr ⟨by omega, hfirst⟩

end Repeats

/-- One zero, as often as wanted. -/
def zeroCell (repeats : ℤ) : Case :=
  { caseId := "m1_n1_zero", rows := 1, cols := 1, pattern := "zero", seed := 101, repeats }

/-- The case is one of the matrix's kind. -/
theorem zeroCell_valid {repeats : ℤ} (h : 1 ≤ repeats ∧ repeats ≤ 100) :
    (zeroCell repeats).Valid where
  rows := ⟨le_rfl, by norm_num [zeroCell]⟩
  cols := ⟨le_rfl, by norm_num [zeroCell]⟩
  pattern := mem_runnerPatterns.mpr ⟨.zero, rfl⟩
  seed := ⟨by norm_num [zeroCell], by norm_num [zeroCell]⟩
  repeats := h

/-- Its first input is zeros. -/
theorem zeroCell_inputWords (repeats : ℤ) :
    (zeroCell repeats).inputWords = (zeroCell repeats).constantWords 0 := by
  have hmake : makeInput ⟨(zeroCell repeats).rows.toNat, (zeroCell repeats).cols.toNat⟩
      (zeroCell repeats).pattern (BitVec.ofNat 32 (zeroCell repeats).seed.toNat) = .ok [0] := by
    change makeInput ⟨1, 1⟩ "zero" 101 = .ok [0]
    decide +kernel
  rw [Case.inputWords, hmake]
  rfl

/-- The bytes of a log. -/
def utf8Bytes (text : String) : List Byte := text.toUTF8.data.toList.map UInt8.toBitVec

def utf8Text (bytes : List Byte) : String :=
  (String.fromUTF8? ⟨(bytes.map UInt8.ofBitVec).toArray⟩).getD ""

/-- A text is decoded from its own bytes. -/
theorem utf8Text_utf8Bytes (text : String) : utf8Text (utf8Bytes text) = text := by
  have hbytes : (⟨((utf8Bytes text).map UInt8.ofBitVec).toArray⟩ : ByteArray) = text.toUTF8 := by
    rw [utf8Bytes, List.map_map]
    have hid : UInt8.ofBitVec ∘ UInt8.toBitVec = id := rfl
    rw [hid, List.map_id, Array.toArray_toList]
  have hvalid : text.toUTF8.IsValidUTF8 := text.isValidUTF8
  rw [utf8Text, hbytes, String.fromUTF8?, dif_pos hvalid]
  rfl

/-- The runner beside the child, with the hashes of a zero and of a one; the other bytes stand for
themselves. -/
def cellRunner : RunnerEnv where
  fr := .ieee
  sha256 bytes :=
    if bytes = [0x00, 0x00] then "96a296d224f285c67bee93c30f8a309157f0daa35dc5b87e410b78630a09cfc7"
    else if bytes = [0x80, 0x3f] then
      "b9c205bdac187f20bf876cea369cb6032ad1bf69043b31d716b36b8defbffdf2"
    else String.ofList (encode bytes)
  readText := utf8Text
  jsonLoads text :=
    match jsonLoads (some 4300) text with
    | some value => .ok value
    | none => .error "Expecting value: line 1 column 1 (char 0)"

/-- The runner reads what can be read. -/
theorem cellRunner_jsonLoads (text : String) (value : Json)
    (h : jsonLoads (some 4300) text = some value) : cellRunner.jsonLoads text = .ok value := by
  simp only [cellRunner, h]

/-- A child that ran to its end. -/
def finishedChild (result : MainResult) : ChildRun where
  exit := .ok ⟨result.exitCode, false, 0⟩
  stdout := some (utf8Bytes (String.ofList (result.stdout doubleDigits)))
  stderr := some (utf8Bytes (String.ofList result.stderr))

/-- Its log holds what the host printed. -/
theorem runOf_finishedChild {renv : RunnerEnv} (htext : renv.readText = utf8Text)
    (result : MainResult) : RunOf renv doubleDigits result (finishedChild result) :=
  ⟨⟨0, rfl⟩, _, rfl, by rw [htext]; exact utf8Text_utf8Bytes _⟩

/-- The host of the case, on its kernels. -/
def zeroHost (repeats : ℤ) : HostEnv := kernelHost (.nearestEven binary64) (zeroCell repeats)

/-- Zero, one and zero: every record passes, the host exits with code 0, the case does not pass. -/
theorem not_runCase_pass_three :
    (zeroCell 3).Valid ∧
    (∃ first, beforeDevice (zeroHost 3) (fun _ => none) ((zeroCell 3).command none) =
        .ok ((zeroCell 3).options none, first) ∧
      CorrectDevice (zeroHost 3) ((zeroCell 3).options none) first) ∧
    (main (zeroHost 3) (fun _ => none) ((zeroCell 3).command none)).exitCode = 0 ∧
    ¬∃ record, runCase cellRunner (zeroCell 3)
        (finishedChild (main (zeroHost 3) (fun _ => none) ((zeroCell 3).command none))) =
          .ok record ∧
      record.status = some "pass" := by
  have hthree : (1 : ℤ) ≤ 3 ∧ (3 : ℤ) ≤ 100 := by norm_num
  have hvalid := zeroCell_valid hthree
  obtain ⟨first, hbefore, hcorrect, _, hexit, _⟩ :=
    exists_kernelHost_run (.nearestEven binary64) hvalid
  refine ⟨hvalid, ⟨first, hbefore, hcorrect⟩, hexit, ?_⟩
  have hpass := runCase_exitCode_iff hvalid projectUpstream_untilizeAgrees (kernelHost_pinned _ _)
    rfl digitLimit_default cellRunner_jsonLoads (kernelHost_readable digitLimit_default hvalid)
    (runOf_finishedChild rfl _) hexit
  intro hpassed
  have hdistinct := (nodup_alternate_iff hvalid.constantWords_ne _ _).mp
    (List.Nodup.of_map _ (hpass.mp hpassed (by decide)))
  rcases hdistinct with hle | ⟨_, _, hne⟩
  · exact absurd hle (by decide)
  · exact hne (zeroCell_inputWords 3)

/-- Zero and one: the case passes. -/
theorem runCase_repeats_iff_two :
    (∃ record, runCase cellRunner (zeroCell 2)
        (finishedChild (main (zeroHost 2) (fun _ => none) ((zeroCell 2).command none))) =
          .ok record ∧
      record.status = some "pass") ↔
      (2 : ℤ) ≤ 2 ∨ (2 : ℤ) = 3 ∧ (zeroCell 2).inputWords ≠ (zeroCell 2).constantWords 0x3f80#16 ∧
        (zeroCell 2).inputWords ≠ (zeroCell 2).constantWords 0 := by
  have htwo : (1 : ℤ) ≤ 2 ∧ (2 : ℤ) ≤ 100 := by norm_num
  have hvalid := zeroCell_valid htwo
  obtain ⟨_, _, _, _, hexit, _⟩ := exists_kernelHost_run (.nearestEven binary64) hvalid
  have hhash : ∀ a ∈ (zeroCell 2).uploads, ∀ b ∈ (zeroCell 2).uploads,
      cellRunner.sha256 (littleEndian a) = cellRunner.sha256 (littleEndian b) → a = b := by
    rw [Case.uploads, zeroCell_inputWords]
    decide +kernel
  exact runCase_repeats_iff hvalid projectUpstream_untilizeAgrees (kernelHost_pinned _ _) rfl
    digitLimit_default cellRunner_jsonLoads (kernelHost_readable digitLimit_default hvalid) hhash
    (runOf_finishedChild rfl _) hexit

end RowReduce
