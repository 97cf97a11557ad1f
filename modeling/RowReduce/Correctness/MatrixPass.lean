import RowReduce.Correctness.DocumentFormat
import RowReduce.Correctness.KernelRun
import RowReduce.Correctness.MatrixRun
import RowReduce.Correctness.RepeatCase

/-!
# Which matrix runs pass

The exit status of the runner is the one its summary states, and with hosts that
run their kernels every selected case passes.
-/

namespace RowReduce

open BinaryFloat Fallible Hexadecimal Journal

section Finite

private theorem floatItems_allFinite (xs : List ℚ) : (floatItems xs).allFinite = true := by
  rw [floatItems, Json.allFinite, itemsFinite_iff]
  intro item hitem
  obtain ⟨q, _, rfl⟩ := List.mem_map.mp hitem
  rfl

/-- The document of an execution holds finite numbers only. -/
theorem Validated.document_allFinite (v : Validated) : v.document.allFinite = true := by
  have hrows : (Json.list (v.failedRows.map fun row => .int row)).allFinite = true := by
    rw [Json.allFinite, itemsFinite_iff]
    intro item hitem
    obtain ⟨row, _, rfl⟩ := List.mem_map.mp hitem
    rfl
  rw [Validated.document, Json.allFinite, fieldsFinite_iff]
  simp only [List.forall_mem_cons, floatItems_allFinite, hrows, List.not_mem_nil, false_imp_iff,
    implies_true, and_true, true_and]
  refine ⟨rfl, rfl, rfl, rfl, rfl, rfl, rfl, rfl, rfl, rfl, rfl, rfl⟩

variable {w : World} {source : SourceView} {pre : Preflight}

private theorem CaseRecord.exitFields_allFinite (record : CaseRecord) :
    ∀ p ∈ record.exitFields, p.2.allFinite = true := by
  unfold exitFields
  cases record.timedOut with
  | none => simp
  | some timedOut =>
    cases record.exitCode <;> cases record.wallSeconds <;> simp [Json.allFinite,
      FloatValue.isFinite]

/-- So does that of a case. -/
theorem CaseRecord.document_allFinite {identity : Json} (h : identity.allFinite = true)
    (profiler : Option String) (case : Case) (started : Bool) (record : CaseRecord) :
    (record.document w identity profiler case started).allFinite = true := by
  have hcommand :
      (Json.list (("<binary>" :: case.command profiler).map .str)).allFinite = true := by
    rw [Json.allFinite, itemsFinite_iff]
    intro item hitem
    obtain ⟨s, _, rfl⟩ := List.mem_map.mp hitem
    rfl
  have hexecutions : (Json.list (record.executions.map Validated.document)).allFinite = true := by
    rw [Json.allFinite, itemsFinite_iff]
    intro item hitem
    obtain ⟨v, _, rfl⟩ := List.mem_map.mp hitem
    exact v.document_allFinite
  have hlogs : (Json.dict (record.logSha256.map fun p => (p.1, .str p.2))).allFinite = true := by
    rw [Json.allFinite, fieldsFinite_iff]
    intro p hp
    obtain ⟨entry, _, rfl⟩ := List.mem_map.mp hp
    rfl
  have hexit := record.exitFields_allFinite
  rw [document, Json.allFinite, fieldsFinite_iff]
  simp only [List.forall_mem_append, List.forall_mem_cons, h, hcommand, hexecutions, hlogs,
    List.not_mem_nil, false_imp_iff, implies_true, and_true, true_and]
  refine ⟨⟨⟨⟨⟨⟨rfl, rfl, rfl, rfl, rfl, rfl, rfl, rfl, rfl⟩, ?_⟩, ?_⟩, ?_⟩, ?_⟩, ?_⟩
  · cases started with
    | false => simp
    | true => exact hexit
  · cases record.compiledSourceCommit <;> simp [Json.allFinite]
  · cases record.status <;> rfl
  · cases record.error <;> simp [Json.allFinite]
  · cases started with
    | false => exact hexit
    | true => simp

/-- And the identity of a run. -/
theorem identityDocument_allFinite (w : World) (source : SourceView) (pre : Preflight) :
    (identityDocument w source pre).allFinite = true := by
  rw [identityDocument]
  cases source.commit <;> cases source.dirty <;> rfl

/-- And its summary. -/
theorem summaryDocument_allFinite (args : Arguments) (w : World) {identity : Json}
    (h : identity.allFinite = true) (records : List CaseRecord) (unchanged : Bool) :
    (summaryDocument args w identity records unchanged).allFinite = true := by
  have hcounts : (Json.dict (statusCounts records)).allFinite = true := counter_allFinite _
  have htotal : (totalWallSeconds w records).allFinite = true := by
    unfold totalWallSeconds
    split <;> rfl
  have hshapes : (Json.list (matrixCases.map fun c =>
      .list [.int c.rows, .int c.cols])).allFinite = true := rfl
  rw [summaryDocument, Json.allFinite, fieldsFinite_iff]
  simp only [List.forall_mem_cons, h, hcounts, htotal, hshapes, List.not_mem_nil, false_imp_iff,
    implies_true, and_true, true_and]
  refine ⟨rfl, rfl, ?_, ?_, ?_, ?_, ?_, ?_, ?_, ?_, ?_, ?_, ?_⟩ <;>
    first | rfl | (split_ifs <;> rfl)

end Finite

section Kernels

variable {Dest : Type} {engine : TileEngine (List Bf16Word) Dest} {read : Dest → ℕ → ℕ → ℚ}
  {args : Arguments} {w : World} {d : Disk} {source : SourceView} {pre : Preflight} {case : Case}
  {maxDigits : Option ℕ}

/-- The process of a case is the host, on a device that runs the kernels; its log holds what it
printed, every number with enough digits. -/
structure RunsHost (engine : TileEngine (List Bf16Word) Dest) (w : World)
    (maxDigits : Option ℕ) (profiler : Option String) (case : Case) (env : HostEnv)
    (files : String → Option InputFile) (digits : ℚ → String) : Prop where
  inherits : env.profiler = profiler
  upload : env.upstream.UploadAgrees
  untilize : env.upstream.UntilizeAgrees
  pinned : env.Pinned
  rounding : w.runner.fr.rd = env.rd
  kernels :
    env.device.RunsKernels engine (padded case.rows.toNat / 32) (padded case.cols.toNat / 32)
  readable : ∀ record ∈ (main env files (case.command profiler)).records,
    record.Readable maxDigits digits
  run : RunOf w.runner digits (main env files (case.command profiler)) (w.child case).run

/-- Such a process is recorded as passed. -/
theorem RunsHost.passes {profiler : Option String} {env : HostEnv}
    {files : String → Option InputFile} {digits : ℚ → String}
    (hlaws : RowSumLaws engine (fillScaler scalerArgument) read) (hcase : case.Valid)
    (hlimit : DigitLimit maxDigits)
    (hjson : ∀ text value, jsonLoads maxDigits text = some value →
      w.runner.jsonLoads text = .ok value)
    (hhash : 1 < case.repeats.toNat → (case.uploadHashes w.runner.sha256).Nodup)
    (h : RunsHost engine w maxDigits profiler case env files digits) :
    ∃ record, runCase w.runner case (w.child case).run = .ok record ∧
      record.status = some "pass" := by
  obtain ⟨rfl, hagree, hup, hpinned, hrd, hkernels, hdigits, hrun⟩ := h
  obtain ⟨first, hbefore⟩ := hcase.exists_beforeDevice hagree files
  have hcorrect : CorrectDevice env (case.options env.profiler) first :=
    hkernels.correct hlaws hbefore
  have hexit := hcorrect.main_exitCode hagree hup hbefore rfl hkernels.createUnitMesh
    (hkernels.quiet hlaws) hkernels.close
  exact (runCase_exitCode_iff hcase hup hpinned hrd hlimit hjson hdigits hrun hexit).mpr hhash

/-- Every case of the matrix is valid. -/
theorem allCases_valid : ∀ case ∈ allCases, case.Valid := by
  have hbounds : ∀ c ∈ allCases, (1 ≤ c.rows ∧ c.rows ≤ 128) ∧ (1 ≤ c.cols ∧ c.cols ≤ 128) ∧
      c.pattern ∈ runnerPatterns ∧ (0 ≤ c.seed ∧ c.seed < 2 ^ 32) ∧
      (1 ≤ c.repeats ∧ c.repeats ≤ 100) := by decide
  intro case hcase
  obtain ⟨hrows, hcols, hpattern, hseed, hrepeats⟩ := hbounds case hcase
  exact ⟨hrows, hcols, hpattern, hseed, hrepeats⟩

/-- Only the last case has more than one launch, and two. -/
theorem allCases_repeats : ∀ case ∈ allCases, case.repeats = 1 ∨ case = repeatCase := by decide

/-- A recorded case has a line in the log. -/
theorem exists_runLine {identity : Json} (hidentity : identity.allFinite = true)
    {record : CaseRecord}
    (h : runCase w.runner case (w.child case).run = .ok record) :
    ∃ entry, runLine args w identity case = .ok entry ∧ entry.1 = record := by
  obtain ⟨line, hline⟩ := @exists_dumpLine w.repr { allowNan := false } _
    (record.document_allFinite (w := w) hidentity (profilerOf args w) case (w.child case).started)
  refine ⟨(record, line), ?_, rfl⟩
  rw [runLine, h]
  simp only [ok_bind, hline]
  rfl

/-- Where every case passes, the loop completes. -/
theorem runCases_of_passed {identity : Json} (hidentity : identity.allFinite = true)
    {cases : List Case}
    (h : ∀ case ∈ cases, ∃ record, runCase w.runner case (w.child case).run = .ok record ∧
      record.status = some "pass") :
    ∃ records, (runCases args w identity cases).2 = .ok records ∧
      ∀ record ∈ records, record.status = some "pass" := by
  have hlines : ∀ case ∈ cases, ∃ entry, runLine args w identity case = .ok entry ∧
      entry.1.status = some "pass" := by
    intro case hcase
    obtain ⟨record, hrecord, hpass⟩ := h case hcase
    obtain ⟨entry, hentry, rfl⟩ := @exists_runLine args _ _ _ hidentity _ hrecord
    exact ⟨entry, hentry, hpass⟩
  obtain ⟨records, hrecords, _, hall⟩ :=
    recordLines_of_forall (P := fun record : CaseRecord => record.status = some "pass") hlines
  exact ⟨records, hrecords, hall⟩

/-- The runner starts its processes: the directory is fresh and the preflight passes. -/
structure Starts (args : Arguments) (w : World) (d : Disk) (source : SourceView) (pre : Preflight) :
    Prop where
  list : args.list = false
  timeout : timeoutValid args.timeout = true
  evidence : ∀ name ∈ evidenceNames, d.lookup name = none
  logs : ∀ p ∈ d, ¬"raw/".toList <+: p.1.toList
  found : w.sourceBefore = .ok source
  passed : preflight args w source = .ok pre

/-- Where the runner starts it runs the matrix. -/
theorem Starts.matrixMain_eq (h : Starts args w d source pre) :
    matrixMain args w d = runMatrix args w source pre := by
  have hfind : (evidenceNames.find? fun name => (d.lookup name).isSome) = none := by
    refine List.find?_eq_none.mpr fun name hname => ?_
    rw [h.evidence name hname]
    exact Bool.false_ne_true
  have hlogs : (d.any fun p => "raw/".toList.isPrefixOf p.1.toList) = false := by
    rw [List.any_eq_false]
    exact fun p hp hprefix => h.logs p hp (List.isPrefixOf_iff_prefix.mp hprefix)
  rw [matrixMain, h.list, h.timeout, hfind]
  simp only [hlogs, h.found, recordEvidence, h.passed, Bool.false_eq_true, if_false,
    Bool.true_eq_false]

/-- Where every selected case passes and nothing changes, the runner returns zero and leaves a
summary that reads as passed. -/
theorem Starts.matrixMain_passed (hw : w.ReprReads) (hstarts : Starts args w d source pre)
    (hpassed : ∀ case ∈ selectedCases args.choice, ∃ record,
      runCase w.runner case (w.child case).run = .ok record ∧ record.status = some "pass")
    (hunchanged : sourcesUnchanged w source pre = .ok true) :
    (matrixMain args w d).2 = .code 0 ∧ ∃ fields,
      readDocument (Journal.run d (matrixMain args w d).1) "summary.json" = some (.dict fields) ∧
      Json.get fields "status" = .str "pass" ∧
      Json.get fields "matrix_complete" = .bool (args.choice == "all") := by
  have hidentity := identityDocument_allFinite w source pre
  obtain ⟨records, hrecords, hall⟩ := @runCases_of_passed args w _ hidentity _ hpassed
  have hpass : allPass records true = true := by
    rw [allPass, Bool.and_true, List.all_eq_true]
    exact fun record hrecord => beq_iff_eq.mpr (hall record hrecord)
  obtain ⟨bytes, hline⟩ := @exists_dumpLine w.repr { indent := some 2, allowNan := false } _
    (summaryDocument_allFinite args w hidentity records true)
  have hrun : runMatrix args w source pre =
      (evidenceWrites args w source pre ++ writeText "summary.json" bytes, .code 0) := by
    unfold runMatrix
    dsimp only
    rw [hrecords]
    simp only [finishMatrix, hunchanged, hline, hpass]
    rfl
  rw [hstarts.matrixMain_eq, hrun]
  refine ⟨rfl, ?_⟩
  obtain ⟨fields, hdocument, hstatus, hcomplete⟩ := exists_summaryDocument_eq args w
    (identityDocument w source pre) records true
  have hdump :=
    summaryDocument_dumpable hw args (identityDocument_dumpable w source pre) records true
  rw [hdocument] at hdump hline
  rw [hpass] at hstatus hcomplete
  refine ⟨fields, ?_, hstatus, by rw [hcomplete, Bool.and_true]⟩
  rw [dumpLine_eq_ok hline]
  exact readDocument_written hw hdump

/-- Hosts that run their kernels are all recorded as passed. -/
theorem selectedCases_passed {profiler : Option String} {choice : String}
    (hlaws : RowSumLaws engine (fillScaler scalerArgument) read)
    (hlimit : DigitLimit maxDigits)
    (hjson : ∀ text value, jsonLoads maxDigits text = some value →
      w.runner.jsonLoads text = .ok value)
    (hhosts : ∀ case ∈ selectedCases choice, ∃ env files digits,
      RunsHost engine w maxDigits profiler case env files digits)
    (hhash : repeatCase ∈ selectedCases choice → ∀ a ∈ repeatCase.uploads,
      ∀ b ∈ repeatCase.uploads,
        w.runner.sha256 (littleEndian a) = w.runner.sha256 (littleEndian b) → a = b) :
    ∀ case ∈ selectedCases choice, ∃ record,
      runCase w.runner case (w.child case).run = .ok record ∧ record.status = some "pass" := by
  intro case hcase
  have hmem := (selectedCases_sublist choice).mem hcase
  obtain ⟨env, files, digits, hhost⟩ := hhosts case hcase
  refine hhost.passes hlaws (allCases_valid case hmem) hlimit hjson fun hmany => ?_
  rcases allCases_repeats case hmem with hone | rfl
  · omega
  · exact ((allCases_valid _ hmem).nodup_uploadHashes_iff (hhash hcase)).mpr (Or.inl (by decide))

end Kernels

section Lab

/-- What the host prints of a case, on its kernels. -/
def labResult (case : Case) : MainResult :=
  main (kernelHost (.nearestEven binary64) case) (fun _ => none) (case.command none)

/-- Bytes in place of the simulator's. -/
def simulatorBytes : List Byte := [0x7f, 0x45, 0x4c, 0x46]

def labSource : SourceView where
  tree := { root := ["lab"], files := [(["NOTICE"], [0x0a])], distinct := by decide,
            separated := by decide }
  commit := some "aaaaaaaaaaaaaaaaaaaaaaaaaaaaaaaaaaaaaaaa"
  dirty := some false

def labArguments : Arguments where
  binary := true
  metalHome := true
  simulator := true
  choice := "all"
  choice_mem := by decide
  output := "/lab/results/"

def labMachine : Machine where
  os := "Linux"
  machine := "x86_64"
  python := "3.12.3"
  cache := some "/tmp/cache"
  profiler := none
  binary := ⟨true, .ok [0x00, 0x00]⟩
  executable := true
  simulatorName := "libttsim_wh.so"
  simulator := ⟨true, .ok simulatorBytes⟩
  metalHead := .ok metalCommit
  descriptor := ⟨true, .ok [0x80, 0x3f]⟩
  upstreamDescriptor := ⟨true, .ok [0x80, 0x3f]⟩

/-- The pinned hash for those bytes. -/
def labSha256 (bytes : List Byte) : String :=
  if bytes = simulatorBytes then "2686ebc212ea9753c0aecde74e640aff43efbe54db0322676627c3a0c1b14d81"
  else cellRunner.sha256 bytes

private theorem isDouble_zero : IsDouble 0 := by
  rw [IsDouble]
  decide +kernel

/-- A machine whose processes are those hosts. -/
def labWorld : World where
  runner := { cellRunner with sha256 := labSha256 }
  repr := exactRepr
  sum xs := if h : IsDouble (xs.foldl (· + ·) 0) then ⟨_, h⟩ else ⟨0, isDouble_zero⟩
  startedAt := "2026-09-09T00:00:00+00:00"
  caseStartedAt _ := "2026-09-09T00:00:01+00:00"
  finishedAt := "2026-09-09T00:00:02+00:00"
  machine := labMachine
  sourceBefore := .ok labSource
  sourceAfter := .ok labSource
  binaryAfter := .ok [0x00, 0x00]
  child case := .ended ⟨(labResult case).exitCode, false, 1⟩
    ((utf8Bytes (String.ofList ((labResult case).stdout doubleDigits))).map (Channel.stdout, ·))

def labPreflight : Preflight where
  upstreamCommit := metalCommit
  binarySha256 := "96a296d224f285c67bee93c30f8a309157f0daa35dc5b87e410b78630a09cfc7"
  simulatorAsset := "libttsim_wh.so"
  simulatorSha256 := "2686ebc212ea9753c0aecde74e640aff43efbe54db0322676627c3a0c1b14d81"
  socDescriptorSha256 := "b9c205bdac187f20bf876cea369cb6032ad1bf69043b31d716b36b8defbffdf2"

private theorem labWorld_reprReads :
    labWorld.ReprReads := ⟨exactRepr_ascii, fun _ => exactRepr_reads⟩

/-- The runner starts in this world. -/
theorem labWorld_starts : Starts labArguments labWorld [] labSource labPreflight where
  list := rfl
  timeout := rfl
  evidence _ _ := rfl
  logs := by simp
  found := rfl
  passed := by decide +kernel

/-- Each log holds what the host of its case printed. -/
theorem labWorld_runOf (case : Case) :
    RunOf labWorld.runner doubleDigits (labResult case) (labWorld.child case).run := by
  refine ⟨⟨1, rfl⟩, _, rfl, ?_⟩
  have hwritten : written .stdout ((utf8Bytes (String.ofList
      ((labResult case).stdout doubleDigits))).map (Channel.stdout, ·)) =
        utf8Bytes (String.ofList ((labResult case).stdout doubleDigits)) := by
    rw [written, List.filter_eq_self.mpr (by simp), List.map_map]
    exact List.map_id _
  have hread : labWorld.runner.readText = utf8Text := rfl
  rw [hread]
  exact (congrArg utf8Text hwritten).trans (utf8Text_utf8Bytes _)

/-- Each process is the host of its case on its kernels. -/
theorem labWorld_hosts : ∀ case ∈ selectedCases labArguments.choice, ∃ env files digits,
    RunsHost rationalEngine labWorld (some 4300) (profilerOf labArguments labWorld) case env files
      digits := by
  intro case hcase
  have hvalid := allCases_valid case ((selectedCases_sublist _).mem hcase)
  refine ⟨kernelHost (.nearestEven binary64) case, fun _ => none, doubleDigits, ?_⟩
  exact
    { inherits := rfl
      upload := projectUpstream_uploadAgrees
      untilize := projectUpstream_untilizeAgrees
      pinned := kernelHost_pinned _ case
      rounding := rfl
      kernels := kernelHost_runsKernels _ case
      readable := kernelHost_readable digitLimit_default hvalid
      run := labWorld_runOf case }

private theorem labSha256_of_length {bytes : List Byte} (h : 4 < bytes.length) :
    labSha256 bytes = String.ofList (encode bytes) := by
  have hne : ∀ {short : List Byte}, short.length ≤ 4 → bytes ≠ short := by
    rintro _ hshort rfl
    omega
  rw [labSha256, if_neg (hne (by decide)), cellRunner]
  dsimp only
  rw [if_neg (hne (by decide)), if_neg (hne (by decide))]

/-- The two uploads of the repeated case have their own hashes. -/
theorem labSha256_repeatCase : ∀ a ∈ repeatCase.uploads, ∀ b ∈ repeatCase.uploads,
    labSha256 (littleEndian a) = labSha256 (littleEndian b) → a = b := by
  have hlength : ∀ words ∈ repeatCase.uploads, 4 < (littleEndian words).length := by
    intro words hwords
    rw [length_littleEndian, (allCases_valid repeatCase (by decide)).length_of_mem_uploads hwords]
    decide
  intro a ha b hb heq
  rw [labSha256_of_length (hlength a ha), labSha256_of_length (hlength b hb)] at heq
  exact littleEndian_injective (encode_injective (String.ofList_injective heq))

/-- Nothing changes while it runs. -/
theorem labWorld_unchanged : sourcesUnchanged labWorld labSource labPreflight = .ok true := by
  have hbinary : labSha256 [0x00, 0x00] = labPreflight.binarySha256 := by decide
  simp only [sourcesUnchanged, unchangedSince, labWorld, ok_bind, if_true, hbinary, decide_true]
  rfl

end Lab

section Results

variable {args : Arguments} {w : World} {d : Disk}

/-- A run to its end returns zero exactly when it leaves a summary that reads as passed. -/
theorem matrixMain_status_iff (hw : w.ReprReads) (hlist : args.list = false)
    (hnew : d.lookup "summary.json" = none) :
    (matrixMain args w d).2.status = 0 ↔ ∃ fields,
      readDocument (Journal.run d (matrixMain args w d).1) "summary.json" = some (.dict fields) ∧
        Json.get fields "status" = .str "pass" := by
  rcases matrixMain_cases args w d with ⟨hnil, hend⟩ | ⟨_, source, hsource, hmain⟩
  · rw [hnil, readDocument, show Journal.run d [] = d from rfl, hnew]
    refine iff_of_false ?_ (by simp)
    rw [hend.resolve_left (by simp [hlist])]
    exact Nat.one_ne_zero
  rw [hmain]
  unfold recordEvidence
  cases hpre : preflight args w source with
  | error text =>
    refine iff_of_false (by simp [MatrixEnd.status]) ?_
    rintro ⟨fields, hread, hpass⟩
    have hwritten := @readDocument_written w.repr { indent := some 2 } d "summary.json" _
      (writeText "environment.json"
        (indentedBytes w.repr (unsupportedEnvironment args w source text)))
      hw (unsupportedSummary_dumpable _ text)
    obtain rfl := Json.dict.inj (Option.some.inj (hread.symm.trans hwritten))
    have hstatus : Json.str "unsupported" = .str "pass" := hpass
    exact absurd (Json.str.inj hstatus) (by decide)
  | ok pre =>
    dsimp only
    rcases runMatrix_cases args w source pre with
      ⟨e, hraised⟩ | ⟨records, unchanged, bytes, hrecords, hunchanged, hline, hfinished⟩
    · rw [hraised]
      refine iff_of_false (by simp [MatrixEnd.status]) ?_
      rintro ⟨fields, hread, _⟩
      rw [readDocument, lookup_run_of_avoids (avoids_evidenceWrites args w source pre),
        hnew] at hread
      cases hread
    · rw [hfinished]
      obtain ⟨written, hdocument, hstatus, _⟩ := exists_summaryDocument_eq args w
        (identityDocument w source pre) records unchanged
      have hdump :=
        summaryDocument_dumpable hw args (identityDocument_dumpable w source pre) records
        unchanged
      rw [hdocument] at hdump hline
      rw [dumpLine_eq_ok hline, readDocument_written hw hdump]
      cases hall : allPass records unchanged with
      | true =>
        rw [hall] at hstatus
        exact iff_of_true rfl ⟨written, rfl, hstatus⟩
      | false =>
        rw [hall] at hstatus
        refine iff_of_false (by simp [MatrixEnd.status]) ?_
        rintro ⟨fields, hread, hpass⟩
        obtain rfl := Json.dict.inj (Option.some.inj hread)
        exact absurd (Json.str.inj (hstatus.symm.trans hpass)) (by decide)

/-- The run over all cases returns zero where it leaves a passed summary. -/
theorem matrixMain_status_iff_lab :
    (matrixMain labArguments labWorld []).2.status = 0 ↔ ∃ fields,
      readDocument (Journal.run [] (matrixMain labArguments labWorld []).1) "summary.json" =
        some (.dict fields) ∧ Json.get fields "status" = .str "pass" :=
  matrixMain_status_iff labWorld_reprReads rfl rfl

/-- On hosts that run their kernels every selected case passes: the runner returns zero and leaves
a summary that reads as passed, complete where all cases are selected. -/
theorem matrix_onKernels {Dest : Type} {engine : TileEngine (List Bf16Word) Dest}
    {read : Dest → ℕ → ℕ → ℚ} {source : SourceView} {pre : Preflight}
    (hlaws : RowSumLaws engine (fillScaler scalerArgument) read)
    (hw : w.ReprReads) (hstarts : Starts args w d source pre)
    (hlimit : DigitLimit maxDigits)
    (hjson : ∀ text value, jsonLoads maxDigits text = some value →
      w.runner.jsonLoads text = .ok value)
    (hhosts : ∀ case ∈ selectedCases args.choice, ∃ env files digits,
      RunsHost engine w maxDigits (profilerOf args w) case env files digits)
    (hhash : repeatCase ∈ selectedCases args.choice → ∀ a ∈ repeatCase.uploads,
      ∀ b ∈ repeatCase.uploads,
        w.runner.sha256 (littleEndian a) = w.runner.sha256 (littleEndian b) → a = b)
    (hunchanged : sourcesUnchanged w source pre = .ok true) :
    (matrixMain args w d).2 = .code 0 ∧ ∃ fields,
      readDocument (Journal.run d (matrixMain args w d).1) "summary.json" = some (.dict fields) ∧
      Json.get fields "status" = .str "pass" ∧
      Json.get fields "matrix_complete" = .bool (args.choice == "all") :=
  hstarts.matrixMain_passed hw (selectedCases_passed hlaws hlimit hjson hhosts hhash) hunchanged

/-- The run over all cases passes, and its summary is complete. -/
theorem matrix_onKernels_lab :
    (matrixMain labArguments labWorld []).2 = .code 0 ∧ ∃ fields,
      readDocument (Journal.run [] (matrixMain labArguments labWorld []).1) "summary.json" =
        some (.dict fields) ∧
      Json.get fields "status" = .str "pass" ∧
      Json.get fields "matrix_complete" = .bool true :=
  matrix_onKernels (rationalEngine_laws (fillScaler scalerArgument)) labWorld_reprReads
    labWorld_starts digitLimit_default cellRunner_jsonLoads labWorld_hosts
    (fun _ => labSha256_repeatCase)
    labWorld_unchanged

/-- However often the runner was started and interrupted: a summary that reads as passed stands
beside the whole evidence of one run. -/
theorem summary_vouches {launches : List MatrixLaunch} {d : Disk}
    (hrepr : ∀ l ∈ launches, l.world.ReprReads) (hnew : d.lookup "summary.json" = none)
    {fields : List (String × Json)}
    (hread : readDocument (session d (launches.map MatrixLaunch.attempt)) "summary.json" =
      some (.dict fields))
    (hpass : Json.get fields "status" = .str "pass") :
    ∃ l ∈ launches, ∃ source pre entries, l.world.sourceBefore = .ok source ∧
      PassingEvidence l.args l.world source pre entries
        (session d (launches.map MatrixLaunch.attempt)) ∧
      (Json.get fields "matrix_complete" = .bool true ↔ l.args.choice = "all") := by
  rcases session_matrix launches d with h | ⟨l, hl, h⟩
  · rw [h, readDocument, hnew] at hread
    cases hread
  have hw := hrepr l hl
  rw [h] at hread ⊢
  rcases matrixMain_cases l.args l.world d with ⟨hnil, _⟩ | ⟨_, source, hsource, hmain⟩
  · rw [hnil, List.take_nil] at hread
    rw [readDocument, show Journal.run d [] = d from rfl, hnew] at hread
    cases hread
  rw [hmain] at hread ⊢
  unfold recordEvidence at hread ⊢
  cases hpre : preflight l.args l.world source with
  | error text =>
    rw [hpre] at hread
    obtain ⟨hvalue, _⟩ := readDocument_writeText hw (unsupportedSummary_dumpable _ text) hnew
      (avoids_writeText (by decide) _) hread
    obtain rfl := Json.dict.inj hvalue
    have hstatus : Json.str "unsupported" = .str "pass" := hpass
    exact absurd (Json.str.inj hstatus) (by decide)
  | ok pre =>
    rw [hpre] at hread
    dsimp only at hread ⊢
    rcases runMatrix_cases l.args l.world source pre with
      ⟨e, hraised⟩ | ⟨records, unchanged, bytes, hrecords, hunchanged, hline, hfinished⟩
    · rw [hraised, readDocument_of_avoids hnew (avoids_evidenceWrites _ _ _ _)] at hread
      cases hread
    · rw [hfinished] at hread ⊢
      obtain ⟨written, hdocument, hstatus, hcomplete⟩ := exists_summaryDocument_eq l.args l.world
        (identityDocument l.world source pre) records unchanged
      have hdump := summaryDocument_dumpable hw l.args
        (identityDocument_dumpable l.world source pre) records unchanged
      rw [hdocument] at hdump hline
      rw [dumpLine_eq_ok hline] at hread ⊢
      obtain ⟨hvalue, content, hrun⟩ := readDocument_writeText hw hdump hnew
        (avoids_evidenceWrites _ _ _ _) hread
      obtain rfl := Json.dict.inj hvalue
      rw [hstatus] at hpass
      have hall : allPass records unchanged = true := by
        by_contra hfail
        rw [if_neg hfail] at hpass
        exact absurd (Json.str.inj hpass) (by decide)
      obtain ⟨hrecordsPass, rfl⟩ := Bool.and_eq_true_iff.mp hall
      obtain ⟨entries, _, hevidence⟩ :=
        @passingEvidence_of_finished l.args l.world d source pre records
        hpre hrecords hunchanged (by simpa using hrecordsPass) content
      refine ⟨l, hl, source, pre, entries, hsource, ?_, ?_⟩
      · dsimp only at hrun ⊢
        rw [hrun]
        exact hevidence
      · rw [hcomplete, hall, Bool.and_true]
        simp

/-- A run interrupted before its first write, and one to its end. -/
def secondLaunch (args : Arguments) (w : World) : List MatrixLaunch :=
  [⟨args, w, 0⟩, ⟨args, w, (matrixMain args w []).1.length⟩]

/-- Only the second launch leaves something behind. -/
theorem session_secondLaunch (args : Arguments) (w : World) :
    session [] ((secondLaunch args w).map MatrixLaunch.attempt) =
      Journal.run [] (matrixMain args w []).1 := by
  change Journal.run [] ((matrixMain args w []).1.take (matrixMain args w []).1.length) = _
  rw [List.take_length]

/-- The summary it leaves vouches for the evidence beside it. -/
theorem summary_vouches_lab : ∃ source pre entries,
    PassingEvidence labArguments labWorld source pre entries
      (session [] ((secondLaunch labArguments labWorld).map MatrixLaunch.attempt)) := by
  obtain ⟨_, fields, hread, hpass, _⟩ := labWorld_starts.matrixMain_passed labWorld_reprReads
    (selectedCases_passed (rationalEngine_laws (fillScaler scalerArgument)) digitLimit_default
      cellRunner_jsonLoads labWorld_hosts fun _ => labSha256_repeatCase) labWorld_unchanged
  have hlaunch : ∀ l ∈ secondLaunch labArguments labWorld,
      l.args = labArguments ∧ l.world = labWorld := by
    simp [secondLaunch]
  have hrepr : ∀ l ∈ secondLaunch labArguments labWorld, l.world.ReprReads := fun l hl => by
    rw [(hlaunch l hl).2]
    exact labWorld_reprReads
  rw [← session_secondLaunch] at hread
  obtain ⟨l, hl, source, pre, entries, _, hevidence, _⟩ := summary_vouches hrepr rfl hread hpass
  obtain ⟨hargs, hworld⟩ := hlaunch l hl
  rw [hargs, hworld] at hevidence
  exact ⟨source, pre, entries, hevidence⟩

end Results

end RowReduce
