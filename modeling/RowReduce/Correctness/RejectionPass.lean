import RowReduce.Correctness.MatrixPass
import RowReduce.Correctness.RejectionRun

/-!
# Which rejection runs complete

The project's host rejects every required command before the device, and its run
of rejections completes; a summary that reads as complete vouches for the rest.
-/

namespace RowReduce

open BinaryFloat Fallible Hexadecimal Journal

section Commands

variable {env : HostEnv} {files : String → Option InputFile} {args : List String} {o : Options}

/-- Whatever input the options ask for is refused. -/
def RefusedInput (files : String → Option InputFile) (o : Options) : Prop :=
  o.nodes = 1 → ∀ values, originalInput files o = .ok values → ¬AcceptedValues o.shape values

/-- Any other number of nodes is refused. -/
theorem refusedInput_of_nodes (h : o.nodes ≠ 1) : RefusedInput files o := fun hnodes =>
  absurd hnodes h

/-- So is an invalid shape. -/
theorem refusedInput_of_shape (h : ¬o.shape.Valid) : RefusedInput files o := fun _ _ _ haccept =>
  h haccept.shape_valid

/-- The values of an opened file are refused where they do not fit the shape or the contract. -/
theorem refusedInput_of_file {shape : Shape} {path text : String} (values : List Float32)
    (hpath : path ≠ "") (hfile : files path = some ⟨text, true⟩)
    (hread : readInputFile (some ⟨text, true⟩) = .ok values)
    (hrefused : ¬AcceptedValues shape values) :
    RefusedInput files { shape, inputFile := path } := by
  intro _ found hfound
  rw [originalInput, if_neg hpath, hfile, hread] at hfound
  obtain rfl := Except.ok.inj hfound
  exact hrefused

private theorem not_acceptedValues_of_length {shape : Shape} {values : List Float32}
    (h : values.length ≠ shape.rows * shape.cols) : ¬AcceptedValues shape values := fun haccept =>
  h haccept.length

private theorem not_acceptedValues_singleton {shape : Shape} {v : Float32}
    (h : checkValue v ≠ .ok ()) :
    ¬AcceptedValues shape [v] := fun haccept =>
  h (checkValue_eq_ok_iff.mpr ⟨haccept.finite v (List.mem_singleton_self v),
    haccept.inContract v (List.mem_singleton_self v)⟩)

/-- A refused input ends before the device. -/
theorem beforeDevice_of_refusedInput (hparse : parseOptions args = .ok o)
    (hrefused : RefusedInput files o) : ∃ e, beforeDevice env files args = .error e := by
  cases hbefore : beforeDevice env files args with
  | error e => exact ⟨e, rfl⟩
  | ok result =>
    exfalso
    obtain ⟨options, hoptions, hbefore⟩ := bind_eq_ok_iff.mp hbefore
    obtain rfl : options = o := Except.ok.inj (hoptions.symm.trans hparse)
    obtain ⟨values, hvalues, hbefore⟩ := bind_eq_ok_iff.mp hbefore
    obtain ⟨prepared, hprepared, _⟩ := bind_eq_ok_iff.mp hbefore
    obtain ⟨hnodes, haccept, _⟩ := (prepareInput_eq_ok_iff env.rd).mp hprepared
    exact hrefused hnodes values hvalues haccept

private theorem fixture_path_ne (directory : String) (case : RejectionCase) :
    directory ++ case.fixture ≠ "" := by
  intro h
  have htext := congrArg String.toList h
  rw [String.toList_append, case.fixture_toList] at htext
  simp at htext

/-- Every required command is parsed and its input refused, where its input file is found. -/
theorem exists_refusedInput {directory : String} : ∀ case ∈ rejectionCases 8,
    (∀ text, case.inputText = some text →
      files (directory ++ case.fixture) = some ⟨text, true⟩) →
    ∃ o, parseOptions (case.command directory) = .ok o ∧ RefusedInput files o := by
  have hsize : toString (2 ^ (8 * 8) - 1) = "18446744073709551615" := by decide +kernel
  have hlarge : parseOptions ["--rows", "18446744073709551615", "--cols", "2"] =
      .ok { shape := ⟨sizeMax, 2⟩ } := by decide +kernel
  rw [rejectionCases, hsize]
  simp only [List.forall_mem_cons]
  refine ⟨?_, ?_, ?_, ?_, ?_, ?_, ?_, ?_, ?_, ?_, ?_, ?_, ?_, ?_, by simp⟩
  · exact fun _ => ⟨{ shape := ⟨0, 32⟩ }, rfl, refusedInput_of_shape (by decide)⟩
  · exact fun _ => ⟨{ shape := ⟨32, 0⟩ }, rfl, refusedInput_of_shape (by decide)⟩
  · exact fun _ => ⟨{ shape := ⟨129, 1⟩ }, rfl, refusedInput_of_shape (by decide)⟩
  · exact fun _ => ⟨{ shape := ⟨1, 129⟩ }, rfl, refusedInput_of_shape (by decide)⟩
  · exact fun _ => ⟨{ shape := ⟨sizeMax, 2⟩ }, hlarge, refusedInput_of_shape (by decide)⟩
  · exact fun _ => ⟨{ shape := ⟨1, 1⟩, nodes := 0 }, rfl, refusedInput_of_nodes (by decide)⟩
  · exact fun _ => ⟨{ shape := ⟨1, 1⟩, nodes := 2 }, rfl, refusedInput_of_nodes (by decide)⟩
  · exact fun h => ⟨{ shape := ⟨1, 1⟩, inputFile := _ }, rfl, refusedInput_of_file [0x7fc00000#32]
      (fixture_path_ne directory _) (h _ rfl) (by decide +kernel)
      (not_acceptedValues_singleton (by decide +kernel))⟩
  · exact fun h => ⟨{ shape := ⟨1, 1⟩, inputFile := _ }, rfl, refusedInput_of_file [0x7f800000#32]
      (fixture_path_ne directory _) (h _ rfl) (by decide +kernel)
      (not_acceptedValues_singleton (by decide +kernel))⟩
  · exact fun h => ⟨{ shape := ⟨1, 1⟩, inputFile := _ }, rfl, refusedInput_of_file [0x40000000#32]
      (fixture_path_ne directory _) (h _ rfl) (by decide +kernel)
      (not_acceptedValues_singleton (by decide +kernel))⟩
  · exact fun h => ⟨{ shape := ⟨1, 1⟩, inputFile := _ }, rfl, refusedInput_of_file [0x3a83126f#32]
      (fixture_path_ne directory _) (h _ rfl) (by decide +kernel)
      (not_acceptedValues_singleton (by decide +kernel))⟩
  · exact fun h => ⟨{ shape := ⟨1, 2⟩, inputFile := _ }, rfl, refusedInput_of_file [0x3f800000#32]
      (fixture_path_ne directory _) (h _ rfl) (by decide +kernel)
      (not_acceptedValues_of_length (by decide))⟩
  · exact fun h => ⟨{ shape := ⟨1, 1⟩, inputFile := _ }, rfl,
      refusedInput_of_file [0x3f800000#32, 0#32] (fixture_path_ne directory _) (h _ rfl)
        (by decide +kernel)
      (not_acceptedValues_of_length (by decide))⟩
  · exact fun h => ⟨{ shape := ⟨1, 1⟩, inputFile := _ }, rfl, refusedInput_of_file []
      (fixture_path_ne directory _) (h _ rfl) (by decide +kernel)
      (not_acceptedValues_of_length (by decide))⟩

end Commands

section Verdict

variable {w : RejectionWorld} {identity : Json} {case : RejectionCase}

/-- A recordable rejection is recorded with its members. -/
theorem classifyRejection_recordable (maxDigits : Option ℕ) (problem : String → String)
    {e : HostException}
    (h : Recordable e.what) (hblank : e.what.toList.all isPySpace = false) :
    classifyRejection maxDigits problem 2 false [] (translateNewlines (errorRecord true e).line) =
      { status := "pass",
        hostError := some ((rejectionMembers e.what).map fun p => (p.1, p.2.2)) } := by
  have hmembers : classifyHostError ((rejectionMembers e.what).map fun p => (p.1, p.2.2)) =
      { status := "pass",
        hostError := some ((rejectionMembers e.what).map fun p => (p.1, p.2.2)) } := by
    have hbefore : Json.get ((rejectionMembers e.what).map fun p => (p.1, p.2.2)) "before_device" =
        .bool true := rfl
    have hstatus : Json.get ((rejectionMembers e.what).map fun p => (p.1, p.2.2)) "status" =
        .str "invalid-input" := rfl
    have hmessage : Json.get ((rejectionMembers e.what).map fun p => (p.1, p.2.2)) "message" =
        .str e.what := rfl
    rw [classifyHostError, hbefore, hstatus, hmessage]
    simp [hblank]
  have hresult : ¬resultPrefix.toList <:+: [] ++ '\n' :: (errorRecord true e).line :=
    mt (resultPrefix_infix_iff e).mp h.1
  have htexts := errorTexts_whole h.2
  rw [translateNewlines_errorRecord]
  unfold classifyRejection
  simp only [Bool.false_eq_true, if_false, ne_eq, not_true_eq_false, hresult]
  rw [List.nil_append, htexts]
  simp only [jsonLoads_whole, hmembers]

/-- The process of a case is the host, which finds the input file; its logs hold what it printed. -/
structure RejectsHost (args : RejectionArguments) (w : RejectionWorld) (case : RejectionCase)
    (env : HostEnv) (files : String → Option InputFile) (digits : ℚ → String) : Prop where
  input : ∀ text, case.inputText = some text →
    files (args.output ++ case.fixture) = some ⟨text, true⟩
  run : ∃ elapsed writes, w.child case = .ended
      ⟨(main env files (case.command args.output)).exitCode, false, elapsed⟩ writes ∧
    w.decode (written .stdout writes) =
      (main env files (case.command args.output)).stdout digits ∧
    w.decode (written .stderr writes) = (main env files (case.command args.output)).stderr

/-- Such a process is recorded as passed, with the members of its rejection. -/
theorem RejectsHost.classify_eq {args : RejectionArguments} {env : HostEnv}
    {files : String → Option InputFile} {digits : ℚ → String} (hcase : case ∈ rejectionCases 8)
    (h : RejectsHost args w case env files digits) :
    ∃ message, w.classify (w.child case) =
      { status := "pass",
        hostError := some ((rejectionMembers message).map fun p => (p.1, p.2.2)) } := by
  obtain ⟨o, hparse, hrefused⟩ := exists_refusedInput case hcase h.input
  obtain ⟨error, herror⟩ := @beforeDevice_of_refusedInput env _ _ _ hparse hrefused
  rcases main_cases env files (case.command args.output) with
    ⟨e, hbefore, hmain⟩ | ⟨haccepted, _⟩
  · obtain ⟨hblank, hrecordable⟩ :=
      recordable_of_quotesOption (beforeDevice_quotesOption env files _ e hbefore)
    have hquoted : Recordable e.what := hrecordable.mpr fun flag hflag => by
      rw [rejectedFlag_of_parseOptions hparse] at hflag
      cases hflag
    obtain ⟨elapsed, writes, hchild, hstdout, hstderr⟩ := h.run
    rw [hmain] at hchild hstdout hstderr
    have hout : w.decode (written .stdout writes) = [] := hstdout
    have herr : w.decode (written .stderr writes) = (errorRecord true e).line :=
      hstderr.trans (List.append_nil _)
    refine ⟨e.what, ?_⟩
    rw [hchild, RejectionWorld.classify, RejectionWorld.readLog, RejectionWorld.readLog, hout, herr]
    exact classifyRejection_recordable w.maxDigits w.problem hquoted hblank
  · exfalso
    rcases haccepted with hhelp | ⟨result, hresult⟩
    · have hnone := rejectedFlag_of_parseOptions hparse
      rw [hhelp] at hnone
      cases hnone
    · rw [herror] at hresult
      cases hresult

private theorem rejectionMembers_allFinite (message : String) :
    (Json.dict ((rejectionMembers message).map fun p => (p.1, p.2.2))).allFinite = true := rfl

private theorem rejectionIdentity_allFinite (w : RejectionWorld) (source : SourceView)
    (binarySha256 : String) : (rejectionIdentity w source binarySha256).allFinite = true := by
  rw [rejectionIdentity]
  cases source.commit <;> cases source.dirty <;> rfl

private theorem outcomeFields_allFinite {c : Classification} {child : Child}
    (h : ∀ fields, c.hostError = some fields → (Json.dict fields).allFinite = true) :
    ∀ p ∈ outcomeFields c child, p.2.allFinite = true := by
  obtain ⟨status, error, hostError⟩ := c
  cases child <;> cases error <;> cases hostError <;>
    simp_all [outcomeFields, Classification.fields, Json.allFinite, FloatValue.isFinite]

/-- The document of a rejection holds finite numbers only. -/
theorem rejectionDocument_allFinite {c : Classification} (hidentity : identity.allFinite = true)
    (h : ∀ fields, c.hostError = some fields → (Json.dict fields).allFinite = true) :
    (rejectionDocument w identity case c).allFinite = true := by
  have hcommand : (Json.list (("<binary>" :: case.command "").map .str)).allFinite = true := by
    rw [Json.allFinite, itemsFinite_iff]
    intro item hitem
    obtain ⟨s, _, rfl⟩ := List.mem_map.mp hitem
    rfl
  have hinput : ∀ p ∈ inputFields w case, p.2.allFinite = true := by
    unfold inputFields
    cases case.inputText <;> simp [Json.allFinite]
  have hlogs : (Json.dict (rejectionHashes w case (w.child case).run)).allFinite = true := by
    rw [Json.allFinite, fieldsFinite_iff]
    intro p hp
    obtain ⟨entry, _, hentry⟩ := List.mem_filterMap.mp hp
    obtain ⟨bytes, _, rfl⟩ := Option.map_eq_some_iff.mp hentry
    rfl
  have hexit := @outcomeFields_allFinite c (w.child case) h
  rw [rejectionDocument, Json.allFinite, fieldsFinite_iff]
  simp only [List.forall_mem_append, List.forall_mem_cons, hidentity, hcommand, hlogs,
    List.not_mem_nil, false_imp_iff, implies_true, and_true, true_and]
  exact ⟨⟨⟨⟨rfl, rfl, rfl, rfl, rfl, rfl, rfl, rfl⟩, hinput⟩, rfl, rfl⟩, hexit⟩

/-- A case on the host gets its line. -/
theorem RejectsHost.exists_rejectionLine {args : RejectionArguments} {env : HostEnv}
    {files : String → Option InputFile} {digits : ℚ → String} (hcase : case ∈ rejectionCases 8)
    (hidentity : identity.allFinite = true) (h : RejectsHost args w case env files digits) :
    ∃ entry, rejectionLine w identity case = .ok entry ∧ entry.1.status = "pass" := by
  obtain ⟨message, hclassify⟩ := h.classify_eq hcase
  have hfinite : ∀ fields, (w.classify (w.child case)).hostError = some fields →
      (Json.dict fields).allFinite = true := by
    intro fields hfields
    rw [hclassify] at hfields
    obtain rfl := Option.some.inj hfields
    exact rejectionMembers_allFinite message
  obtain ⟨line, hline⟩ := @exists_dumpLine w.repr { allowNan := false } _
    (@rejectionDocument_allFinite w identity case _ hidentity hfinite)
  refine ⟨(w.classify (w.child case), line), ?_, by rw [hclassify]⟩
  rw [rejectionLine]
  simp only [hline]
  rfl

end Verdict

/-- The program starts its processes: the directory is absent and the preflight passes. -/
structure RejectionStarts (args : RejectionArguments) (w : RejectionWorld) (d : Disk)
    (source : SourceView) (raw : List Byte) : Prop where
  timeout : timeoutValid args.timeout = true
  absent : d.lookup "." = none
  found : w.sourceBefore = .ok source
  isFile : w.binary.isFile = true
  executable : w.executable = true
  cwd : w.cwdIsDirectory = true
  bytes : w.binary.bytes = .ok raw

section Complete

variable {args : RejectionArguments} {w : RejectionWorld} {d : Disk} {source : SourceView}
  {raw : List Byte}

/-- What is recorded where the binary is in place. -/
theorem recordRejections_eq (hfile : w.binary.isFile = true) (hexecutable : w.executable = true)
    (hcwd : w.cwdIsDirectory = true) (hbytes : w.binary.bytes = .ok raw) :
    recordRejections args w source = finishRejections args w source (w.sha256 raw) := by
  rw [recordRejections, hfile, hexecutable, hcwd, hbytes]
  simp

/-- What the recorder writes where it starts. -/
theorem RejectionStarts.rejectionMain_eq (h : RejectionStarts args w d source raw) :
    rejectionMain args w d =
      (rejectionDirectories ++ (finishRejections args w source (w.sha256 raw)).1,
        (finishRejections args w source (w.sha256 raw)).2) := by
  rw [rejectionMain, h.timeout, h.absent, h.found]
  simp only [Bool.true_eq_false, if_false, Option.isSome_none, Bool.false_eq_true,
    recordRejections_eq h.isFile h.executable h.cwd h.bytes]

/-- Where every process is the host, every case gets a line that passed. -/
theorem rejectionLines_of_hosts (source : SourceView) (binarySha256 : String)
    (hpointers : w.pointerBytes = 8)
    (hhosts : ∀ case ∈ rejectionCases w.pointerBytes, ∃ env files digits,
      RejectsHost args w case env files digits) :
    ∀ case ∈ rejectionCases w.pointerBytes, ∃ entry,
      rejectionLine w (rejectionIdentity w source binarySha256) case = .ok entry ∧
        entry.1.status = "pass" := by
  intro case hcase
  obtain ⟨env, files, digits, hhost⟩ := hhosts case hcase
  rw [hpointers] at hcase
  exact hhost.exists_rejectionLine hcase (rejectionIdentity_allFinite w source binarySha256)

/-- Where every case passed and nothing changes, the summary reads as complete. -/
theorem RejectionStarts.rejectionMain_passed (hrepr : ReprReads w.repr)
    (hstarts : RejectionStarts args w d source raw)
    (hlines : ∀ case ∈ rejectionCases w.pointerBytes, ∃ entry,
      rejectionLine w (rejectionIdentity w source (w.sha256 raw)) case = .ok entry ∧
        entry.1.status = "pass")
    (hunchanged : unchangedSince w.sha256 source (w.sha256 raw) w.sourceAfter w.binaryAfter =
      .ok true) :
    (rejectionMain args w d).2 = .code 0 ∧ ∃ fields,
      readDocument (Journal.run d (rejectionMain args w d).1) "summary.json" =
        some (.dict fields) ∧
      Json.get fields "rejection_matrix_complete" = .bool true ∧
      Json.get fields "executed_processes" = .int 14 := by
  obtain ⟨records, hrecords, hlength, hall⟩ :=
    recordLines_of_forall (P := fun record : Classification => record.status = "pass") hlines
  have hpass : allRejected records true = true := by
    rw [allRejected, Bool.true_and, List.all_eq_true]
    exact fun record hrecord => beq_iff_eq.mpr (hall record hrecord)
  have hrun : finishRejections args w source (w.sha256 raw) =
      (rejectionEvidenceWrites args w source (w.sha256 raw) ++ writeText "summary.json"
        (indentedBytes w.repr (rejectionSummary w (rejectionIdentity w source (w.sha256 raw))
          records true)), .code 0) := by
    have hloop : (runRejections w (rejectionIdentity w source (w.sha256 raw))).2 = .ok records :=
      hrecords
    unfold finishRejections
    dsimp only
    rw [hloop, hunchanged]
    simp only [hpass, if_true]
  rw [hstarts.rejectionMain_eq, hrun]
  refine ⟨rfl, ?_⟩
  obtain ⟨fields, hdocument, _, hcomplete, hprocesses⟩ := exists_rejectionSummary_eq w
    (rejectionIdentity w source (w.sha256 raw)) records true
  have hdump := rejectionSummary_dumpable (rejectionIdentity_dumpable w source (w.sha256 raw))
    records true
  have hfourteen : (rejectionCases w.pointerBytes).length = 14 := rfl
  rw [hdocument] at hdump ⊢
  rw [hpass] at hcomplete
  rw [hlength, hfourteen] at hprocesses
  refine ⟨fields, ?_, hcomplete, hprocesses⟩
  rw [← List.append_assoc]
  exact readDocument_written hrepr hdump

end Complete

section Sample

/-- The input files below a directory. -/
def inputsBelow (directory path : String) : Option InputFile :=
  ((rejectionCases 8).find? fun case => directory ++ case.fixture == path).bind fun case =>
    case.inputText.map fun text => ⟨text, true⟩

def sampleOutput : RejectionArguments where
  output := "/lab/out/"

/-- The host on a command. -/
def rejectedResult (case : RejectionCase) : MainResult :=
  main idleEnv (inputsBelow sampleOutput.output) (case.command sampleOutput.output)

def hostText (result : MainResult) : Channel → List Char
  | .stdout => result.stdout doubleDigits
  | .stderr => result.stderr

/-- What the host writes, one channel after the other. -/
def hostWrites (result : MainResult) : List (Channel × Byte) :=
  (utf8Bytes (String.ofList (hostText result .stdout))).map (Channel.stdout, ·) ++
    (utf8Bytes (String.ofList (hostText result .stderr))).map (Channel.stderr, ·)

/-- Each channel has its own text. -/
theorem written_hostWrites (result : MainResult) (channel : Channel) :
    written channel (hostWrites result) = utf8Bytes (String.ofList (hostText result channel)) := by
  cases channel <;> simp [written, hostWrites, List.filter_map, Function.comp_def]

/-- A machine whose processes are the host. -/
def rejectionWorld : RejectionWorld where
  sha256 := labSha256
  decode bytes := (utf8Text bytes).toList
  maxDigits := some 4300
  problem _ := ""
  repr := exactRepr
  pointerBytes := 8
  startedAt := "2026-09-09T00:00:00+00:00"
  caseStartedAt _ := "2026-09-09T00:00:01+00:00"
  finishedAt := "2026-09-09T00:00:02+00:00"
  os := "Linux"
  machine := "x86_64"
  python := "3.12.3"
  binary := ⟨true, .ok [0x00, 0x00]⟩
  executable := true
  cwdIsDirectory := true
  sourceBefore := .ok labSource
  sourceAfter := .ok labSource
  binaryAfter := .ok [0x00, 0x00]
  child case := .ended ⟨(rejectedResult case).exitCode, false, 1⟩ (hostWrites (rejectedResult case))

private theorem rejectionWorld_reprReads : ReprReads rejectionWorld.repr :=
  ⟨exactRepr_ascii, fun _ => exactRepr_reads⟩

private theorem rejectionWorld_starts :
    RejectionStarts sampleOutput rejectionWorld [] labSource [0x00, 0x00] :=
  ⟨rfl, rfl, rfl, rfl, rfl, rfl, rfl⟩

/-- Each fixture is found below the directory. -/
theorem inputsBelow_fixture : ∀ case ∈ rejectionCases 8, ∀ text, case.inputText = some text →
    inputsBelow sampleOutput.output (sampleOutput.output ++ case.fixture) = some ⟨text, true⟩ := by
  have hfound : ∀ case ∈ rejectionCases 8,
      (inputsBelow sampleOutput.output (sampleOutput.output ++ case.fixture)).map
        (fun file => (file.text, file.complete)) = case.inputText.map fun text => (text, true) := by
    decide +kernel
  intro case hcase text htext
  have hfile := hfound case hcase
  rw [htext] at hfile
  obtain ⟨⟨found, complete⟩, hsome, hpair⟩ := Option.map_eq_some_iff.mp hfile
  obtain ⟨rfl, rfl⟩ := Prod.mk.inj hpair
  exact hsome

/-- Each process is the host on its command. -/
theorem rejectionWorld_hosts : ∀ case ∈ rejectionCases rejectionWorld.pointerBytes,
    ∃ env files digits, RejectsHost sampleOutput rejectionWorld case env files digits := by
  intro case hcase
  have hdecode : ∀ text : List Char,
      rejectionWorld.decode (utf8Bytes (String.ofList text)) = text := by
    intro text
    change (utf8Text (utf8Bytes (String.ofList text))).toList = text
    rw [utf8Text_utf8Bytes, String.toList_ofList]
  refine ⟨idleEnv, inputsBelow sampleOutput.output, doubleDigits, inputsBelow_fixture case hcase,
    1, hostWrites (rejectedResult case), rfl, ?_, ?_⟩
  · rw [written_hostWrites]
    exact hdecode _
  · rw [written_hostWrites]
    exact hdecode _

/-- Nothing changes while it runs. -/
theorem rejectionWorld_unchanged : unchangedSince rejectionWorld.sha256 labSource
    (rejectionWorld.sha256 [0x00, 0x00]) rejectionWorld.sourceAfter rejectionWorld.binaryAfter =
      .ok true := by
  simp only [unchangedSince, rejectionWorld, ok_bind, if_true, decide_true]
  rfl

end Sample

section Results

variable {args : RejectionArguments} {w : RejectionWorld} {d : Disk}

/-- With the project's host behind every process, whatever device and environment it finds, the run
returns zero and leaves a summary that reads as complete. -/
theorem rejections_onHost {source : SourceView} {raw : List Byte} (hrepr : ReprReads w.repr)
    (hstarts : RejectionStarts args w d source raw) (hpointers : w.pointerBytes = 8)
    (hhosts : ∀ case ∈ rejectionCases w.pointerBytes, ∃ env files digits,
      RejectsHost args w case env files digits)
    (hunchanged : unchangedSince w.sha256 source (w.sha256 raw) w.sourceAfter w.binaryAfter =
      .ok true) :
    (rejectionMain args w d).2 = .code 0 ∧ ∃ fields,
      readDocument (Journal.run d (rejectionMain args w d).1) "summary.json" =
        some (.dict fields) ∧
      Json.get fields "rejection_matrix_complete" = .bool true ∧
      Json.get fields "executed_processes" = .int 14 :=
  hstarts.rejectionMain_passed hrepr (rejectionLines_of_hosts source _ hpointers hhosts) hunchanged

/-- All fourteen commands are refused, and the summary is complete. -/
theorem rejections_onHost_idle : (rejectionMain sampleOutput rejectionWorld []).2 = .code 0 ∧
    ∃ fields, readDocument (Journal.run [] (rejectionMain sampleOutput rejectionWorld []).1)
        "summary.json" = some (.dict fields) ∧
      Json.get fields "rejection_matrix_complete" = .bool true ∧
      Json.get fields "executed_processes" = .int 14 :=
  rejections_onHost rejectionWorld_reprReads rejectionWorld_starts rfl rejectionWorld_hosts
    rejectionWorld_unchanged

/-- However often the program was started and interrupted: a summary that reads as complete stands
beside the whole evidence of one run, in which every process rejected its command. -/
theorem rejections_vouch {launches : List RejectionLaunch}
    (hrepr : ∀ l ∈ launches, ReprReads l.world.repr) (hnew : d.lookup "summary.json" = none)
    {fields : List (String × Json)}
    (hread : readDocument (session d (launches.map RejectionLaunch.attempt)) "summary.json" =
      some (.dict fields))
    (hcomplete : Json.get fields "rejection_matrix_complete" = .bool true) :
    ∃ l ∈ launches, ∃ source raw entries, l.world.sourceBefore = .ok source ∧
      RejectionEvidence l.args l.world source raw entries
        (session d (launches.map RejectionLaunch.attempt)) := by
  rcases session_rejections launches d with h | ⟨l, hl, h⟩
  · rw [h, readDocument, hnew] at hread
    cases hread
  have hw := hrepr l hl
  rw [h] at hread ⊢
  have hdirectories : Avoids "summary.json" rejectionDirectories := by
    simp [rejectionDirectories, Avoids, Effect.name]
  rcases rejectionMain_cases l.args l.world d with hnil | ⟨_, hmade | ⟨source, hsource, hmain⟩⟩
  · rw [hnil, readDocument_of_avoids hnew fun e he => absurd he List.not_mem_nil] at hread
    cases hread
  · rw [hmade, readDocument_of_avoids hnew hdirectories] at hread
    cases hread
  rw [hmain] at hread ⊢
  unfold recordRejections at hread ⊢
  by_cases hunsupported : l.world.binary.isFile = false ∨ l.world.executable = false ∨
      l.world.cwdIsDirectory = false
  · rw [if_pos hunsupported] at hread
    dsimp only at hread
    rw [← List.append_assoc] at hread
    obtain ⟨hvalue, _⟩ := readDocument_writeText hw (unsupportedRejections_dumpable _) hnew
      (avoids_append_iff.mpr ⟨hdirectories, avoids_writeText (by decide) _⟩) hread
    obtain rfl := Json.dict.inj hvalue
    cases Json.bool.inj hcomplete
  · rw [if_neg hunsupported] at hread ⊢
    cases hbytes : l.world.binary.bytes with
    | error text =>
      rw [hbytes] at hread
      rw [show rejectionDirectories ++ [] = rejectionDirectories from rfl,
        readDocument_of_avoids hnew hdirectories] at hread
      cases hread
    | ok raw =>
      rw [hbytes] at hread
      dsimp only at hread ⊢
      rcases finishRejections_cases l.args l.world source (l.world.sha256 raw) with
        ⟨e, hraised⟩ | ⟨records, unchanged, hrecords, hunchanged, hfinished⟩
      · rw [hraised, readDocument_of_avoids hnew (avoids_rejectionEvidenceWrites _ _ _ _)] at hread
        cases hread
      · rw [hfinished] at hread ⊢
        obtain ⟨written, hdocument, _, hwritten, _⟩ := exists_rejectionSummary_eq l.world
          (rejectionIdentity l.world source (l.world.sha256 raw)) records unchanged
        have hdump := rejectionSummary_dumpable
          (rejectionIdentity_dumpable l.world source (l.world.sha256 raw)) records unchanged
        rw [hdocument] at hdump hread ⊢
        dsimp only at hread ⊢
        rw [← List.append_assoc] at hread ⊢
        obtain ⟨hvalue, content, hrun⟩ := readDocument_writeText hw hdump hnew
          (avoids_rejectionEvidenceWrites _ _ _ _) hread
        obtain rfl := Json.dict.inj hvalue
        rw [hwritten] at hcomplete
        obtain ⟨rfl, hall⟩ := Bool.and_eq_true_iff.mp (Json.bool.inj hcomplete)
        obtain ⟨entries, hevidence⟩ := @rejectionEvidence_of_finished l.args l.world d source raw
          records hbytes hrecords hunchanged (by simpa using hall) content
        refine ⟨l, hl, source, raw, entries, hsource, ?_⟩
        rw [indentedBytes, hrun]
        exact hevidence

/-- A run interrupted before its first write, and one to its end. -/
def rejectionLaunches (args : RejectionArguments) (w : RejectionWorld) : List RejectionLaunch :=
  [⟨args, w, 0⟩, ⟨args, w, (rejectionMain args w []).1.length⟩]

/-- Only the second launch leaves something behind. -/
theorem session_rejectionLaunches (args : RejectionArguments) (w : RejectionWorld) :
    session [] ((rejectionLaunches args w).map RejectionLaunch.attempt) =
      Journal.run [] (rejectionMain args w []).1 := by
  change Journal.run [] ((rejectionMain args w []).1.take (rejectionMain args w []).1.length) = _
  rw [List.take_length]

/-- The summary it leaves vouches for the evidence beside it. -/
theorem rejections_vouch_idle :
    ∃ l ∈ rejectionLaunches sampleOutput rejectionWorld, ∃ source raw entries,
      l.world.sourceBefore = .ok source ∧
        RejectionEvidence l.args l.world source raw entries (session []
          ((rejectionLaunches sampleOutput rejectionWorld).map RejectionLaunch.attempt)) := by
  obtain ⟨_, fields, hread, hcomplete, _⟩ := rejectionWorld_starts.rejectionMain_passed
    rejectionWorld_reprReads (rejectionLines_of_hosts _ _ rfl rejectionWorld_hosts)
    rejectionWorld_unchanged
  have hrepr : ∀ l ∈ rejectionLaunches sampleOutput rejectionWorld, ReprReads l.world.repr := by
    intro l hl
    simp only [rejectionLaunches, List.mem_cons, List.not_mem_nil, or_false] at hl
    rcases hl with rfl | rfl <;> exact rejectionWorld_reprReads
  have hnew : ([] : Disk).lookup "summary.json" = none := rfl
  rw [← session_rejectionLaunches] at hread
  exact rejections_vouch hrepr hnew hread hcomplete

end Results

end RowReduce
