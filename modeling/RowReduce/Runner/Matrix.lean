import RowReduce.Runner.Recording

/-!
# Running the matrix

The program of the evidence runner on the results directory it finds: the refusal
of earlier evidence, the preflight, one process after another, and the summary.
What it finds on the machine and what its processes write are parameters.
-/

namespace RowReduce

open BinaryFloat Hexadecimal Journal

/-- `MATRIX`. -/
def matrixCases : List Case :=
  [⟨"m1_n1_zero", 1, 1, "zero", 101, 1⟩, ⟨"m1_n31_one_hot", 1, 31, "one_hot", 102, 1⟩,
    ⟨"m1_n32_ones", 1, 32, "ones", 103, 1⟩, ⟨"m1_n33_decimals", 1, 33, "decimals", 104, 1⟩,
    ⟨"m31_n31_cancellation", 31, 31, "cancellation", 105, 1⟩,
    ⟨"m32_n32_small_integers", 32, 32, "small_integers", 106, 1⟩,
    ⟨"m32_n33_ones", 32, 33, "ones", 107, 1⟩, ⟨"m33_n32_one_hot", 33, 32, "one_hot", 108, 1⟩,
    ⟨"m33_n33_small_integers", 33, 33, "small_integers", 109, 1⟩,
    ⟨"m65_n97_random", 65, 97, "random", 110, 1⟩, ⟨"m97_n65_decimals", 97, 65, "decimals", 111, 1⟩,
    ⟨"m128_n128_random", 128, 128, "random", 112, 1⟩]

def repeatCase : Case :=
  { caseId := "m33_n33_repeat", rows := 33, cols := 33, pattern := "random", repeats := 2 }

def allCases : List Case := matrixCases ++ [repeatCase]

/-- The values `--case` can take. -/
def caseChoices : List String := "all" :: "smoke" :: allCases.map Case.caseId

def selectedCases (choice : String) : List Case :=
  if choice = "all" then allCases
  else allCases.filter fun c =>
    c.caseId == if choice = "smoke" then "m32_n32_small_integers" else choice

/-- The parsed command line; the timeout is unset where the default of 300 seconds applies. -/
structure Arguments where
  binary : Bool
  metalHome : Bool
  simulator : Bool
  timeout : Option FloatValue := none
  choice : String := "all"
  choice_mem : choice ∈ caseChoices
  list : Bool := false
  profile : Bool := false
  /-- The resolved results directory, up to its last separator. -/
  output : String

/-- What the preflight asks of the machine. -/
structure Machine where
  os : String
  machine : String
  python : String
  /-- `TT_METAL_CACHE` and `TT_METAL_DEVICE_PROFILER` of the environment. -/
  cache : Option String
  profiler : Option String
  binary : FileView
  executable : Bool
  simulatorName : String
  simulator : FileView
  /-- `git rev-parse HEAD` of the Metal checkout. -/
  metalHead : Except String String
  descriptor : FileView
  upstreamDescriptor : FileView

/-- All that a run depends on. -/
structure World where
  runner : RunnerEnv
  /-- `float.__repr__`. -/
  repr : ℚ → String
  /-- The built-in `sum` of doubles. -/
  sum : List ℚ → {q : ℚ // IsDouble q}
  /-- `utc_now`, before the preflight, before each case and at the end. -/
  startedAt : String
  caseStartedAt : String → String
  finishedAt : String
  machine : Machine
  /-- The source before the preflight and after the last process, or an `OSError`. -/
  sourceBefore : Except String SourceView
  sourceAfter : Except String SourceView
  binaryAfter : Except String (List Byte)
  child : Case → Child

/-- `SIMULATOR_DIGESTS`. -/
def simulatorDigests : List (String × String) :=
  [("libttsim_wh.so", "2686ebc212ea9753c0aecde74e640aff43efbe54db0322676627c3a0c1b14d81"),
    ("libttsim_wh_aarch64.so", "d38142c9d94526a5d6b48e5c0711efd718ffaed9270150c5556da0de788214ae")]

/-- What the preflight adds to the environment. -/
structure Preflight where
  upstreamCommit : String
  binarySha256 : String
  simulatorAsset : String
  simulatorSha256 : String
  socDescriptorSha256 : String
  deriving DecidableEq, Repr

section Preflight

variable (args : Arguments) (w : World)

def sha256File (file : FileView) : Except String String := file.bytes.map w.runner.sha256

/-- A failed check of the preflight. -/
def requireText (p : Prop) [Decidable p] (text : String) : Except String Unit :=
  if p then .ok () else .error text

/-- The `try` statement of the preflight: the values recorded, or the text of the exception. -/
def preflight (source : SourceView) : Except String Preflight := do
  requireText (args.binary = true ∧ args.metalHome = true ∧ args.simulator = true)
    "--binary, --metal-home and --simulator (or TT environment) are required"
  requireText (∃ cache ∈ w.machine.cache, cache.toList.head? = some '/')
    "set TT_METAL_CACHE to an absolute isolated project cache before running"
  requireText (w.machine.binary.isFile = true ∧ w.machine.executable = true)
    "binary is missing or not executable"
  requireText (w.machine.simulator.isFile = true) "simulator asset is missing"
  let simulatorSha ← sha256File w w.machine.simulator
  requireText (simulatorDigests.lookup w.machine.simulatorName = some simulatorSha)
    "simulator filename/SHA-256 does not match the pinned official release"
  let upstreamCommit ← w.machine.metalHead
  requireText (upstreamCommit = metalCommit) "Metal checkout HEAD differs from upstream.lock"
  requireText (w.machine.descriptor.isFile = true)
    "simulator soc_descriptor.yaml does not match the pinned Metal descriptor"
  let descriptorSha ← sha256File w w.machine.descriptor
  let upstreamSha ← sha256File w w.machine.upstreamDescriptor
  requireText (descriptorSha = upstreamSha)
    "simulator soc_descriptor.yaml does not match the pinned Metal descriptor"
  requireText (source.commit.getD "" ≠ "")
    "commit the project source before recording simulator evidence"
  let binarySha ← sha256File w w.machine.binary
  return ⟨upstreamCommit, binarySha, w.machine.simulatorName, simulatorSha, descriptorSha⟩

end Preflight

section Documents

variable (args : Arguments) (w : World) (source : SourceView)

/-- The environment before the preflight. -/
def environmentFields : List (String × Json) :=
  [("schema_version", .int 1), ("recorded_at_utc", .str w.startedAt), ("os", .str w.machine.os),
    ("machine", .str w.machine.machine), ("python", .str w.machine.python),
      ("hardware", .str "none"),
    ("backend", .str "ttsim"), ("source", source.identity w.runner.sha256),
    ("timeout_seconds", args.timeout.elim (.int 300) .float), ("simulator_version", .str "v1.10.6"),
    ("env", .dict ([("TT_METAL_SLOW_DISPATCH_MODE", .str "1"),
      ("TT_METAL_DISABLE_SFPLOADMACRO", .str "1")] ++
        if args.profile then [("TT_METAL_DEVICE_PROFILER", .str "1")] else []))]

/-- The environment of a failed preflight. -/
def unsupportedEnvironment (error : String) : Json :=
  .dict (environmentFields args w source ++
    [("preflight_status", .str "unsupported"), ("error", .str error)])

def unsupportedSummary (error : String) : Json :=
  .dict [("schema_version", .int 1), ("status", .str "unsupported"),
    ("matrix_complete", .bool false),
    ("validation_stage", .null), ("executed_processes", .int 0), ("hardware", .str "none"),
    ("error", .str error)]

def environmentDocument (pre : Preflight) : Json :=
  .dict (environmentFields args w source ++
    [("upstream_commit", .str pre.upstreamCommit), ("binary_sha256", .str pre.binarySha256),
      ("simulator_asset", .str pre.simulatorAsset), ("simulator_sha256", .str pre.simulatorSha256),
      ("soc_descriptor_sha256", .str pre.socDescriptorSha256),
      ("kernel_cache", .str "caller-selected isolated TT_METAL_CACHE; inherited unchanged"),
      ("preflight_status", .str "pass")])

/-- `identity`. -/
def identityDocument (pre : Preflight) : Json :=
  .dict [("upstream_commit", .str pre.upstreamCommit), ("binary_sha256", .str pre.binarySha256),
    ("simulator_asset", .str pre.simulatorAsset), ("simulator_version", .str "v1.10.6"),
    ("simulator_sha256", .str pre.simulatorSha256),
    ("soc_descriptor_sha256", .str pre.socDescriptorSha256),
    ("source_commit", source.commit.elim .null .str),
      ("source_dirty", source.dirty.elim .null .bool),
    ("source_tree_sha256", .str (source.tree.treeSha256 w.runner.sha256))]

end Documents

/-- `asdict`. -/
def Case.document (case : Case) : Json :=
  .dict [("case_id", .str case.caseId), ("rows", .int case.rows), ("cols", .int case.cols),
    ("pattern", .str case.pattern), ("seed", .int case.seed), ("repeat", .int case.repeats)]

def floatItems (xs : List ℚ) : Json := .list (xs.map fun q => .float (.finite q))

/-- The dictionary `validate_result` returns. -/
def Validated.document (v : Validated) : Json :=
  .dict [("repeat_index", .int v.repeatIndex), ("pattern", .str v.pattern), ("seed", .int v.seed),
    ("compiled_source_commit", .str v.compiledSourceCommit), ("input_sha256", .str v.inputSha256),
    ("input_hash_encoding", .str "logical BF16 little-endian bytes"),
    ("actual", floatItems v.actual), ("reference", floatItems v.reference),
    ("abs_sums", floatItems v.absSums), ("abs_errors", floatItems v.absErrors),
    ("tolerances", floatItems v.tolerances), ("exact", .bool v.exact),
    ("max_abs_error", .float (.finite v.maxAbsError)),
    ("max_scaled_error", .float (.finite v.maxScaledError)),
    ("failed_rows", .list (v.failedRows.map fun row => .int row)),
    ("output_sha256", .str v.outputSha256), ("padding_zero", .bool v.paddingZero),
    ("status", .str v.status)]

/-- The values of the exit, where they are set. -/
def CaseRecord.exitFields (record : CaseRecord) : List (String × Json) :=
  match record.timedOut with
  | none => []
  | some timedOut => [("exit_code", record.exitCode.elim .null .int), ("timed_out", .bool timedOut),
      ("wall_seconds", record.wallSeconds.elim .null fun q => .float (.finite q))]

/-- The record in the order its keys are set; the exit of a process that did not start is set by
the handler. -/
def CaseRecord.document (w : World) (identity : Json) (profiler : Option String) (case : Case)
    (started : Bool) (record : CaseRecord) : Json :=
  .dict ([("schema_version", .int 1), ("case", case.document),
    ("started_at_utc", .str (w.caseStartedAt case.caseId)), ("identity", identity),
    ("command", .list (("<binary>" :: case.command profiler).map .str)),
    ("measurement_kind", .str "simulator_process_wall_time"), ("hardware", .str "none"),
    ("nodes", .int 1), ("backend", .str "ttsim"),
    ("stdout", .str (logName case.caseId .stdout)), ("stderr", .str (logName case.caseId .stderr)),
    ("executions", .list (record.executions.map Validated.document))] ++
    (if started then record.exitFields else []) ++
    (record.compiledSourceCommit.elim [] fun commit => [("compiled_source_commit", .str commit)]) ++
    [("status", record.status.elim .null .str)] ++
    (record.error.elim [] fun error => [("error", .str error)]) ++
    (if started then [] else record.exitFields) ++
    [("log_sha256", .dict (record.logSha256.map fun p => (p.1, .str p.2)))])

def statusCounts (records : List CaseRecord) : List (String × Json) :=
  counter (records.map fun r => r.status.getD "")

/-- `sum(r.get("wall_seconds") or 0 for r in records)`. -/
def totalWallSeconds (w : World) (records : List CaseRecord) : Json :=
  match (records.filterMap CaseRecord.wallSeconds).filter (· ≠ 0) with
  | [] => .int 0
  | times => .float (.finite (w.sum times))

/-- Every record passed and nothing changed. -/
def allPass (records : List CaseRecord) (unchanged : Bool) : Bool :=
  records.all (fun r => r.status == some "pass") && unchanged

def summaryDocument (args : Arguments) (w : World) (identity : Json) (records : List CaseRecord)
    (unchanged : Bool) : Json :=
  let pass := allPass records unchanged
  let complete := args.choice == "all" && pass
  .dict [("schema_version", .int 1), ("recorded_at_utc", .str w.finishedAt), ("identity", identity),
    ("status", .str (if pass then "pass" else "fail")), ("matrix_complete", .bool complete),
    ("sources_and_binary_unchanged", .bool unchanged),
    ("validation_stage", if complete then .str "C3" else .null),
    ("executed_processes", .int records.length),
    ("validated_executions", .int (((records.filter fun r => r.status == some "pass").map
      fun r => (r.executions.length : ℤ)).sum)),
    ("required_shapes", .list (matrixCases.map fun c => .list [.int c.rows, .int c.cols])),
    ("same_process_repeat", .bool complete), ("counts", .dict (statusCounts records)),
    ("backend", .str "ttsim"), ("hardware", .str "none"),
    ("measurement_kind", .str "simulator_process_wall_time"),
    ("total_process_wall_seconds", totalWallSeconds w records),
    ("timing_scope", .str
      "process startup, JIT/cache, simulator execution and teardown; no silicon interpretation")]

/-- How `main` ends: its status, the message of a `SystemExit`, or an exception. -/
inductive MatrixEnd where
  | code (n : ℕ)
  | exit (message : String)
  | raised (e : PyException)
  deriving DecidableEq, Repr

/-- The status of the process. -/
def MatrixEnd.status : MatrixEnd → ℕ
  | .code n => n
  | _ => 1

section Run

variable (args : Arguments) (w : World)

/-- `TT_METAL_DEVICE_PROFILER` of the processes. -/
def profilerOf : Option String := if args.profile then some "1" else w.machine.profiler

/-- `run_case` and its line: the writes of the process, and the record or the exception. -/
def runLine (identity : Json) (case : Case) : Except PyException (CaseRecord × List Byte) := do
  let child := w.child case
  let record ← runCase w.runner case child.run
  let line ← dumpLine w.repr { allowNan := false }
    (record.document w identity (profilerOf args w) case child.started)
  return (record, line)

/-- The loop over the selected cases. -/
def runCases (identity : Json) (cases : List Case) :
    List Write × Except PyException (List CaseRecord) :=
  recordLines "simulator.jsonl" (fun case => (w.child case).writes case.caseId)
    (runLine args w identity) cases

def sourcesUnchanged (source : SourceView) (pre : Preflight) : Except String Bool :=
  unchangedSince w.runner.sha256 source pre.binarySha256 w.sourceAfter w.binaryAfter

/-- After the last process: the summary and the status. -/
def finishMatrix (source : SourceView) (pre : Preflight) (records : List CaseRecord) :
    List Write × MatrixEnd :=
  match sourcesUnchanged w source pre with
  | .error text => ([], .raised (.osError text))
  | .ok unchanged =>
    match dumpLine w.repr { indent := some 2, allowNan := false }
        (summaryDocument args w (identityDocument w source pre) records unchanged) with
    | .error e => ([], .raised e)
    | .ok bytes =>
      (writeText "summary.json" bytes, .code (if allPass records unchanged then 0 else 1))

/-- From a passed preflight on. -/
def runMatrix (source : SourceView) (pre : Preflight) : List Write × MatrixEnd :=
  let (writes, records) :=
    runCases args w (identityDocument w source pre) (selectedCases args.choice)
  let before := writeText "environment.json"
      (indentedBytes w.repr (environmentDocument args w source pre)) ++
    (.create "simulator.jsonl" :: writes)
  match records with
  | .error e => (before, .raised e)
  | .ok records =>
    let (last, result) := finishMatrix args w source pre records
    (before ++ last, result)

/-- From an accepted output directory on. -/
def recordEvidence (source : SourceView) : List Write × MatrixEnd :=
  match preflight args w source with
  | .error text =>
    (writeText "environment.json"
        (indentedBytes w.repr (unsupportedEnvironment args w source text)) ++
      writeText "summary.json" (indentedBytes w.repr (unsupportedSummary text)), .code 2)
  | .ok pre => runMatrix args w source pre

def evidenceNames : List String := ["environment.json", "simulator.jsonl", "summary.json"]

/-- `main`: the writes to the results directory and the end. -/
def matrixMain (d : Disk) : List Write × MatrixEnd :=
  if args.list then ([], .code 0)
  else if timeoutValid args.timeout = false then
    ([], .exit "--timeout must be finite and positive")
  else match evidenceNames.find? fun name => (d.lookup name).isSome with
  | some name => ([], .exit ("refusing to overwrite existing evidence: " ++ args.output ++ name))
  | none =>
    if d.any fun p => "raw/".toList.isPrefixOf p.1.toList then
      ([], .exit "use an output directory with no existing raw logs")
    else match w.sourceBefore with
    | .error text => ([], .raised (.osError text))
    | .ok source => recordEvidence args w source

end Run

end RowReduce
