import RowReduce.Runner.Recording
import RowReduce.Runner.Rejections

/-!
# Running the rejections

The program that records how the linked host rejects a fixed list of commands, in
a results directory of its own. A directory is an entry without bytes, and `.` is
the results directory.
-/

namespace RowReduce

open BinaryFloat Hexadecimal Journal

structure RejectionCase where
  caseId : String
  arguments : List String
  inputText : Option String := none
  deriving DecidableEq, Repr

/-- `required_cases`, for pointers of so many bytes. -/
def rejectionCases (pointerBytes : ℕ) : List RejectionCase :=
  [{ caseId := "rows_zero", arguments := ["--rows", "0", "--cols", "32"] },
    { caseId := "cols_zero", arguments := ["--rows", "32", "--cols", "0"] },
    { caseId := "rows_129", arguments := ["--rows", "129", "--cols", "1"] },
    { caseId := "cols_129", arguments := ["--rows", "1", "--cols", "129"] },
    { caseId := "shape_product_overflow",
      arguments := ["--rows", toString (2 ^ (8 * pointerBytes) - 1), "--cols", "2"] },
    { caseId := "nodes_zero", arguments := ["--rows", "1", "--cols", "1", "--nodes", "0"] },
    { caseId := "nodes_two", arguments := ["--rows", "1", "--cols", "1", "--nodes", "2"] },
    ⟨"input_nan", ["--rows", "1", "--cols", "1"], some "nan\n"⟩,
    ⟨"input_inf", ["--rows", "1", "--cols", "1"], some "inf\n"⟩,
    ⟨"input_above_range", ["--rows", "1", "--cols", "1"], some "2\n"⟩,
    ⟨"input_below_range", ["--rows", "1", "--cols", "1"], some "0.001\n"⟩,
    ⟨"host_length_short", ["--rows", "1", "--cols", "2"], some "1\n"⟩,
    ⟨"host_length_long", ["--rows", "1", "--cols", "1"], some "1 0\n"⟩,
    ⟨"host_length_empty", ["--rows", "1", "--cols", "1"], some ""⟩]

/-- The input file of a case, below the results directory. -/
def RejectionCase.fixture (case : RejectionCase) : String := "inputs/" ++ case.caseId ++ ".txt"

/-- The arguments of the host, its input file below the directory. -/
def RejectionCase.command (case : RejectionCase) (directory : String) : List String :=
  case.arguments ++ case.inputText.elim [] fun _ => ["--input-file", directory ++ case.fixture]

/-- The parsed command line; the timeout is unset where the default of 15 seconds applies. -/
structure RejectionArguments where
  /-- The resolved results directory, up to its last separator. -/
  output : String
  timeout : Option FloatValue := none

/-- All that a run depends on. -/
structure RejectionWorld where
  sha256 : List Byte → String
  /-- UTF-8 with replacement characters. -/
  decode : List Byte → List Char
  /-- The interpreter's bound on the digits of an integer. -/
  maxDigits : Option ℕ
  /-- The text of the `ValueError` of `json.loads`. -/
  problem : String → String
  repr : ℚ → String
  pointerBytes : ℕ
  startedAt : String
  caseStartedAt : String → String
  finishedAt : String
  os : String
  machine : String
  python : String
  binary : FileView
  executable : Bool
  cwdIsDirectory : Bool
  /-- The source before the first process and after the last one, or an `OSError`. -/
  sourceBefore : Except String SourceView
  sourceAfter : Except String SourceView
  binaryAfter : Except String (List Byte)
  child : RejectionCase → Child

section Case

variable (w : RejectionWorld) (identity : Json) (case : RejectionCase)

/-- `read_text(errors="replace")`. -/
def RejectionWorld.readLog (bytes : List Byte) : List Char := translateNewlines (w.decode bytes)

/-- The verdict on a process, or the `OSError` of starting it. -/
def RejectionWorld.classify : Child → Classification
  | .ended exit writes => classifyRejection w.maxDigits w.problem exit.code exit.timedOut
      (w.readLog (written .stdout writes)) (w.readLog (written .stderr writes))
  | .unopened _ error => { status := "unsupported", error := some error }
  | .notStarted error => { status := "unsupported", error := some error }

def Classification.fields (c : Classification) : List (String × Json) :=
  [("status", .str c.status)] ++ (c.error.elim [] fun error => [("error", .str error)]) ++
    c.hostError.elim [] fun fields => [("host_error", .dict fields)]

/-- The end of the process in the record; the handler of an `OSError` sets the status first. -/
def outcomeFields (c : Classification) : Child → List (String × Json)
  | .ended exit _ => [("exit_code", .int exit.code), ("timed_out", .bool exit.timedOut),
      ("wall_seconds", .float (.finite exit.elapsed))] ++ c.fields
  | _ => [("status", .str c.status), ("exit_code", .null), ("timed_out", .bool false),
      ("wall_seconds", .null), ("error", c.error.elim .null .str)]

/-- The hashes of the logs that exist, by file name. -/
def rejectionHashes (run : ChildRun) : List (String × Json) :=
  [(case.caseId ++ Channel.suffix .stdout, run.stdout),
    (case.caseId ++ Channel.suffix .stderr, run.stderr)].filterMap fun p =>
      p.2.map fun bytes => (p.1, .str (w.sha256 bytes))

def inputFields : List (String × Json) :=
  case.inputText.elim [] fun text => [("input_file", .str case.fixture),
    ("input_sha256", .str (w.sha256 (asciiBytes text.toList)))]

/-- The record in the order its keys are set. -/
def rejectionDocument (c : Classification) : Json :=
  .dict ([("schema_version", .int 1), ("case_id", .str case.caseId),
    ("started_at_utc", .str (w.caseStartedAt case.caseId)), ("identity", identity),
    ("validation_stage", .str "C1"), ("validation_kind", .str "host_pre_device_rejection"),
    ("device_execution", .bool false),
    ("measurement_kind", .str "host_rejection_process_wall_time"), ("hardware", .str "none")] ++
    inputFields w case ++
    [("command", .list (("<binary>" :: case.command "").map .str)),
      ("stdout", .str (logName case.caseId .stdout)),
      ("stderr", .str (logName case.caseId .stderr))] ++
    outcomeFields c (w.child case) ++
    [("log_sha256", .dict (rejectionHashes w case (w.child case).run))])

/-- `run_case` and its line. -/
def rejectionLine : Except PyException (Classification × List Byte) := do
  let c := w.classify (w.child case)
  let line ← dumpLine w.repr { allowNan := false } (rejectionDocument w identity case c)
  return (c, line)

/-- The input file and the logs of a case. -/
def rejectionWrites : List Write :=
  (case.inputText.elim [] fun text => writeText case.fixture (asciiBytes text.toList)) ++
    (w.child case).writes case.caseId

end Case

section Documents

variable (args : RejectionArguments) (w : RejectionWorld) (source : SourceView)

def rejectionEnvironment (preflight : List (String × Json)) : Json :=
  .dict ([("schema_version", .int 1), ("recorded_at_utc", .str w.startedAt), ("os", .str w.os),
    ("machine", .str w.machine), ("python", .str w.python),
    ("host_size_t_bits", .int (w.pointerBytes * 8)), ("source", source.identity w.sha256),
    ("validation_stage", .str "C1"), ("validation_kind", .str "host_pre_device_rejection"),
    ("device_execution", .bool false), ("simulator_required", .bool false),
    ("hardware", .str "none"), ("timeout_seconds", args.timeout.elim (.int 15) .float)] ++
    preflight)

def preflightError : String := "binary is missing/not executable, or process cwd does not exist"

def unsupportedRejections : Json :=
  .dict [("schema_version", .int 1), ("status", .str "unsupported"),
    ("validation_stage", .str "C1"), ("validation_kind", .str "host_pre_device_rejection"),
    ("rejection_matrix_complete", .bool false), ("executed_processes", .int 0),
    ("device_execution", .bool false), ("error", .str preflightError)]

/-- `identity`. -/
def rejectionIdentity (binarySha256 : String) : Json :=
  .dict [("source_commit", source.commit.elim .null .str),
    ("source_tree_sha256", .str (source.tree.treeSha256 w.sha256)),
    ("source_dirty", source.dirty.elim .null .bool), ("binary_sha256", .str binarySha256)]

/-- `passed`. -/
def allRejected (records : List Classification) (unchanged : Bool) : Bool :=
  unchanged && records.all fun r => r.status == "pass"

def rejectionSummary (identity : Json) (records : List Classification) (unchanged : Bool) : Json :=
  .dict [("schema_version", .int 1), ("recorded_at_utc", .str w.finishedAt), ("identity", identity),
    ("status", .str (if allRejected records unchanged then "pass" else "fail")),
    ("validation_stage", .str "C1"), ("validation_kind", .str "host_pre_device_rejection"),
    ("rejection_matrix_complete", .bool (allRejected records unchanged)),
    ("executed_processes", .int records.length),
    ("counts", .dict (counter (records.map Classification.status))),
    ("sources_and_binary_unchanged", .bool unchanged), ("device_execution", .bool false),
    ("simulator_required", .bool false), ("hardware", .str "none"),
    ("limitation", .str "host rejection paths only; no evidence of JIT or device execution")]

end Documents

/-- How `main` ends: its status, the message of `parser.error`, or an exception. -/
inductive RejectionEnd where
  | code (n : ℕ)
  | usage (message : String)
  | raised (e : PyException)
  deriving DecidableEq, Repr

section Run

variable (args : RejectionArguments) (w : RejectionWorld)

/-- The loop over the cases. -/
def runRejections (identity : Json) : List Write × Except PyException (List Classification) :=
  recordLines "rejections.jsonl" (rejectionWrites w) (rejectionLine w identity)
    (rejectionCases w.pointerBytes)

/-- The writes before the summary. -/
def rejectionEvidenceWrites (source : SourceView) (binarySha256 : String) : List Write :=
  writeText "environment.json" (indentedBytes w.repr (rejectionEnvironment args w source
      [("preflight_status", .str "pass"), ("binary_sha256", .str binarySha256)])) ++
    (.create "rejections.jsonl" :: (runRejections w (rejectionIdentity w source binarySha256)).1)

/-- From a passed preflight on. -/
def finishRejections (source : SourceView) (binarySha256 : String) : List Write × RejectionEnd :=
  let identity := rejectionIdentity w source binarySha256
  let before := rejectionEvidenceWrites args w source binarySha256
  match (runRejections w identity).2 with
  | .error e => (before, .raised e)
  | .ok records =>
    match unchangedSince w.sha256 source binarySha256 w.sourceAfter w.binaryAfter with
    | .error text => (before, .raised (.osError text))
    | .ok unchanged =>
      (before ++ writeText "summary.json"
          (indentedBytes w.repr (rejectionSummary w identity records unchanged)),
        .code (if allRejected records unchanged then 0 else 1))

/-- From the created directories on. -/
def recordRejections (source : SourceView) : List Write × RejectionEnd :=
  if w.binary.isFile = false ∨ w.executable = false ∨ w.cwdIsDirectory = false then
    (writeText "environment.json" (indentedBytes w.repr (rejectionEnvironment args w source
        [("preflight_status", .str "unsupported"), ("error", .str preflightError)])) ++
      writeText "summary.json" (indentedBytes w.repr unsupportedRejections), .code 2)
  else match w.binary.bytes with
    | .error text => ([], .raised (.osError text))
    | .ok raw => finishRejections args w source (w.sha256 raw)

/-- The directories made. -/
def rejectionDirectories : List Write := [.create ".", .create "raw", .create "inputs"]

/-- `main`: the writes and the end. -/
def rejectionMain (d : Disk) : List Write × RejectionEnd :=
  if timeoutValid args.timeout = false then ([], .usage "--timeout must be finite and positive")
  else if (d.lookup ".").isSome then
    ([], .usage "--output-dir already exists; refusing to overwrite evidence")
  else match w.sourceBefore with
    | .error text => (rejectionDirectories, .raised (.osError text))
    | .ok source => (rejectionDirectories ++ (recordRejections args w source).1,
        (recordRejections args w source).2)

end Run

end RowReduce
