import RowReduce.Audit.Parse
import RowReduce.Runner.RunCase

/-!
# Auditing the retained evidence

The audit of a results directory: its two summaries, the record of each process
and the logs these refer to. The file system, the hash function, the JSON writer
and the repository's history are parameters.
-/

namespace RowReduce.Audit

open BinaryFloat Fallible Hexadecimal

/-- A path by its parts below the root. -/
abbrev PathParts := List String

/-- The files as the audit finds them; failed reads carry the text of their `OSError`. -/
structure FileSystem where
  /-- `path.resolve()`, which can raise on a loop of symbolic links. -/
  resolve : PathParts → Except AuditException PathParts
  isFile : PathParts → Except String Bool
  readBytes : PathParts → Except String (List Byte)

/-- The classes `main` catches, with the text it prints. -/
def PyException.caughtText : PyException → Option String
  | .valueError text | .keyError text | .typeError text | .osError text => some text
  | .stopIteration => some ""
  | .structError _ | .overflowError _ | .zeroDivisionError _ => none

def AuditException.caughtText : AuditException → Option String
  | .py e => PyException.caughtText e
  | .attributeError _ | .runtimeError _ | .recursionError => none

def AuditException.Caught (e : AuditException) : Prop := e.caughtText.isSome = true

/-- What the audit depends on. -/
structure AuditEnv where
  fr : FloatReading
  sha256 : List Byte → String
  fs : FileSystem
  /-- `sys.get_int_max_str_digits()`, where the interpreter has the bound. -/
  maxDigits : Option ℕ
  /-- The texts whose nesting exhausts the interpreter's stack while they are parsed; what was
  parsed is compared and written within it. -/
  exhaustsStack : String → Bool
  /-- `json.dumps(fields, sort_keys=True).encode()`. -/
  dumps : List (String × Json) → List Byte
  /-- `git show`: the bytes of an object, `none` where it is not found. -/
  gitShow : String → Except PyException (Option (List Byte))
  /-- A process that cannot be started raises `OSError`, an argument it cannot take `ValueError`. -/
  gitShow_caught : ∀ object, RaisesOnly AuditException.Caught (py (gitShow object))

/-- The parts of a relative path. -/
def pathParts (name : String) : PathParts :=
  ((name.toList.splitOn '/').filter fun part => decide (part ≠ [] ∧ part ≠ ['.'])).map String.ofList

/-- `not path.is_absolute() and ".." not in path.parts`. -/
def StaysBelow (name : String) : Prop := name.toList.head? ≠ some '/' ∧ ".." ∉ pathParts name

instance : DecidablePred StaysBelow := fun name =>
  inferInstanceAs (Decidable (name.toList.head? ≠ some '/' ∧ ".." ∉ pathParts name))

/-- `root in path.parents`. -/
def Inside (root path : PathParts) : Prop := root <+: path ∧ root ≠ path

instance (root path : PathParts) : Decidable (Inside root path) :=
  inferInstanceAs (Decidable (root <+: path ∧ root ≠ path))

/-- An operation on files that raises only `OSError`. -/
def os {α : Type} (x : Except String α) : Except AuditException α :=
  x.mapError fun text => .py (.osError text)

/-- Strict UTF-8. -/
def decodeUtf8 (raw : List Byte) : Except PyException String :=
  match String.fromUTF8? ⟨(raw.map fun b => UInt8.ofBitVec b).toArray⟩ with
  | some text => .ok text
  | none => .error (.valueError "'utf-8' codec can't decode bytes")

section Files

variable (env : AuditEnv) (root : PathParts)

def localFile (name : Json) : Except AuditException PathParts :=
  match name with
  | .str name => do
    py (require (StaysBelow name) "artifact escapes result directory")
    let result ← env.fs.resolve (root ++ pathParts name)
    let base ← env.fs.resolve root
    py (require (Inside base result) "artifact symlink escapes result directory")
    let found ← os (env.fs.isFile result)
    py (require (found = true) ("missing artifact: " ++ name))
    return result
  | _ => .error (.py (.valueError "artifact path is not text"))

/-- `local_file(root, name).read_text()` under a UTF-8 locale. -/
def readText (name : String) : Except AuditException String := do
  let path ← localFile env root (.str name)
  let raw ← os (env.fs.readBytes path)
  let text ← py (decodeUtf8 raw)
  return String.ofList (translateNewlines text.toList)

def parse (text : String) : Except AuditException Json :=
  if env.exhaustsStack text then .error .recursionError else py (loads env.maxDigits text)

/-- The lines that are not blank. -/
def recordTexts (text : String) : List String :=
  ((splitLines text.toList).filter fun line => !line.all isPySpace).map String.ofList

end Files

/-- `ASSETS`. -/
def assets : List (String × String) :=
  [("libttsim_wh_aarch64.so", "d38142c9d94526a5d6b48e5c0711efd718ffaed9270150c5556da0de788214ae"),
    ("libttsim_wh.so", "2686ebc212ea9753c0aecde74e640aff43efbe54db0322676627c3a0c1b14d81")]

/-- The checks before the environment variables. -/
def checkPreflight (environment : List (String × Json)) : Except PyException Unit := do
  let get := Json.get environment
  require ((get "preflight_status").eqStr "pass" = true) "environment preflight not passed"
  require ((get "os").eqStr "Linux" = true ∧ (get "backend").eqStr "ttsim" = true)
    "wrong execution environment"
  require ((get "upstream_commit").eqStr metal = true) "wrong upstream commit"
  let asset := get "simulator_asset"
  let known ← asset.memNames (assets.map Prod.fst)
  require (known = true ∧
    (get "simulator_sha256").eqStr ((assets.lookup asset.text).getD "") = true)
    "wrong simulator asset/hash"
  require ((get "machine").eqStr
      (if "aarch64".toList <:+: asset.text.toList then "aarch64" else "x86_64") = true)
    "simulator architecture mismatch"
  require ((get "simulator_version").eqStr "v1.10.6" = true) "wrong simulator version"

/-- The object `environment.get("env", {})`. -/
def environmentVars (environment : List (String × Json)) :
    Except AuditException (List (String × Json)) :=
  objectOf ((environment.lookup "env").getD (.dict []))

/-- The checks on the environment variables and the recorded hashes. -/
def checkMode (env : AuditEnv) (binary : Option PathParts) (environment : List (String × Json))
    (vars : List (String × Json)) : Except AuditException Unit := do
  py (require ((Json.get vars "TT_METAL_SLOW_DISPATCH_MODE").eqStr "1" = true)
    "missing slow dispatch")
  py (require ((Json.get vars "TT_METAL_DISABLE_SFPLOADMACRO").eqStr "1" = true)
    "missing simulator workaround")
  py (checkHash (Json.get environment "binary_sha256") 64 "binary hash")
  py (checkHash (Json.get environment "soc_descriptor_sha256") 64 "descriptor hash")
  match binary with
  | none => return ()
  | some path => do
    let raw ← os (env.fs.readBytes path)
    let recorded ← py (item environment "binary_sha256")
    py (require (recorded.eqStr (env.sha256 raw) = true) "provided executable hash mismatch")

/-- The identity every process is compared with. -/
def identityOf (environment : List (String × Json)) :
    Except PyException (List (String × Json)) := do
  let fields ← ["upstream_commit", "binary_sha256", "simulator_asset", "simulator_version",
    "simulator_sha256", "soc_descriptor_sha256"].mapM fun key =>
      (item environment key).map fun value => (key, value)
  let source ← item environment "source"
  let source ← subscripted source
  let commit ← item source "commit"
  let dirty ← item source "dirty"
  let tree ← item source "tree_sha256"
  return fields ++ [("source_commit", commit), ("source_dirty", dirty),
    ("source_tree_sha256", tree)]

/-- `CASES`. -/
def cases : List (ℤ × ℤ × String × ℤ) :=
  [(1, 1, "zero", 101), (1, 31, "one_hot", 102), (1, 32, "ones", 103), (1, 33, "decimals", 104),
    (31, 31, "cancellation", 105), (32, 32, "small_integers", 106), (32, 33, "ones", 107),
    (33, 32, "one_hot", 108), (33, 33, "small_integers", 109), (65, 97, "random", 110),
    (97, 65, "decimals", 111), (128, 128, "random", 112)]

/-- A requested case as the audit expects it. -/
structure Expected where
  name : String
  rows : ℤ
  cols : ℤ
  pattern : String
  seed : ℤ
  count : ℕ
  deriving DecidableEq, Repr

/-- `expected`, by name. -/
def expectedCases : List Expected :=
  (cases.map fun c => ⟨"m" ++ toString c.1 ++ "_n" ++ toString c.2.1 ++ "_" ++ c.2.2.1,
    c.1, c.2.1, c.2.2.1, c.2.2.2, 1⟩) ++ [⟨"m33_n33_repeat", 33, 33, "random", 20260909, 2⟩]

/-- The recorded case of an expectation. -/
def Expected.case (e : Expected) : Json :=
  .dict [("case_id", .str e.name), ("rows", .int e.rows), ("cols", .int e.cols),
    ("pattern", .str e.pattern), ("seed", .int e.seed), ("repeat", .int e.count)]

def Expected.command (e : Expected) (profiled : Bool) : Json :=
  .list ((["<binary>", "--rows", toString e.rows, "--cols", toString e.cols, "--pattern", e.pattern,
    "--seed", toString e.seed, "--nodes", "1", "--repeat", toString e.count] ++
    if profiled then ["--profile"] else []).map .str)

/-- `near` of a number that is a float already, which `float` leaves unchanged. -/
def nearFloat (fr : FloatReading) (a : Json) (b : ℚ) (label : String) :
    Except PyException Unit := do
  let a ← finite a label
  require (isClose fr.rd a b (fr.rd.round (2 / 10 ^ 14)) (fr.rd.round (1 / 10 ^ 18)) = true)
    (label ++ " differs from independently calculated value")

/-- The vectors of a normalized execution with the audited values and the comparison of each. -/
def normalizedVectors (fr : FloatReading) (audited : Audited) :
    List (String × List ℚ × (Json → ℚ → String → Except PyException Unit)) :=
  [("actual", audited.actual, nearFloat fr), ("reference", audited.reference, near fr),
    ("abs_sums", audited.absSums, near fr), ("abs_errors", audited.absErrors, near fr),
    ("tolerances", audited.tolerances, near fr)]

/-- One pass of the loop over the vectors. -/
def checkVector (rows : ℤ) (reported : List (String × Json))
    (entry : String × List ℚ × (Json → ℚ → String → Except PyException Unit)) :
    Except PyException Unit := do
  let values ← vector (Json.get reported entry.1) rows ("normalized " ++ entry.1)
  forM (values.zip entry.2.1) fun p =>
    entry.2.2 (.float (.finite p.1)) p.2 ("normalized " ++ entry.1)

/-- A host line that was audited, with its fields. -/
def auditLine (env : AuditEnv) (rows cols : ℤ) (pattern : String) (seed count : ℤ) (index : ℕ)
    (host : Json) : Except AuditException (String × Audited) := do
  let fields ← objectOf host
  let audited ← py (auditHost env.fr env.sha256 fields rows cols pattern seed count index)
  let commit ← py (item fields "compiled_source_commit")
  return (commit.text, audited)

/-- The commit and the hashes of a normalized execution. -/
def checkIdentity (reported : List (String × Json)) (commit : String) (audited : Audited) :
    Except PyException Unit := do
  require ((Json.get reported "compiled_source_commit").eqStr commit = true)
    "normalized compiled commit mismatch"
  require ((Json.get reported "input_sha256").eqStr audited.inputSha256 = true)
    "normalized hash mismatch: input_sha256"
  require ((Json.get reported "output_sha256").eqStr audited.outputSha256 = true)
    "normalized hash mismatch: output_sha256"

/-- The remaining fields of a normalized execution. -/
def checkNormalized (reported : List (String × Json)) (pattern : String) (seed : ℤ) (index : ℕ) :
    Except PyException Unit := do
  let get := Json.get reported
  require ((get "status").eqStr "pass" = true ∧ (get "failed_rows").eqNil = true ∧
    (get "padding_zero").isBool true = true) "normalized execution not passing"
  require ((get "repeat_index").eqInt index = true ∧ (get "pattern").eqStr pattern = true ∧
    (get "seed").eqInt seed = true) "normalized execution metadata mismatch"
  require ((get "exact").isBool (exact.contains pattern) = true) "normalized exact flag mismatch"

/-- The state of the loop over the executions of one process. -/
structure ExecutionState where
  previous : Option Audited
  pattern : String
  processCommits : List String
  compiled : List String
  totalRows : ℤ
  executions : ℕ

/-- The pattern of the next execution. -/
def ExecutionState.next (s : ExecutionState) : String :=
  match s.previous with
  | none => s.pattern
  | some audited => if audited.inputWords.all (· == 0x3f80) then "zero" else "ones"

/-- One pass of the loop over the host lines and the normalized executions. -/
def auditExecution (env : AuditEnv) (e : Expected) (s : ExecutionState)
    (entry : (Json × Json) × ℕ) : Except AuditException ExecutionState := do
  let pattern := s.next
  let (commit, audited) ←
    auditLine env e.rows e.cols pattern e.seed e.count entry.2 entry.1.1
  let reported ← objectOf entry.1.2
  py (checkIdentity reported commit audited)
  py (forM (normalizedVectors env.fr audited) (checkVector e.rows reported))
  py (near env.fr (Json.get reported "max_abs_error") audited.maxAbsError
    "normalized max_abs_error")
  py (near env.fr (Json.get reported "max_scaled_error") audited.maxScaledError
    "normalized max_scaled_error")
  py (checkNormalized reported pattern e.seed entry.2)
  py (require (s.previous.map Audited.inputWords ≠ some audited.inputWords)
    "repeat did not change raw input")
  return { previous := some audited
           pattern
           processCommits := s.processCommits.insert commit
           compiled := s.compiled.insert commit
           totalRows := s.totalRows + e.rows
           executions := s.executions + 1 }

/-- The state of the loop over the records. -/
structure AuditState where
  compiled : List String := []
  seen : List String := []
  logPaths : List PathParts := []
  totalRows : ℤ := 0
  executions : ℕ := 0
  elapsed : List ℚ := []

section Record

variable (env : AuditEnv) (directory : PathParts) (vars identity : List (String × Json))

/-- The expectation a record names, not met before. -/
def expectedOf (s : AuditState) (name : Json) : Except PyException Expected := do
  let known ← name.memNames (expectedCases.map Expected.name)
  match expectedCases.find? fun e => e.name == name.text with
  | some e => do
    require (known = true ∧ e.name ∉ s.seen) "missing, unexpected, or duplicate case"
    return e
  | none => .error (.valueError "missing, unexpected, or duplicate case")

/-- The case, the command, the identity and the exit of a process. -/
def checkProcess (e : Expected) (case : Json) (profiled : Bool) (record : List (String × Json)) :
    Except PyException Unit := do
  let get := Json.get record
  require (case.eq e.case = true) "case definition mismatch"
  require ((get "command").eq (e.command profiled) = true)
    "recorded invocation differs from requested case"
  require ((get "identity").eq (.dict identity) = true)
    "per-case source/binary/simulator identity mismatch"
  require ((get "status").eqStr "pass" = true ∧ (get "exit_code").eqInt 0 = true ∧
    (get "timed_out").isBool false = true) ("case did not complete successfully: " ++ e.name)

/-- The time of a process and its backend. -/
def checkTime (record : List (String × Json)) : Except PyException ℚ := do
  let time ← finite (Json.get record "wall_seconds") "subprocess wall time"
  require (0 < time) "nonpositive subprocess wall time"
  require ((Json.get record "backend").eqStr "ttsim" = true ∧
    (Json.get record "nodes").eqInt 1 = true) "wrong backend/node count"
  return time

/-- The bytes of the log of one channel, and the paths read with it. -/
def openLog (logPaths : List PathParts) (record : List (String × Json)) (channel : String) :
    Except AuditException (PathParts × List Byte) := do
  let name ← py (item record channel)
  let path ← localFile env directory name
  py (require (path ∉ logPaths) "same log is reused by different cases/channels")
  let raw ← os (env.fs.readBytes path)
  return (path, raw)

/-- The text of a log whose recorded hash agrees. -/
def checkLog (record : List (String × Json)) (path : PathParts) (raw : List Byte) :
    Except AuditException String := do
  let hashes ← objectOf ((record.lookup "log_sha256").getD (.dict []))
  let name := path.getLast?.getD ""
  py (require ((Json.get hashes name).eqStr (env.sha256 raw) = true)
    ("raw log hash mismatch: " ++ name))
  py (decodeUtf8 raw)

/-- The text of the log of one channel. -/
def readLog (logPaths : List PathParts) (record : List (String × Json)) (channel : String) :
    Except AuditException (String × List PathParts) := do
  let (path, raw) ← openLog env directory logPaths record channel
  let text ← checkLog env record path raw
  return (text, path :: logPaths)

/-- The parsed host lines of the two logs. -/
def hostLines (out err : String) : Except AuditException (List Json) := do
  py (require (¬"TT_ROW_REDUCE_ERROR=".toList <:+: (out ++ err).toList)
    "host error marker in successful case")
  (resultTexts out).mapM (parse env)

/-- The normalized executions, as many as host lines. -/
def reportedExecutions (count : ℕ) (hosts : List Json) (record : List (String × Json)) :
    Except PyException (List Json) := do
  require (hosts.length = count) "execution count differs from raw stdout"
  let listed ← iterated ((record.lookup "executions").getD (.list []))
  require (count = listed.length) "execution count differs from raw stdout"
  return listed

/-- `process_commits == {record.get("compiled_source_commit")}`. -/
def checkCommits (commits : List String) (record : List (String × Json)) :
    Except PyException Unit := do
  let commit := Json.get record "compiled_source_commit"
  let same ← commit.memNames commits
  require (same = true ∧ commits.length = 1) "process compiled identity differs"

/-- The state in which the executions of a process are entered. -/
def ExecutionState.start (e : Expected) (s : AuditState) : ExecutionState :=
  ⟨none, e.pattern, [], s.compiled, s.totalRows, s.executions⟩

/-- The executions of one process, from its logs. -/
def auditExecutions (e : Expected) (s : AuditState) (record : List (String × Json))
    (out err : String) : Except AuditException ExecutionState := do
  let hosts ← hostLines env out err
  let reported ← py (reportedExecutions e.count hosts record)
  let done ← (hosts.zip reported).zipIdx.foldlM (auditExecution env e) (.start e s)
  py (checkCommits done.processCommits record)
  return done

/-- The time, the logs and the executions of a process whose case is recognized. -/
def auditProcess (e : Expected) (s : AuditState) (record : List (String × Json)) :
    Except AuditException AuditState := do
  let time ← py (checkTime record)
  let (out, logPaths) ← readLog env directory s.logPaths record "stdout"
  let (err, logPaths) ← readLog env directory logPaths record "stderr"
  let done ← auditExecutions env e s record out err
  return { compiled := done.compiled
           seen := e.name :: s.seen
           logPaths
           totalRows := done.totalRows
           executions := done.executions
           elapsed := s.elapsed ++ [time] }

/-- One pass of the loop over the records. -/
def auditRecord (s : AuditState) (record : Json) : Except AuditException AuditState := do
  let record ← py (subscripted record)
  let case ← py (item record "case")
  let caseFields ← objectOf case
  let e ← py (expectedOf s (Json.get caseFields "case_id"))
  let profiled := (Json.get vars "TT_METAL_DEVICE_PROFILER").eqStr "1"
  py (checkProcess identity e case profiled record)
  auditProcess env directory e s record

end Record

end RowReduce.Audit
