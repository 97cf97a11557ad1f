import RowReduce.Audit.Evidence

/-!
# The audit and its status

The whole audit of a results directory, the source files it verifies, and the
status `main` prints. Only five exception classes are turned into a status.
-/

namespace RowReduce.Audit

open Fallible Hexadecimal

/-- The fields of the summary with a required value, in order. -/
def summaryFields : List (String × Json) :=
  [("status", .str "pass"), ("matrix_complete", .bool true),
    ("sources_and_binary_unchanged", .bool true), ("validation_stage", .str "C3"),
    ("executed_processes", .int 13), ("validated_executions", .int 14),
    ("same_process_repeat", .bool true), ("backend", .str "ttsim")]

/-- The checks on the summary before its total time. -/
def checkSummary (identity summary : List (String × Json)) : Except PyException Unit := do
  forM summaryFields fun p =>
    require (sameTyped (Json.get summary p.1) p.2 = true) ("summary mismatch: " ++ p.1)
  require ((Json.get summary "identity").eq (.dict identity) = true ∧
    (Json.get summary "counts").eq (.dict [("pass", .int 13)]) = true)
    "summary identity/count mismatch"
  require ((Json.get summary "required_shapes").eq
    (.list (cases.map fun c => .list [.int c.1, .int c.2.1])) = true)
    "summary shape list mismatch"

/-- The total time of the summary against the recorded times. -/
def checkTotal (fr : FloatReading) (elapsed : List ℚ) (summary : List (String × Json)) :
    Except PyException Unit := do
  let total ← fr.fsum elapsed
  nearFloat fr (Json.get summary "total_process_wall_seconds") total "summary total wall time"

section Source

variable (env : AuditEnv) (project : PathParts)

/-- The bytes of a source file in the working tree, where it is a file of the project. -/
def workingBytes (name : String) : Except AuditException (List (List Byte)) := do
  let candidate ← env.fs.resolve (project ++ pathParts name)
  let base ← env.fs.resolve project
  if Inside base candidate then do
    let found ← os (env.fs.isFile candidate)
    if found then do
      let raw ← os (env.fs.readBytes candidate)
      return [raw]
    else return []
  else return []

/-- One pass of the loop over the manifest. -/
def verifySource (commits : List String) (entry : String × Json) : Except AuditException Unit := do
  py (checkHash entry.2 64 "source file hash")
  py (require (StaysBelow entry.1) "source path escapes repository")
  let working ← workingBytes env project entry.1
  let shown ← commits.mapM fun commit => py (env.gitShow (commit ++ ":" ++ entry.1))
  py (require (∃ raw ∈ working ++ shown.filterMap id, entry.2.eqStr (env.sha256 raw) = true)
    ("source bytes unavailable or changed: " ++ entry.1))

/-- The names every manifest lists. -/
def requiredSources : List String :=
  ["CMakeLists.txt", "src/metal_main.cpp", "include/row_reduce/row_reduce.hpp",
    "kernels/reader.cpp", "kernels/compute.cpp", "kernels/writer.cpp"]

/-- The manifest of an accepted source record and its commit. -/
def checkManifest (source : List (String × Json)) :
    Except PyException (List (String × Json) × String) :=
  match Json.get source "files" with
  | .dict manifest => do
    require (6 ≤ manifest.length) "missing source manifest"
    forM requiredSources fun required =>
      require ((manifest.lookup required).isSome = true) ("source manifest missing " ++ required)
    checkHash (Json.get source "commit") 40 "recorded source commit"
    require ((Json.get source "tree_sha256").eqStr (env.sha256 (env.dumps manifest)) = true)
      "source manifest aggregate hash mismatch"
    let commit ← item source "commit"
    return (manifest, commit.text)
  | _ => .error (.valueError "missing source manifest")

/-- `source_bytes`: the number of source files verified. -/
def sourceBytes (source : List (String × Json)) (compiled : List String) :
    Except AuditException ℕ := do
  let (manifest, commit) ← py (checkManifest env source)
  forM manifest (verifySource env project (commit :: compiled.mergeSort fun a b => decide (a ≤ b)))
  return manifest.length

end Source

/-- What the audit returns; its constant fields are left out. -/
structure AuditResult where
  processes : ℕ
  executions : ℕ
  rowsChecked : ℤ
  rawLogsHashed : ℕ
  sourceFilesHashVerified : ℕ
  recordedSourceCommit : Json
  compiledSourceCommit : String
  binarySha256 : Json
  actualBinaryBytesChecked : Bool

section Audit

variable (env : AuditEnv) (directory project : PathParts) (binary : Option PathParts)

/-- The environment, the summary and the records. -/
def readEvidence : Except AuditException (Json × Json × List Json) := do
  let environment ← readText env directory "environment.json" >>= parse env
  let summary ← readText env directory "summary.json" >>= parse env
  let lines ← readText env directory "simulator.jsonl"
  let records ← (recordTexts lines).mapM (parse env)
  return (environment, summary, records)

/-- The checks across all processes. -/
def checkCoverage (s : AuditState) : Except PyException Unit := do
  require ((expectedCases.map Expected.name).all s.seen.contains = true) "required cases missing"
  require (s.compiled.length = 1) "matrix combines different compiled executables"

/-- The summary and the source files, after all records. -/
def auditSummary (environment identity : List (String × Json)) (s : AuditState) (summary : Json) :
    Except AuditException AuditResult := do
  let summary ← objectOf summary
  py (checkSummary identity summary)
  py (checkTotal env.fr s.elapsed summary)
  let source ← py (item environment "source" >>= subscripted)
  let files ← sourceBytes env project source s.compiled
  let commit ← py (item source "commit")
  let hash ← py (item environment "binary_sha256")
  return { processes := 13
           executions := s.executions
           rowsChecked := s.totalRows
           rawLogsHashed := s.logPaths.length
           sourceFilesHashVerified := files
           recordedSourceCommit := commit
           compiledSourceCommit := s.compiled.headD ""
           binarySha256 := hash
           actualBinaryBytesChecked := binary.isSome }

/-- The audit of the records and of what follows them. -/
def auditRecords (environment vars : List (String × Json)) (summary : Json)
    (records : List Json) : Except AuditException AuditResult := do
  py (require (records.length = 13) "full evidence requires 13 subprocess records")
  let identity ← py (identityOf environment)
  let s ← records.foldlM (auditRecord env directory vars identity) {}
  py (checkCoverage s)
  auditSummary env project binary environment identity s summary

def audit : Except AuditException AuditResult := do
  let (environment, summary, records) ← readEvidence env directory
  let environment ← objectOf environment
  py (checkPreflight environment)
  let vars ← environmentVars environment
  checkMode env binary environment vars
  auditRecords env directory project binary environment vars summary records

/-- The printed status. -/
inductive Status where
  | fail (error : String)
  | pass (result : AuditResult)

/-- The handler of `main`: what it prints and returns. -/
def handled (x : Except AuditException AuditResult) : Except AuditException (Status × ℕ) :=
  match x with
  | .ok result => .ok (.pass result, 0)
  | .error e =>
    match e.caughtText with
    | some text => .ok (.fail text, 1)
    | none => .error e

/-- `main` with a results directory; both directories are resolved first. -/
def main (resultsdir sourceRoot : PathParts) : Except AuditException (Status × ℕ) :=
  handled (do
    let directory ← env.fs.resolve resultsdir
    let project ← env.fs.resolve sourceRoot
    audit env directory project binary)

end Audit

end RowReduce.Audit
