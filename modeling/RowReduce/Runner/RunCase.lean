import RowReduce.Runner.Validate

/-!
# Running one case

The record of one child process: its exit, the result lines of its standard
output, their validation, and the hashes of both logs. The process, the JSON
decoder, the text decoder and the hash function are parameters.
-/

namespace RowReduce

open Fallible Hexadecimal

def resultPrefix : String := "TT_ROW_REDUCE_RESULT="

/-- What the runner depends on beside the child process. -/
structure RunnerEnv where
  fr : FloatReading
  sha256 : List Byte → String
  /-- `read_text(errors="replace")` of a log's bytes. -/
  readText : List Byte → String
  /-- `json.loads`, or the text of its `ValueError`. -/
  jsonLoads : String → Except String Json

/-- The arguments of the host; `profiler` is `TT_METAL_DEVICE_PROFILER`. -/
def Case.command (case : Case) (profiler : Option String) : List String :=
  ["--rows", toString case.rows, "--cols", toString case.cols, "--pattern", case.pattern,
    "--seed", toString case.seed, "--nodes", "1", "--repeat", toString case.repeats] ++
    if profiler = some "1" then ["--profile"] else []

/-- How a started process ended. -/
structure ProcessExit where
  code : ℤ
  timedOut : Bool
  elapsed : ℚ

/-- One child process: its end, or the `OSError` of starting it, and its logs where they exist. -/
structure ChildRun where
  exit : Except String ProcessExit
  stdout : Option (List Byte)
  stderr : Option (List Byte)

/-- The record of a case; fields stay unset until the run reaches them. -/
structure CaseRecord where
  status : Option String := none
  error : Option String := none
  exitCode : Option ℤ := none
  timedOut : Option Bool := none
  wallSeconds : Option ℚ := none
  executions : List Validated := []
  compiledSourceCommit : Option String := none
  logSha256 : List (String × String) := []

/-- The line boundaries of `str.splitlines`, apart from the pair `"\r\n"`. -/
def isLineBoundary (c : Char) : Bool :=
  c == '\n' || c == '\r' || c == '\x0b' || c == '\x0c' || c == '\x1c' || c == '\x1d' ||
    c == '\x1e' || c == '\u0085' || c == '\u2028' || c == '\u2029'

def splitLines : List Char → List (List Char)
  | [] => []
  | '\r' :: '\n' :: rest => [] :: splitLines rest
  | c :: rest =>
    if isLineBoundary c then [] :: splitLines rest
    else match splitLines rest with
      | [] => [[c]]
      | line :: lines => (c :: line) :: lines

private theorem splitLines_cons {c : Char} (hc : c ≠ '\r') (l : List Char) :
    splitLines (c :: l) = if isLineBoundary c then [] :: splitLines l
      else match splitLines l with
        | [] => [[c]]
        | line :: lines => (c :: line) :: lines :=
  splitLines.eq_3 c l fun _ hrest => absurd hrest hc

private theorem ne_return_of_isLineBoundary {c : Char} (h : isLineBoundary c = false) :
    c ≠ '\r' := by
  rintro rfl
  exact absurd h (by decide)

/-- A line without boundaries is not split. -/
theorem splitLines_of_forall {l : List Char} (hne : l ≠ [])
    (h : ∀ c ∈ l, isLineBoundary c = false) : splitLines l = [l] := by
  induction l with
  | nil => exact absurd rfl hne
  | cons c l ih =>
    obtain ⟨hc, hl⟩ := List.forall_mem_cons.mp h
    rw [splitLines_cons (ne_return_of_isLineBoundary hc), hc]
    cases l with
    | nil => rfl
    | cons d l => rw [ih (by simp) hl]; rfl

/-- A boundary ends its line. -/
theorem splitLines_append_cons {l : List Char} (h : ∀ c ∈ l, isLineBoundary c = false) {b : Char}
    (hb : isLineBoundary b = true) (hreturn : b ≠ '\r') (rest : List Char) :
    splitLines (l ++ b :: rest) = l :: splitLines rest := by
  induction l with
  | nil => rw [List.nil_append, splitLines_cons hreturn, if_pos hb]
  | cons c l ih =>
    obtain ⟨hc, hl⟩ := List.forall_mem_cons.mp h
    rw [List.cons_append, splitLines_cons (ne_return_of_isLineBoundary hc), hc, ih hl]
    rfl

/-- The texts after the prefix on the result lines. -/
def resultTexts (text : String) : List String :=
  ((splitLines text.toList).filter resultPrefix.toList.isPrefixOf).map fun line =>
    String.ofList (line.drop resultPrefix.length)

def loadEntry (env : RunnerEnv) (text : String) : Except PyException Json :=
  match env.jsonLoads text with
  | .ok value => .ok value
  | .error message => .error (.valueError message)

def readEntries (env : RunnerEnv) (child : ChildRun) : Except PyException (List Json) :=
  match child.stdout with
  | none => .error (.osError "No such file or directory")
  | some bytes => (resultTexts (env.readText bytes)).mapM (loadEntry env)

/-- The list comprehension over the entries. -/
def validateEntries (env : RunnerEnv) (case : Case) (entries : List Json) :
    Except PyException (List Validated) :=
  (List.range entries.length).mapM fun i =>
    validateResult env.fr env.sha256 case i (entries.getD i .null)

/-- The checks across all executions of one process. -/
def classifyExecutions (case : Case) (code : ℤ) (record : CaseRecord) :
    CaseRecord × Except PyException Unit :=
  let commits := (record.executions.map Validated.compiledSourceCommit).dedup
  if commits.length ≠ 1 then
    (record, .error (.valueError "one process reported different compiled source commits"))
  else
    let record := { record with compiledSourceCommit := commits.head? }
    if case.repeats > 1 ∧
        ((record.executions.map Validated.inputSha256).dedup.length : ℤ) ≠ case.repeats then
      (record, .error (.valueError "repeat case did not upload different inputs"))
    else if record.executions.any fun r => r.status != "pass" then
      ({ record with status := some "numerical-fail" }, .ok ())
    else
      ({ record with status := some (if code = 0 then "pass" else "crash") }, .ok ())

/-- Reading, counting and validating the entries of a process that reported an exit code. -/
def recordEntries (env : RunnerEnv) (case : Case) (child : ChildRun) (code : ℤ)
    (record : CaseRecord) : CaseRecord × Except PyException Unit :=
  match readEntries env child with
  | .error e => (record, .error e)
  | .ok entries =>
    if (entries.length : ℤ) ≠ case.repeats then
      ({ record with
          status := some (if code ≠ 0 then "crash" else "protocol-error")
          error := some ("expected " ++ toString case.repeats ++
            " result records, received " ++ toString entries.length) }, .ok ())
    else match validateEntries env case entries with
      | .error e => (record, .error e)
      | .ok executions => classifyExecutions case code { record with executions }

/-- The body of the `try` statement: the record so far and the exception that ended it. -/
def runBody (env : RunnerEnv) (case : Case) (child : ChildRun) :
    CaseRecord × Except PyException Unit :=
  match child.exit with
  | .error message => ({}, .error (.osError message))
  | .ok exit =>
    let record : CaseRecord := { exitCode := some exit.code, timedOut := some exit.timedOut,
                                 wallSeconds := some exit.elapsed }
    if exit.timedOut then ({ record with status := some "timeout" }, .ok ())
    else if exit.code = 77 then ({ record with status := some "unsupported" }, .ok ())
    else recordEntries env case child exit.code record

/-- The `except` clauses: the classes recorded as `protocol-error`, and `OSError`. -/
def handleException (record : CaseRecord) : PyException → Except PyException CaseRecord
  | .valueError text | .typeError text | .keyError text | .structError text =>
    .ok { record with status := some "protocol-error", error := some text }
  | .osError text =>
    .ok { record with status := some "unsupported", error := some text, exitCode := none
                      timedOut := some false, wallSeconds := none }
  | .overflowError text => .error (.overflowError text)
  | .zeroDivisionError text => .error (.zeroDivisionError text)
  | .stopIteration => .error .stopIteration

/-- The hashes of the existing logs, by file name. -/
def logHashes (env : RunnerEnv) (case : Case) (child : ChildRun) : List (String × String) :=
  [(case.caseId ++ ".stdout.log", child.stdout),
    (case.caseId ++ ".stderr.log", child.stderr)].filterMap
    fun p => p.2.map fun bytes => (p.1, env.sha256 bytes)

def runCase (env : RunnerEnv) (case : Case) (child : ChildRun) : Except PyException CaseRecord := do
  let record ← match runBody env case child with
    | (record, .ok ()) => .ok record
    | (record, .error e) => handleException record e
  return { record with logSha256 := logHashes env case child }

end RowReduce
