import RowReduce.Core.Journal
import RowReduce.Runner.JsonDumps
import RowReduce.Runner.RunCase
import RowReduce.Runner.SourceIdentity

/-!
# Recording processes

What the runners share: a process that writes to its two logs, a line for each
recorded process, and the documents around the lines.
-/

namespace RowReduce

open BinaryFloat Hexadecimal Journal

/-- A path as found: whether it is a regular file, and its bytes or the `OSError` of reading it. -/
structure FileView where
  isFile : Bool
  bytes : Except String (List Byte)

/-- A channel of a process. -/
inductive Channel where
  | stdout
  | stderr
  deriving DecidableEq, Repr

/-- What becomes of a process: a log that cannot be opened, a process that cannot be started, or
one that ended after writing to its channels in some order. -/
inductive Child where
  | unopened (stdout : Bool) (error : String)
  | notStarted (error : String)
  | ended (exit : ProcessExit) (writes : List (Channel × Byte))

def Channel.suffix : Channel → String
  | .stdout => ".stdout.log"
  | .stderr => ".stderr.log"

/-- The log of a channel, below the results directory. -/
def logName (caseId : String) (channel : Channel) : String := "raw/" ++ caseId ++ channel.suffix

def written (channel : Channel) (writes : List (Channel × Byte)) : List Byte :=
  (writes.filter fun w => w.1 = channel).map Prod.snd

/-- The end of a process and its logs. -/
def Child.run : Child → ChildRun
  | .unopened stdout error => ⟨.error error, if stdout then some [] else none, none⟩
  | .notStarted error => ⟨.error error, some [], some []⟩
  | .ended exit writes => ⟨.ok exit, some (written .stdout writes), some (written .stderr writes)⟩

def Child.started : Child → Bool
  | .ended .. => true
  | _ => false

/-- The results directory. -/
abbrev Disk := Directory String Byte

abbrev Write := Effect String Byte

/-- The writes of a process to its logs. -/
def Child.writes (caseId : String) : Child → List Write
  | .unopened stdout _ => if stdout then [.create (logName caseId .stdout)] else []
  | .notStarted _ => [.create (logName caseId .stdout), .create (logName caseId .stderr)]
  | .ended _ writes => .create (logName caseId .stdout) :: .create (logName caseId .stderr) ::
      writes.map fun p => .append (logName caseId p.1) p.2

/-- A record line, or the `ValueError` of a number that is not finite. -/
def dumpLine (repr : ℚ → String) (style : JsonStyle) (value : Json) :
    Except PyException (List Byte) :=
  match jsonDumps repr style value with
  | some text => .ok (asciiBytes (text.toList ++ ['\n']))
  | none => .error (.valueError "Out of range float values are not JSON compliant")

/-- A document with indentation; every number is admitted. -/
def indentedBytes (repr : ℚ → String) (value : Json) : List Byte :=
  asciiBytes (dumpValue repr { indent := some 2 } 0 value ++ ['\n'])

/-- The loop of a runner over its cases: the writes of each, its line at the end of the record file,
and the records, up to the first exception. -/
def recordLines {ι ρ : Type} (file : String) (writes : ι → List Write)
    (line : ι → Except PyException (ρ × List Byte)) :
    List ι → List Write × Except PyException (List ρ)
  | [] => ([], .ok [])
  | item :: items =>
    match line item with
    | .error e => (writes item, .error e)
    | .ok (record, text) =>
      let (rest, records) := recordLines file writes line items
      (writes item ++ (appendText file text ++ rest), records.map (record :: ·))

/-- One key of a dictionary that counts. -/
def countKey (seen : List String) (s : String) : List String :=
  if s ∈ seen then seen else seen ++ [s]

/-- `Counter`, in the order of the first occurrences. -/
def counter (statuses : List String) : List (String × Json) :=
  (statuses.foldl countKey []).map fun s => (s, .int (statuses.count s))

/-- `math.isfinite(timeout) and timeout > 0`. -/
def timeoutValid : Option FloatValue → Bool
  | none => true
  | some (.finite q) => decide (0 < q)
  | some _ => false

/-- The comparison of the source and the binary at the end with those before the first process. -/
def unchangedSince (sha256 : List Byte → String) (source : SourceView) (binarySha256 : String)
    (sourceAfter : Except String SourceView) (binaryAfter : Except String (List Byte)) :
    Except String Bool := do
  let final ← sourceAfter
  if final.tree.treeSha256 sha256 = source.tree.treeSha256 sha256 then
    let bytes ← binaryAfter
    return decide (sha256 bytes = binarySha256)
  else return false

end RowReduce
