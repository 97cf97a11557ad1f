import Mathlib.Data.List.AList
import RowReduce.Core.Brackets
import RowReduce.Runner.Python

/-!
# The profiler CSV

The rows of a profiler file, the zone events read from them, and the matching of
each key's starts and ends. The text functions of strings, the integer reader
and the hash are parameters.
-/

namespace RowReduce

open Fallible Hexadecimal

/-- What the tool uses of Python's text functions, beside the CSV reader. -/
structure CsvEnv where
  strip : String → String
  lower : String → String
  /-- `int(text)`, or nothing for its `ValueError`. -/
  int : String → Option ℤ
  repr : String → String
  sha256 : List Byte → String

/-- A regular file: its bytes and the rows `csv.reader` yields from them. -/
structure CsvFile where
  bytes : List Byte
  rows : List (List String)

def csvColumns : List String :=
  ["pcie slot", "core_x", "core_y", "risc processor type", "timer_id", "time[cycles since reset]",
    "data", "run host id", "trace id", "trace id counter", "zone name", "type", "source line",
    "source file", "meta data"]

/-- The identity under which starts and ends are matched. -/
structure ZoneKey where
  device : ℕ
  coreX : ℕ
  coreY : ℕ
  processor : String
  runHostId : ℕ
  traceId : Option ℕ
  traceIdCounter : Option ℕ
  zone : String
  sourceFile : String
  sourceLine : ℕ
  deriving DecidableEq, Repr

/-- An event row. -/
structure ProfilerEvent where
  key : ZoneKey
  timerId : ℕ
  /-- `time[cycles since reset]`. -/
  time : ℕ
  data : ℕ
  /-- `type`. -/
  phase : String
  deriving DecidableEq, Repr

def ProfilerEvent.zone (e : ProfilerEvent) : String := e.key.zone

def eventNumber (env : CsvEnv) (line : ℕ) (name text : String) : Except PyException ℕ :=
  match env.int text with
  | none => .error (.valueError ("CSV line " ++ toString line ++ ": non-integer " ++ name))
  | some n =>
    if n < 0 then .error (.valueError ("CSV line " ++ toString line ++ ": negative " ++ name))
    else .ok n.toNat

/-- The pinned writer leaves an absent trace identity empty. -/
def eventTrace (env : CsvEnv) (line : ℕ) (name text : String) : Except PyException (Option ℕ) :=
  if text = "" then .ok none else some <$> eventNumber env line name text

def readEvent (env : CsvEnv) (line : ℕ) (row : List String) : Except PyException ProfilerEvent :=
  match row.map env.strip with
  | [device, coreX, coreY, processor, timerId, time, data, runHostId, traceId, traceIdCounter, zone,
      phase, sourceLine, sourceFile, _] => do
    let device ← eventNumber env line "pcie slot" device
    let coreX ← eventNumber env line "core_x" coreX
    let coreY ← eventNumber env line "core_y" coreY
    let timerId ← eventNumber env line "timer_id" timerId
    let time ← eventNumber env line "time[cycles since reset]" time
    let data ← eventNumber env line "data" data
    let runHostId ← eventNumber env line "run host id" runHostId
    let traceId ← eventTrace env line "trace id" traceId
    let traceIdCounter ← eventTrace env line "trace id counter" traceIdCounter
    let sourceLine ← eventNumber env line "source line" sourceLine
    throwIf (processor = "" ∨ sourceFile = "")
      (.valueError ("CSV line " ++ toString line ++ ": empty processor/source field"))
    return { key := ⟨device, coreX, coreY, processor, runHostId, traceId, traceIdCounter, zone,
      sourceFile, sourceLine⟩, timerId, time, data, phase }
  | _ => .error (.valueError ("CSV line " ++ toString line ++ " has " ++ toString row.length ++
      " columns, expected " ++ toString csvColumns.length))

/-- What has been read of a file. -/
structure CsvTable where
  header : Bool := false
  metadata : List String := []
  events : List ProfilerEvent := []

def readRow (env : CsvEnv) (line : ℕ) (table : CsvTable) (row : List String) :
    Except PyException CsvTable :=
  if row.all fun cell => env.strip cell = "" then .ok table
  else if table.header then do
    let event ← readEvent env line row
    return { table with events := table.events ++ [event] }
  else
    let normalized := row.map fun cell => env.lower (env.strip cell)
    if "zone name" ∉ normalized then
      .ok { table with metadata := table.metadata ++ [env.strip (",".intercalate row)] }
    else if ¬normalized.Nodup then .error (.valueError "duplicate profiler header fields")
    else if normalized ≠ csvColumns then
      .error (.valueError "profiler header does not match the pinned Metal CSV fields")
    else .ok { table with header := true }

/-- The rows from a line on. -/
def readRows (env : CsvEnv) : ℕ → CsvTable → List (List String) → Except PyException CsvTable
  | _, table, [] => .ok table
  | line, table, row :: rows => do
    let table ← readRow env line table row
    readRows env (line + 1) table rows

/-- A matched pair. -/
structure ZoneInterval where
  key : ZoneKey
  beginRawCounter : ℕ
  endRawCounter : ℕ
  deriving DecidableEq, Repr

/-- The open starts of each key, latest first, the counts and the intervals so far. -/
structure ZoneState where
  opened : AList (fun _ : ZoneKey => List ℕ) := ∅
  counts : AList (fun _ : String => ℕ) := ∅
  intervals : List ZoneInterval := []

/-- `opened[key]`. -/
def ZoneState.stack (state : ZoneState) (key : ZoneKey) : List ℕ :=
  (state.opened.lookup key).getD []

/-- `counts[zone]`. -/
def ZoneState.count (state : ZoneState) (zone : String) : ℕ := (state.counts.lookup zone).getD 0

def matchEvent (env : CsvEnv) (expectedZones : List String) (state : ZoneState)
    (event : ProfilerEvent) : Except PyException ZoneState :=
  if event.zone ∉ expectedZones then .ok state
  else if event.phase = "ZONE_START" then
    .ok { state with
      opened := state.opened.insert event.key (event.time :: state.stack event.key) }
  else if event.phase = "ZONE_END" then
    match state.stack event.key with
    | [] => .error (.valueError ("zone " ++ event.zone ++ ": end without a matching begin"))
    | start :: stack =>
      if event.time < start then
        .error (.valueError ("zone " ++ event.zone ++ ": end counter precedes begin counter"))
      else
        .ok {
          opened := state.opened.insert event.key stack
          counts := state.counts.insert event.zone (state.count event.zone + 1)
          intervals := state.intervals ++ [⟨event.key, start, event.time⟩] }
  else .error (.valueError ("zone " ++ event.zone ++ ": unexpected phase " ++ env.repr event.phase))

/-- The report of a valid file. -/
structure ZoneReport where
  schemaVersion : ℕ := 1
  status : String := "pass"
  measurementKind : String := "simulator_instrumentation"
  hardware : String := "none"
  csvSha256 : String
  metadata : List String
  eventRows : ℕ
  projectZoneIntervals : AList (fun _ : String => ℕ)
  intervals : List ZoneInterval
  interpretation : String :=
    "CSV structure and project zones only; raw counters are not silicon timing"

/-- The checks after the rows have been read. -/
def matchZones (env : CsvEnv) (expectedZones : List String) (events : List ProfilerEvent) :
    Except PyException ZoneState := do
  let state ← events.foldlM (matchEvent env expectedZones) {}
  throwIf (state.opened.entries.any fun entry => entry.2 ≠ [])
    (.valueError "profiler CSV contains unclosed project zones")
  let absent := expectedZones.filter fun zone => state.count zone = 0
  throwIf (absent ≠ [])
    (.valueError ("profiler CSV lacks complete project zones: " ++ ", ".intercalate absent))
  return state

/-- `validate_csv`; `none` is a path without a regular file. -/
def validateCsv (env : CsvEnv) (file : Option CsvFile) (expectedZones : List String) :
    Except PyException ZoneReport :=
  match file with
  | none => .error (.valueError "profiler CSV is missing or empty")
  | some file => do
    throwIf (file.bytes = []) (.valueError "profiler CSV is missing or empty")
    let table ← readRows env 1 {} file.rows
    throwIf (table.header = false) (.valueError "profiler CSV has no header")
    throwIf (table.events = []) (.valueError "profiler CSV has no event rows")
    let state ← matchZones env expectedZones table.events
    return {
      csvSha256 := env.sha256 file.bytes
      metadata := table.metadata
      eventRows := table.events.length
      projectZoneIntervals := state.counts
      intervals := state.intervals }

end RowReduce
