import RowReduce.Host.Cpu
import RowReduce.Host.Emit
import RowReduce.Host.Options

/-!
# The command line of the CPU program

One configured case, the matrix of required cases or the usage text, and what is
printed for them.
-/

namespace RowReduce

open BinaryFloat Fallible

structure CpuOptions where
  shape : Shape := ⟨33, 33⟩
  pattern : String := "decimals"
  seed : Word32 := 1
  nodes : ℕ := 1
  matrix : Bool := false
  /-- An option with a value was given. -/
  configured : Bool := false
  deriving DecidableEq, Repr

/-- `parse_unsigned`. -/
def parseUnsigned (text : String) : Except HostException ℕ :=
  match fromCharsSize text with
  | some n => .ok n
  | none => .error (.invalidArgument "expected a nonnegative integer")

/-- The branch taken on an option with its value. -/
def applyCpuOption (argument value : String) (o : CpuOptions) : Except HostException CpuOptions :=
  if argument = "--pattern" then .ok { o with pattern := value }
  else if argument = "--rows" then do
    let n ← parseUnsigned value
    return { o with shape := { o.shape with rows := n } }
  else if argument = "--cols" then do
    let n ← parseUnsigned value
    return { o with shape := { o.shape with cols := n } }
  else if argument = "--nodes" then do
    let n ← parseUnsigned value
    return { o with nodes := n }
  else if argument = "--seed" then do
    let parsed ← parseUnsigned value
    throwIf (2 ^ 32 - 1 < parsed) (.invalidArgument "seed exceeds uint32 range")
    return { o with seed := BitVec.ofNat 32 parsed }
  else .error (.invalidArgument "unknown option")

/-- How the loop over the arguments ends. -/
inductive CpuCommand where
  | help
  | run (options : CpuOptions)
  deriving DecidableEq, Repr

/-- The loop over `argv[1..]`; `--help` ends it at once. -/
def parseCpuArguments : List String → CpuOptions → Except HostException CpuCommand
  | [], o => .ok (.run o)
  | [argument], o =>
    if argument = "--help" then .ok .help
    else if argument = "--matrix" then .ok (.run { o with matrix := true })
    else .error (.invalidArgument "option is missing its value")
  | argument :: value :: rest, o =>
    if argument = "--help" then .ok .help
    else if argument = "--matrix" then parseCpuArguments (value :: rest) { o with matrix := true }
    else do
      let o ← applyCpuOption argument value { o with configured := true }
      parseCpuArguments rest o

/-- The arguments of one `run_case`. -/
structure CpuCase where
  shape : Shape
  pattern : String
  seed : Word32
  nodes : ℕ := 1
  deriving DecidableEq, Repr

/-- `required_cases`. -/
def requiredCases : List CpuCase :=
  [{ shape := ⟨1, 1⟩, pattern := "zero", seed := 101 },
    { shape := ⟨1, 31⟩, pattern := "one_hot", seed := 102 },
    { shape := ⟨1, 32⟩, pattern := "ones", seed := 103 },
    { shape := ⟨1, 33⟩, pattern := "decimals", seed := 104 },
    { shape := ⟨31, 31⟩, pattern := "cancellation", seed := 105 },
    { shape := ⟨32, 32⟩, pattern := "small_integers", seed := 106 },
    { shape := ⟨32, 33⟩, pattern := "ones", seed := 107 },
    { shape := ⟨33, 32⟩, pattern := "one_hot", seed := 108 },
    { shape := ⟨33, 33⟩, pattern := "small_integers", seed := 109 },
    { shape := ⟨65, 97⟩, pattern := "random", seed := 110 },
    { shape := ⟨97, 65⟩, pattern := "decimals", seed := 111 },
    { shape := ⟨128, 128⟩, pattern := "random", seed := 112 }]

/-- The cases of a command. -/
def CpuOptions.cases (o : CpuOptions) : List CpuCase :=
  if o.matrix then requiredCases else [⟨o.shape, o.pattern, o.seed, o.nodes⟩]

/-- The printed records and the conjunction of the results, every case being run. -/
def runCpuCases (rd : Rounding binary64) :
    List CpuCase → Bool → List CpuRecord × Except HostException Bool
  | [], pass => ([], .ok pass)
  | c :: rest, pass =>
    match cpuRunCase rd c.shape c.pattern c.seed c.nodes with
    | .error e => ([], .error e)
    | .ok (record, result) =>
      let (records, outcome) := runCpuCases rd rest (result && pass)
      (record :: records, outcome)

structure CpuResult where
  exitCode : ℕ
  /-- The usage text was printed. -/
  usage : Bool := false
  records : List CpuRecord := []
  /-- The text after `input/error: `. -/
  error : Option String := none

def cpuMain (rd : Rounding binary64) (args : List String) : CpuResult :=
  match parseCpuArguments args {} with
  | .error e => { exitCode := 2, error := some e.what }
  | .ok .help => { exitCode := 0, usage := true }
  | .ok (.run o) =>
    if o.matrix = true ∧ o.configured = true then
      { exitCode := 2, error := some "--matrix cannot be combined with case options" }
    else match runCpuCases rd o.cases true with
      | (records, .error e) => { exitCode := 2, records, error := some e.what }
      | (records, .ok pass) => { exitCode := if pass then 0 else 1, records }

/-- A printed object of some members. -/
def jsonObject (members : List (String × List Char)) : List Char :=
  '\x7b' :: ([','].intercalate (members.map fun p =>
    '"' :: (p.1.toList ++ '"' :: ':' :: p.2)) ++ ['\x7d'])

/-- The printed fields of a row in order. -/
def RowComparison.fields (row : ℕ) (value : RowComparison) : List (String × Emitted) :=
  [("row", .natural row), ("actual", .number value.actual), ("reference", .number value.reference),
    ("abs_error", .number value.absError), ("tolerance", .number value.tolerance),
    ("scaled_error", .number value.scaledError), ("finite", .flag value.finite),
    ("pass", .flag value.pass)]

/-- Fields printed one by one. -/
def printFields (digits : ℚ → String) (fields : List (String × Emitted)) :
    List (String × List Char) := fields.map fun p => (p.1, p.2.print digits)

/-- The printed rows of a comparison. -/
def Comparison.rowTexts (digits : ℚ → String) (c : Comparison) : List (List Char) :=
  c.rows.zipIdx.map fun p => jsonObject (printFields digits (p.1.fields p.2))

/-- The printed fields of a comparison before its rows. -/
def Comparison.fields (c : Comparison) : List (String × Emitted) :=
  [("pass", .flag c.pass), ("max_abs_error", .number c.maxAbsError),
    ("max_scaled_error", .number c.maxScaledError)]

/-- `comparison_json`. -/
def comparisonJson (digits : ℚ → String) (c : Comparison) : List Char :=
  jsonObject (printFields digits c.fields ++ [("rows", jsonArray (c.rowTexts digits))])

/-- A text printed between quotes as it stands. -/
def quoted (s : String) : List Char := '"' :: (s.toList ++ ['"'])

/-- The printed members of a record in order. -/
def CpuRecord.members (digits : ℚ → String) (r : CpuRecord) : List (String × List Char) :=
  [("validation_level", quoted r.validationLevel), ("backend", quoted r.backend),
    ("status", quoted r.status), ("rows", (toString r.shape.rows).toList),
    ("cols", (toString r.shape.cols).toList), ("padded_rows", (toString r.paddedRows).toList),
    ("padded_cols", (toString r.paddedCols).toList), ("pattern", quoted r.pattern),
    ("seed", (toString r.seed.toNat).toList),
    ("exact", (if r.exact then "true" else "false").toList),
    ("quantized_fnv1a64", quoted r.quantizedFnv1a64),
    ("input_bytes_static", (toString r.inputBytesStatic).toList),
    ("output_bytes_static", (toString r.outputBytesStatic).toList),
    ("comparison", comparisonJson digits r.comparison)]

def CpuRecord.text (digits : ℚ → String) (r : CpuRecord) :
    List Char :=
  jsonObject (r.members digits)

/-- The patterns named in the usage text. -/
def cpuUsageText : String :=
  "CPU-only reference; never executes Metal or ttsim.\n" ++
    "row_reduce_cpu [--rows M --cols N --pattern PATTERN --seed S --nodes 1]\n" ++
    "row_reduce_cpu --matrix\nPatterns:" ++
    String.join (patterns.map fun p => " " ++ p.name) ++ "\n"

/-- The standard output. -/
def CpuResult.stdout (digits : ℚ → String) (result : CpuResult) : List Char :=
  (if result.usage then cpuUsageText.toList else []) ++
    result.records.flatMap fun r => r.text digits ++ ['\n']

end RowReduce
