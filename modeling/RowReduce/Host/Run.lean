import RowReduce.Host.Compare
import RowReduce.Host.Encoding
import RowReduce.Host.Output
import RowReduce.Host.Pattern
import RowReduce.Host.Options

/-!
# Launches and result records

The repeat loop of the host program: choose the input of each launch, upload it
over a poisoned output, read the output back, judge it and emit one record. The
runtime library and the device are parameters.
-/

namespace RowReduce

open BinaryFloat Fallible Grid

/-- The conversions of the runtime library. -/
structure Upstream where
  tilizeNfaces : List Bf16Word → ℕ → ℕ → List Bf16Word
  untilizeNfaces : List Bf16Word → ℕ → ℕ → List Bf16Word
  fp32ToBf16 : Float32 → Bf16Word

/-- Everything the program asks of the device. -/
structure Device where
  createUnitMesh : Except HostException Unit
  wormhole : Bool
  /-- Buffer allocation and program creation. -/
  setup : Except HostException Unit
  /-- The readback of a launch on the uploaded input and initial output words. -/
  launch : ℕ → List Word32 → List Word32 → Except HostException (List Word32)
  seconds : ℕ → FloatValue
  readProfiler : ℕ → Except HostException Unit
  close : Except HostException Bool

/-- What one run of the program depends on beside its arguments and files. -/
structure HostEnv where
  rd : Rounding binary64
  upstream : Upstream
  device : Device
  upstreamCommit : String
  sourceCommit : String
  /-- `TT_METAL_SIMULATOR` is set. -/
  simulator : Bool
  /-- `TT_METAL_DEVICE_PROFILER`. -/
  profiler : Option String

/-- The fields of one printed result. -/
structure ResultRecord where
  status : String
  validationStage : String
  backend : String
  upstreamCommit : String
  compiledSourceCommit : String
  shape : Shape
  paddedRows : ℕ
  paddedCols : ℕ
  pattern : String
  seed : Word32
  repeatIndex : ℕ
  repeatCount : ℕ
  exact : Bool
  paddingZero : Bool
  quantizedBitsHex : String
  outputTiledBitsHex : String
  comparison : Comparison
  executeWallSeconds : FloatValue
  measurementKind : String
  deriving DecidableEq, Repr

/-- Two half-words to a transferred word, low half first. -/
def packWords (tiled : List Bf16Word) : List Word32 :=
  (List.range (tiled.length / 2)).map fun i =>
    (tiled.getD (2 * i) 0).setWidth 32 ||| ((tiled.getD (2 * i + 1) 0).setWidth 32 <<< 16)

def transferWords (up : Upstream) (input : PreparedInput) : Except HostException (List Word32) := do
  let tiled := up.tilizeNfaces input.paddedRowMajor input.paddedRows input.paddedCols
  throwIf (tiled ≠ input.tiled)
    (.runtimeError "Upstream tilizer disagrees with independent layout oracle")
  return packWords tiled

def checkUpstreamQuantization (up : Upstream) (original : List Float32) (input : PreparedInput) :
    Except HostException Unit :=
  forM (List.range original.length) fun i =>
    throwIf (up.fp32ToBf16 (original.getD i 0) ≠ input.quantized.getD i 0)
      (.runtimeError "Upstream BF16 converter disagrees with independent quantizer")

/-- The half-words of the transferred words, low half first. -/
def resultBits (words : List Word32) : List Bf16Word :=
  words.flatMap fun word : Word32 => [word.setWidth 16, (word >>> 16).setWidth 16]

/-- The mask test over all words outside the logical rows' column zero. -/
def paddingZeroMask (rows paddedRows : ℕ) (rowMajor : List Bf16Word) : Bool :=
  (positions paddedRows 32).all fun p =>
    !(decide (rows ≤ p.1 ∨ p.2 ≠ 0) &&
      decide (rowMajor.getD (p.1 * 32 + p.2) 0 &&& 0x7fff#16 ≠ 0#16))

/-- `a != b` on vectors of `float`. -/
def floatsDiffer (a b : List Float32) : Bool :=
  !(a.length == b.length && (a.zip b).all fun p => p.1.value.eq p.2.value)

/-- `pattern != "file" && comparison_is_exact(pattern)`. -/
def launchIsExact (pattern : String) : Except HostException Bool :=
  if pattern = "file" then .ok false else comparisonIsExact pattern

/-- What the readback of one launch amounts to. -/
structure Judgement where
  exact : Bool
  comparison : Comparison
  paddingZero : Bool

/-- The checks between readback and emission. -/
def judgeReadback (env : HostEnv) (options : Options) (pattern : String) (prepared : PreparedInput)
    (bits : List Bf16Word) : Except HostException Judgement := do
  let rowMajor := env.upstream.untilizeNfaces bits prepared.paddedRows 32
  let paddingZero := paddingZeroMask options.shape.rows prepared.paddedRows rowMajor
  let actual := (List.range options.shape.rows).map fun r => bf16ToFloat (rowMajor.getD (r * 32) 0)
  let exact ← launchIsExact pattern
  let comparison ← compareRows env.rd actual prepared.reference options.shape.cols exact
  if comparison.pass && paddingZero then
    let decoded ← decodeOutput bits options.shape
    throwIf (floatsDiffer decoded actual = true)
      (.runtimeError "Upstream untilizer disagrees with independent output decoder")
  return ⟨exact, comparison, paddingZero⟩

def emitResult (env : HostEnv) (options : Options) (pattern : String) (iteration : ℕ)
    (input : PreparedInput) (j : Judgement) (outputBits : List Bf16Word) (seconds : FloatValue) :
    ResultRecord where
  status := if j.comparison.pass && j.paddingZero then "pass" else "numerical-fail"
  validationStage := if env.simulator then "C3" else "C4"
  backend := if env.simulator then "ttsim" else "device"
  upstreamCommit := env.upstreamCommit
  compiledSourceCommit := env.sourceCommit
  shape := options.shape
  paddedRows := input.paddedRows
  paddedCols := input.paddedCols
  pattern := pattern
  seed := options.seed
  repeatIndex := iteration
  repeatCount := options.repeats
  -- evaluated a second time, after the comparison accepted the name
  exact := (launchIsExact pattern).toOption.getD false
  paddingZero := j.paddingZero
  quantizedBitsHex := quantizedBitsHex input.quantized
  outputTiledBitsHex := quantizedBitsHex outputBits
  comparison := j.comparison
  executeWallSeconds := seconds
  measurementKind := if env.simulator then "simulator_wall_time" else "host_wall_time"

/-- The loop state: the last launch's input and the conjunction of the verdicts. -/
structure RunState where
  pattern : String
  prepared : PreparedInput
  pass : Bool

/-- The input of a later launch, chosen from the bits of the previous one. -/
def nextInput (env : HostEnv) (options : Options) (prepared : PreparedInput) :
    Except HostException (String × PreparedInput) := do
  let alreadyOnes := prepared.quantized.all fun bits => bits == 0x3f80#16
  let pattern := if alreadyOnes then "zero" else "ones"
  let original ← makeInput options.shape pattern options.seed
  let prepared ← prepareInput env.rd options.shape original options.nodes
  checkUpstreamQuantization env.upstream original prepared
  return (pattern, prepared)

/-- The pattern and input of the launch of this iteration. -/
def launchInput (env : HostEnv) (options : Options) (s : RunState) (iteration : ℕ) :
    Except HostException (String × PreparedInput) :=
  if iteration = 0 then .ok (s.pattern, s.prepared) else nextInput env options s.prepared

/-- Every output word before a launch. -/
def poison (ht : ℕ) : List Word32 := List.replicate (ht * 2048 / 4) 0x7fc17fc1#32

/-- One pass of the loop up to its record. -/
def runIteration (env : HostEnv) (options : Options) (ht : ℕ) (s : RunState) (iteration : ℕ) :
    Except HostException (ResultRecord × RunState) := do
  let (pattern, prepared) ← launchInput env options s iteration
  let words ← transferWords env.upstream prepared
  let resultWords ← env.device.launch iteration words (poison ht)
  throwIf (resultWords.length ≠ (poison ht).length)
    (.runtimeError "Output transfer has the wrong length")
  let bits := resultBits resultWords
  let j ← judgeReadback env options pattern prepared bits
  return (emitResult env options pattern iteration prepared j bits (env.device.seconds iteration),
    ⟨pattern, prepared, j.comparison.pass && j.paddingZero && s.pass⟩)

/-- The records printed by the remaining launches and how the loop ends. -/
def runLoop (env : HostEnv) (options : Options) (ht : ℕ) :
    List ℕ → RunState → List ResultRecord × Except HostException Bool
  | [], s => ([], .ok s.pass)
  | iteration :: rest, s =>
    match runIteration env options ht s iteration with
    | .error e => ([], .error e)
    | .ok (record, s') =>
      -- the record is out before the profiler is read
      match if options.profile then env.device.readProfiler iteration else .ok () with
      | .error e => ([record], .error e)
      | .ok () =>
        let (records, outcome) := runLoop env options ht rest s'
        (record :: records, outcome)

/-- The pattern name of the first launch. -/
def firstPattern (options : Options) : String :=
  if options.inputFile = "" then options.pattern else "file"

def run (env : HostEnv) (options : Options) (prepared : PreparedInput) :
    List ResultRecord × Except HostException Bool :=
  if env.device.wormhole = false then ([], .error (.runtimeError "Only Wormhole is supported"))
  else match env.device.setup with
    | .error e => ([], .error e)
    | .ok () =>
      runLoop env options (prepared.paddedRows / 32) (List.range options.repeats)
        ⟨firstPattern options, prepared, true⟩

end RowReduce
