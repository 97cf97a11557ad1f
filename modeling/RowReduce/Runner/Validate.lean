import RowReduce.Host.Bf16
import RowReduce.Runner.InputBytes

/-!
# Validating one result record

The runner recomputes the oracle and the error budget from the uploaded bytes,
decodes the physical output itself, and combines both with what the host says.
-/

namespace RowReduce

open BinaryFloat Fallible Grid Hexadecimal

def metalCommit : String := "89e1256c982a5b4739d173bcc446c8c748a44b40"

def exactPatterns : List String := ["zero", "one_hot", "ones", "cancellation", "small_integers"]

/-- `PATTERNS`. -/
def runnerPatterns : List String := exactPatterns ++ ["decimals", "random"]

/-- A requested execution. -/
structure Case where
  caseId : String
  rows : ℤ
  cols : ℤ
  pattern : String
  seed : ℤ := 20260909
  repeats : ℤ := 1
  deriving DecidableEq, Repr

/-- `re.fullmatch(r"[0-9a-f]{40}", text)`. -/
def isCommit (text : String) : Bool :=
  text.toList.length == 40 &&
    text.toList.all fun c => decide ('0' ≤ c ∧ c ≤ '9' ∨ 'a' ≤ c ∧ c ≤ 'f')

section Header

variable (fields : List (String × Json)) (case : Case)

def checkRequested (index : ℕ) : Except PyException Unit :=
  forM [("rows", case.rows), ("cols", case.cols), ("repeat_index", (index : ℤ))] fun p =>
    throwIf ((Json.get fields p.1).eqInt p.2 = false)
      (.valueError (p.1 ++ " does not match requested execution"))

def declaredPattern (index : ℕ) : Except PyException String := do
  let pattern := Json.get fields "pattern"
  let known ← pattern.memNames runnerPatterns
  throwIf (known = false ∨ (index = 0 ∧ pattern.eqStr case.pattern = false))
    (.valueError "unexpected input pattern")
  return pattern.text

def checkExecution : Except PyException Unit := do
  throwIf ((Json.get fields "seed").eqInt case.seed = false)
    (.valueError "seed does not match requested execution")
  throwIf ((Json.get fields "backend").eqStr "ttsim" = false ∨
      (Json.get fields "validation_stage").eqStr "C3" = false)
    (.valueError "host did not report custom-kernel ttsim execution")

def compiledCommit : Except PyException String :=
  match Json.get fields "compiled_source_commit" with
  | .str commit => do
    throwIf (isCommit commit = false) (.valueError
      "host binary lacks a valid compiled source commit; configure/build committed source")
    return commit
  | _ => .error (.valueError
      "host binary lacks a valid compiled source commit; configure/build committed source")

/-- The remaining fields of the execution contract with their tests. -/
def contractFields : List (String × (Json → Bool)) :=
  [("nodes", fun value => value.eqInt 1), ("repeat_count", fun value => value.eqInt case.repeats),
    ("upstream_commit", fun value => value.eqStr metalCommit),
    ("quantized_bits_encoding", fun value => value.eqStr "logical_row_major_bf16_little_endian"),
    ("output_bits_encoding", fun value => value.eqStr "tile_face_bf16_little_endian"),
    ("input_layout_verified_against_upstream", fun value => value.eqTrue),
    ("input_quantization_verified_against_upstream", fun value => value.eqTrue)]

def checkContract : Except PyException Unit :=
  forM (contractFields case) fun p => throwIf (p.2 (Json.get fields p.1) = false)
    (.valueError ("host " ++ p.1 ++ " does not satisfy the execution contract"))

/-- All checks before the uploaded bits: the declared pattern and the compiled commit. -/
def validateHeader (index : ℕ) : Except PyException (String × String) := do
  checkRequested fields case index
  let pattern ← declaredPattern fields case index
  checkExecution fields case
  let commit ← compiledCommit fields
  checkContract fields case
  return (pattern, commit)

end Header

/-- A string of the given length, decoded. -/
def fixedHex (value : Json) (length : ℤ) (message : String) : Except PyException (List Byte) :=
  match value with
  | .str text => do
    throwIf ((text.length : ℤ) ≠ length) (.valueError message)
    fromHex text
  | _ => .error (.valueError message)

/-- `struct.unpack("<f", b"\0\0" + bits)[0]`. -/
def unpackFloat : List Byte → Except PyException FloatValue
  | [low, high] => .ok (bf16Value (bytesWord low high))
  | _ => .error (.structError "unpack requires a buffer of 4 bytes")

/-- The values of consecutive byte pairs. -/
def unpackFloats : List Byte → Except PyException (List FloatValue)
  | [] => .ok []
  | low :: high :: rest => do
    let value ← unpackFloat [low, high]
    let values ← unpackFloats rest
    return value :: values
  | [_] => .error (.structError "unpack requires a buffer of 4 bytes")

/-- Nonfinite, or nonzero with magnitude outside `[2^-8,1]`. -/
def violatesContract (x : FloatValue) : Bool :=
  !x.isFinite || (!x.eq (.finite 0) &&
    !(FloatValue.le (.finite (2 ^ (-8 : ℤ))) x.abs && FloatValue.le x.abs (.finite 1)))

/-- The uploaded bytes and their values. -/
def uploadedInput (fields : List (String × Json)) (case : Case) (pattern : String) :
    Except PyException (List Byte × List ℚ) := do
  let raw ← fixedHex (Json.get fields "quantized_bits_hex") (4 * case.rows * case.cols)
    "quantized_bits_hex must encode logical M*N BF16 words"
  let expected ← expectedInputBytes case.rows case.cols pattern case.seed
  throwIf (raw ≠ expected)
    (.valueError "uploaded BF16 bytes do not match the declared pattern and seed")
  let values ← unpackFloats raw
  throwIf (values.any violatesContract = true)
    (.valueError "uploaded bits violate the finite BF16 input contract")
  return (raw, values.map FloatValue.toRat)

/-- The test and the conversion of one element; large integers overflow in the test. -/
def finiteItem (name : String) : Json → Except PyException ℚ
  | .int n => FloatReading.ieee.ofInt n
  | .float (.finite q) => .ok q
  | _ => .error (.valueError (name ++ " contains a non-finite or non-numeric value"))

def finiteVector (value : Json) (count : ℤ) (name : String) : Except PyException (List ℚ) :=
  match value with
  | .list items => do
    throwIf ((items.length : ℤ) ≠ count)
      (.valueError (name ++ " must contain " ++ toString count ++ " values"))
    items.mapM (finiteItem name)
  | _ => .error (.valueError (name ++ " must contain " ++ toString count ++ " values"))

/-- The index of a word in the tiled output. -/
def outputPosition (row col : ℕ) : ℕ :=
  let face := row % 32 / 16 * 2 + col / 16
  row / 32 * 1024 + face * 256 + row % 16 * 16 + col % 16

/-- One pass of the decoding loop, on a result word or on padding. -/
def checkOutputWord (rows : ℤ) (actual : List ℚ) (raw : List Byte) (paddingZero : Bool)
    (p : ℕ × ℕ) : Except PyException Bool :=
  let bits := (raw.drop (outputPosition p.1 p.2 * 2)).take 2
  if (p.1 : ℤ) < rows ∧ p.2 = 0 then do
    let value ← unpackFloat bits
    throwIf (value.isFinite = false ∨ value.eq (.finite (actual.getD p.1 0)) = false)
      (.valueError ("actual row " ++ toString p.1 ++ " differs from physical BF16 output readback"))
    return paddingZero
  else
    return if fromBytesLittle bits &&& 0x7fff ≠ 0 then false else paddingZero

/-- The rows of the padded output. -/
def runnerPaddedRows (rows : ℤ) : ℤ := 32 * ((rows + 31) / 32)

def decodeOutputBits (encoded : Json) (rows : ℤ) (actual : List ℚ) : Except PyException Bool := do
  let raw ← fixedHex encoded (4 * runnerPaddedRows rows * 32)
    "output_tiled_bits_hex must contain full padded output tiles"
  (positions (runnerPaddedRows rows).toNat 32).foldlM (checkOutputWord rows actual raw) true

section Oracle

variable (fr : FloatReading)

/-- The rounding-error coefficient, undefined where its divisor vanishes. -/
def runnerGamma (cols : ℤ) : Except PyException ℚ := do
  let n ← fr.ofInt (cols + 64)
  let k := fr.rd.round (n * 2 ^ (-24 : ℤ))
  throwIf (fr.rd.round (1 - k) = 0) (.zeroDivisionError "float division by zero")
  return fr.rd.round (k / fr.rd.round (1 - k))

def runnerBudget (gamma expected absoluteSum : ℚ) : ℚ :=
  fr.rd.round (fr.rd.round (fr.rd.round (2 ^ (-8 : ℤ) * |expected|) +
    fr.rd.round (fr.rd.round (fr.rd.round (1 + 2 ^ (-8 : ℤ)) * gamma) * absoluteSum)) +
      2 ^ (-20 : ℤ))

/-- The values recomputed for one row. -/
structure ValidatedRow where
  reference : ℚ
  absSum : ℚ
  tolerance : ℚ
  error : ℚ
  failed : Bool
  deriving DecidableEq, Repr

/-- `values[row * cols:(row + 1) * cols]`. -/
def rowValues (values : List ℚ) (cols : ℤ) (row : ℕ) : List ℚ :=
  (values.drop (row * cols.toNat)).take cols.toNat

/-- One pass of the loop over the rows. -/
def validateRow (case : Case) (exact : Bool) (gamma : ℚ) (values actual hostReference : List ℚ)
    (row : ℕ) : Except PyException ValidatedRow := do
  let inputs := rowValues values case.cols row
  let expected ← fr.fsum inputs
  let absoluteSum ← fr.fsum (inputs.map abs)
  let budget := if exact then 0 else runnerBudget fr gamma expected absoluteSum
  throwIf (hostReference.getD row 0 ≠ expected)
    (.valueError ("host reference differs from BF16 oracle at row " ++ toString row))
  let error := |fr.rd.round (actual.getD row 0 - expected)|
  return ⟨expected, absoluteSum, budget, error, decide (budget < error)⟩

/-- What the runner records of a validated execution. -/
structure Validated where
  repeatIndex : ℕ
  pattern : String
  seed : ℤ
  compiledSourceCommit : String
  inputSha256 : String
  actual : List ℚ
  reference : List ℚ
  absSums : List ℚ
  absErrors : List ℚ
  tolerances : List ℚ
  exact : Bool
  maxAbsError : ℚ
  maxScaledError : ℚ
  failedRows : List ℕ
  outputSha256 : String
  paddingZero : Bool
  status : String
  deriving DecidableEq, Repr

/-- The indices of the failed rows. -/
def failedRows (rows : List ValidatedRow) : List ℕ :=
  (List.range rows.length).filter fun row => (rows[row]?.map ValidatedRow.failed).getD false

def validateResult (sha256 : List Byte → String) (case : Case) (index : ℕ) (result : Json) :
    Except PyException Validated :=
  match result with
  | .dict fields => do
    let (pattern, commit) ← validateHeader fields case index
    let (raw, values) ← uploadedInput fields case pattern
    let actual ← finiteVector (Json.get fields "actual") case.rows "actual"
    let output := Json.get fields "output_tiled_bits_hex"
    let paddingZero ← decodeOutputBits output case.rows actual
    let hostReference ← finiteVector (Json.get fields "reference") case.rows "reference"
    let exact := exactPatterns.contains pattern
    throwIf ((Json.get fields "exact").isBool exact = false)
      (.valueError "host exact flag disagrees with the input-pattern contract")
    let gamma ← runnerGamma fr case.cols
    let rows ← (List.range case.rows.toNat).mapM
      (validateRow fr case exact gamma values actual hostReference)
    let hostStatus := Json.get fields "status"
    let known ← hostStatus.memNames ["pass", "numerical-fail"]
    throwIf (known = false) (.valueError "unexpected host result status")
    let maxAbsError ← pyMax (rows.map ValidatedRow.error)
    let maxScaledError ← pyMax (rows.map fun row =>
      fr.rd.round (row.error / max row.absSum (2 ^ (-20 : ℤ))))
    let outputRaw ← fromHex output.text
    return { repeatIndex := index
             pattern
             seed := case.seed
             compiledSourceCommit := commit
             inputSha256 := sha256 raw
             actual
             reference := rows.map ValidatedRow.reference
             absSums := rows.map ValidatedRow.absSum
             absErrors := rows.map ValidatedRow.error
             tolerances := rows.map ValidatedRow.tolerance
             exact
             maxAbsError
             maxScaledError
             failedRows := failedRows rows
             outputSha256 := sha256 outputRaw
             paddingZero
             status :=
               if failedRows rows ≠ [] ∨ hostStatus.eqStr "pass" = false ∨ paddingZero = false ∨
                 (Json.get fields "padding_zero").isBool true = false then "numerical-fail"
               else "pass" }
  | _ => .error (.valueError "result record must be a JSON object")

end Oracle

end RowReduce
