import RowReduce.Core.Grid
import RowReduce.Runner.Validate

/-!
# The artifact auditor

The audit of one host record, written without the runner's code: exact rational
arithmetic, physical faces enumerated in serialized order, and tables of words.
-/

namespace RowReduce.Audit

open BinaryFloat Fallible Grid Hexadecimal

/-- `METAL`. -/
def metal : String := "89e1256c982a5b4739d173bcc446c8c748a44b40"

/-- `EXACT`. -/
def exact : List String := ["zero", "one_hot", "ones", "cancellation", "small_integers"]

def require (condition : Prop) [Decidable condition] (message : String) :
    Except PyException Unit :=
  throwIf (¬condition) (.valueError message)

/-- A text of the given length over the digits `[0-9a-f]`. -/
def checkHash (value : Json) (length : ℕ) (label : String) : Except PyException Unit :=
  match value with
  | .str text =>
    require ((text.toList.length == length &&
      text.toList.all fun c => decide ('0' ≤ c ∧ c ≤ '9' ∨ 'a' ≤ c ∧ c ≤ 'f')) = true)
      (label ++ " has invalid format")
  | _ => .error (.valueError (label ++ " has invalid format"))

def finite (value : Json) (label : String) : Except PyException ℚ :=
  match value with
  | .int n => FloatReading.ieee.ofInt n
  | .float (.finite q) => .ok q
  | _ => .error (.valueError (label ++ " is not finite numeric data"))

def vector (value : Json) (rows : ℤ) (label : String) : Except PyException (List ℚ) :=
  match value with
  | .list items => do
    require ((items.length : ℤ) = rows) (label ++ " length mismatch")
    items.mapM fun item => finite item label
  | _ => .error (.valueError (label ++ " length mismatch"))

/-- `math.isclose` on finite numbers. -/
def isClose (rd : Rounding binary64) (a b relTol absTol : ℚ) : Bool :=
  let diff := |rd.round (b - a)|
  decide (a = b) || decide (diff ≤ |rd.round (relTol * b)|) ||
    decide (diff ≤ |rd.round (relTol * a)|) || decide (diff ≤ absTol)

def near (fr : FloatReading) (a : Json) (b : ℚ) (label : String) : Except PyException Unit := do
  let a ← finite a label
  let b ← fr.ofFraction b
  require (isClose fr.rd a b (fr.rd.round (2 / 10 ^ 14)) (fr.rd.round (1 / 10 ^ 18)) = true)
    (label ++ " differs from independently calculated value")

/-- `[int.from_bytes(raw[n:n + 2], "little") for n in range(0, len(raw), 2)]`. -/
def rawWords (raw : List Byte) : List ℕ :=
  (List.range ((raw.length + 1) / 2)).map fun n => fromBytesLittle ((raw.drop (n * 2)).take 2)

def words (encoded : Json) (count : ℤ) (label : String) :
    Except PyException (List ℕ × List Byte) :=
  match encoded with
  | .str text => do
    require (text.toList.all isDigit = true) (label ++ " is not hex")
    require ((text.length : ℤ) = count * 4) (label ++ " size mismatch")
    let raw ← fromHex text
    return (rawWords raw, raw)
  | _ => .error (.valueError (label ++ " is not hex"))

def bf16 (word : ℕ) : Except PyException ℚ := do
  let exponent := (word >>> 7) &&& 255
  let fraction := word &&& 127
  require (exponent ≠ 255) "BF16 NaN or infinity found"
  let significand := if exponent = 0 then fraction else 128 + fraction
  let power : ℤ := if exponent = 0 then -133 else exponent - 134
  let value : ℚ := significand * 2 ^ power
  return if word &&& 32768 ≠ 0 then -value else value

/-- The cells of the matrix by row and column, `none` until written. -/
abbrev Matrix := ℕ × ℕ → Option ℚ

/-- The positions in serialized order: tiles, faces, rows of a face, columns of a face. -/
def facePositions (paddedRows : ℤ) : List (ℕ × ℕ) :=
  (List.range ((paddedRows + 31) / 32).toNat).flatMap fun tile =>
    [(0, 0), (0, 16), (16, 0), (16, 16)].flatMap fun face =>
      (List.range 16).flatMap fun row =>
        (List.range 16).map fun col => (32 * tile + face.1 + row, face.2 + col)

/-- `result[row][col] = bf16(next(cursor))`. -/
def fillCell (s : Matrix × List ℕ) (p : ℕ × ℕ) : Except PyException (Matrix × List ℕ) :=
  match s.2 with
  | [] => .error .stopIteration
  | word :: cursor => do
    let value ← bf16 word
    return (Function.update s.1 p (some value), cursor)

def outputMatrix (bits : List ℕ) (paddedRows : ℤ) : Except PyException Matrix := do
  let (matrix, cursor) ← (facePositions paddedRows).foldlM fillCell ((fun _ => none), bits)
  require (cursor = []) "extra output words"
  return matrix

/-- The word of a pattern at `(row, col)`; the last branch is `zero`. -/
def expectedWord (rows cols : ℤ) (pattern : String) (row col : ℕ) : ℕ :=
  if pattern = "decimals" then [0x3dcd, 0xbe4d, 0x3e9a].getD ((row + col) % 3) 0
  else if pattern = "ones" then 0x3f80
  else if pattern = "one_hot" then
    if (row : ℤ) = rows - 1 ∧ (col : ℤ) = cols - 1 then 0x3f80 else 0
  else if pattern = "small_integers" then
    if (col : ℤ) < min ((row : ℤ) % 17 + 1) cols then 0x3f80 else 0
  else if pattern = "cancellation" then
    if cols % 2 ≠ 0 ∧ (col : ℤ) = cols - 1 then 0 else if col % 2 = 0 then 0x3f80 else 0xbf80
  else 0

def checkWord (bits : List ℕ) (rows cols : ℤ) (pattern : String) (p : ℕ × ℕ) :
    Except PyException Unit :=
  require (bits.getD (p.1 * cols.toNat + p.2) 0 = expectedWord rows cols pattern p.1 p.2)
    "input pattern word mismatch"

/-- Random words are left to the other validators. -/
def checkPattern (bits : List ℕ) (rows cols : ℤ) (pattern : String) : Except PyException Unit := do
  require (pattern ∈ exact ++ ["decimals", "random"]) "unknown pattern"
  if pattern = "random" then return ()
  else forM (positions rows.toNat cols.toNat) (checkWord bits rows cols pattern)

/-- `type(value) is type(expected) and value == expected`, for the types of the expected fields. -/
def sameTyped : Json → Json → Bool
  | .int m, .int n => m == n
  | .str s, .str t => s == t
  | .bool b, .bool c => b == c
  | _, _ => false

/-- The rows of the padded shape. -/
def paddedExtent (extent : ℤ) : ℤ := ((extent - 1) / 32 + 1) * 32

/-- The exact values of one row. -/
structure AuditedRow where
  sum : ℚ
  magnitude : ℚ
  error : ℚ
  limit : ℚ

/-- What the audit returns of an accepted record. -/
structure Audited where
  inputSha256 : String
  outputSha256 : String
  actual : List ℚ
  reference : List ℚ
  absSums : List ℚ
  absErrors : List ℚ
  tolerances : List ℚ
  maxAbsError : ℚ
  maxScaledError : ℚ
  inputWords : List ℕ

section Host

variable (fr : FloatReading) (sha256 : List Byte → String) (host : List (String × Json))
  (rows cols : ℤ) (pattern : String) (seed repeats : ℤ) (index : ℕ)

/-- The fields with a required value, in order. -/
def hostFields : List (String × Json) :=
  [("rows", .int rows), ("cols", .int cols), ("pattern", .str pattern), ("seed", .int seed),
    ("repeat_count", .int repeats), ("repeat_index", .int index), ("nodes", .int 1),
    ("padded_rows", .int (paddedExtent rows)), ("padded_cols", .int (paddedExtent cols)),
    ("status", .str "pass"), ("validation_stage", .str "C3"), ("backend", .str "ttsim"),
    ("upstream_commit", .str metal), ("padding_zero", .bool true),
    ("exact", .bool (exact.contains pattern)),
    ("input_layout_verified_against_upstream", .bool true),
    ("input_quantization_verified_against_upstream", .bool true),
    ("quantized_bits_encoding", .str "logical_row_major_bf16_little_endian"),
    ("output_bits_encoding", .str "tile_face_bf16_little_endian")]

def checkFields : Except PyException Unit :=
  forM (hostFields rows cols pattern seed repeats index) fun p =>
    require (sameTyped (Json.get host p.1) p.2 = true) ("host field mismatch: " ++ p.1)

/-- The uploaded words, their bytes and their values, inside the numeric contract. -/
def auditInput : Except PyException (List ℕ × List Byte × List ℚ) := do
  let (bits, raw) ← words (Json.get host "quantized_bits_hex") (rows * cols) "input"
  let inputs ← bits.mapM bf16
  require (∀ q ∈ inputs, q = 0 ∨ (1 / 256 ≤ |q| ∧ |q| ≤ 1)) "BF16 input outside numeric contract"
  checkPattern bits rows cols pattern
  return (bits, raw, inputs)

/-- Outside the results every cell is zero. -/
def checkPadding (matrix : Matrix) (p : ℕ × ℕ) : Except PyException Unit :=
  if rows ≤ p.1 ∨ p.2 ≠ 0 then
    require (matrix p = some 0)
      ("output padding nonzero at " ++ toString p.1 ++ "," ++ toString p.2)
  else .ok ()

/-- The output matrix and the bytes it comes from. -/
def auditOutput : Except PyException (Matrix × List Byte) := do
  let (bits, raw) ← words (Json.get host "output_tiled_bits_hex") (paddedExtent rows * 32) "output"
  let matrix ← outputMatrix bits (paddedExtent rows)
  forM (positions (paddedExtent rows).toNat 32) (checkPadding rows matrix)
  return (matrix, raw)

/-- `Fraction(cols + 64, 2**24 - cols - 64)`. -/
def auditGamma : Except PyException ℚ := do
  throwIf (2 ^ 24 - cols - 64 = 0)
    (.zeroDivisionError ("Fraction(" ++ toString (cols + 64) ++ ", 0)"))
  return ((cols + 64 : ℤ) : ℚ) / ((2 ^ 24 - cols - 64 : ℤ) : ℚ)

/-- The budget of a row with this sum and this magnitude. -/
def auditBudget (gamma sum magnitude : ℚ) : ℚ :=
  if exact.contains pattern then 0
  else |sum| / 256 + 257 / 256 * gamma * magnitude + 1 / 2 ^ 20

/-- One pass of the loop over the rows. -/
def auditRow (inputs : List ℚ) (matrix : Matrix) (actual refs errors limits : List ℚ) (gamma : ℚ)
    (row : ℕ) : Except PyException AuditedRow := do
  let logical := rowValues inputs cols row
  let sum := logical.sum
  let magnitude := (logical.map abs).sum
  let observed := actual.getD row 0
  require (matrix (row, 0) = some observed) "reported actual does not match BF16 face readback"
  require (refs.getD row 0 = sum) "host oracle differs from exact BF16 rational sum"
  let error := |observed - sum|
  let budget := auditBudget pattern gamma sum magnitude
  require (error ≤ budget) ("numeric failure at row " ++ toString row ++ ": error=" ++
    toString error ++ " budget=" ++ toString budget)
  near fr (.float (.finite (errors.getD row 0))) error "row error"
  near fr (.float (.finite (limits.getD row 0))) budget "row budget"
  return ⟨sum, magnitude, error, budget⟩

def auditHost : Except PyException Audited := do
  checkFields host rows cols pattern seed repeats index
  checkHash (Json.get host "compiled_source_commit") 40 "compiled source commit"
  let (bits, inputRaw, inputs) ← auditInput host rows cols pattern
  let (matrix, outputRaw) ← auditOutput host rows
  let actual ← vector (Json.get host "actual") rows "host actual"
  let refs ← vector (Json.get host "reference") rows "host reference"
  let reportedErrors ← vector (Json.get host "abs_errors") rows "host errors"
  let reportedLimits ← vector (Json.get host "tolerances") rows "host tolerance"
  let gamma ← auditGamma cols
  let audited ← (List.range rows.toNat).mapM
    (auditRow fr cols pattern inputs matrix actual refs reportedErrors reportedLimits gamma)
  let maxError ← pyMax (audited.map AuditedRow.error)
  let maxScaled ← pyMax (audited.map fun row => row.error / max row.magnitude (1 / 2 ^ 20))
  near fr (Json.get host "max_abs_error") maxError "max error"
  near fr (Json.get host "max_scaled_error") maxScaled "max scaled error"
  require ((Json.get host "failed_rows").eqNil = true) "host reports failed rows"
  let wallTime ← finite (Json.get host "execute_wall_seconds") "host wall time"
  require (0 ≤ wallTime) "negative host time"
  return { inputSha256 := sha256 inputRaw
           outputSha256 := sha256 outputRaw
           actual
           reference := audited.map AuditedRow.sum
           absSums := audited.map AuditedRow.magnitude
           absErrors := audited.map AuditedRow.error
           tolerances := audited.map AuditedRow.limit
           maxAbsError := maxError
           maxScaledError := maxScaled
           inputWords := bits }

end Host

end RowReduce.Audit
