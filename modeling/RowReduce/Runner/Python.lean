import RowReduce.Core.Fallible
import RowReduce.Core.FloatArithmetic
import RowReduce.Core.Hexadecimal

/-!
# Python values

The values `json.loads` can return, the comparisons the tools make on them, and
the exception classes those comparisons and the library calls can raise.
-/

namespace RowReduce

open BinaryFloat Hexadecimal

/-- Exceptions with their text, by class. -/
inductive PyException where
  | valueError (text : String)
  | typeError (text : String)
  | keyError (text : String)
  | structError (text : String)
  | overflowError (text : String)
  | zeroDivisionError (text : String)
  | osError (text : String)
  | stopIteration
  deriving DecidableEq, Repr

/-- `str(error)`. -/
def PyException.text : PyException → String
  | .valueError text | .typeError text | .keyError text | .structError text
  | .overflowError text | .zeroDivisionError text | .osError text => text
  | .stopIteration => ""

/-- A value returned by `json.loads`. -/
inductive Json where
  | null
  | bool (b : Bool)
  | int (n : ℤ)
  | float (x : FloatValue)
  | str (s : String)
  | list (items : List Json)
  | dict (fields : List (String × Json))

namespace Json

/-- `value == n` for an integer `n`; `True` and `False` count as one and zero. -/
def eqInt : Json → ℤ → Bool
  | .bool b, n => decide ((if b then 1 else 0) = n)
  | .int m, n => decide (m = n)
  | .float (.finite q), n => decide (q = n)
  | _, _ => false

/-- `value == s` for a string `s`. -/
def eqStr : Json → String → Bool
  | .str t, s => t == s
  | _, _ => false

/-- `value == True`. -/
def eqTrue (value : Json) : Bool := value.eqInt 1

/-- `value == []`. -/
def eqNil : Json → Bool
  | .list items => items.isEmpty
  | _ => false

/-- `value is b` for a Boolean `b`. -/
def isBool : Json → Bool → Bool
  | .bool c, b => c == b
  | _, _ => false

/-- `value in names`, which hashes the value first. -/
def memNames (value : Json) (names : List String) : Except PyException Bool :=
  match value with
  | .list _ => .error (.typeError "unhashable type: 'list'")
  | .dict _ => .error (.typeError "unhashable type: 'dict'")
  | .str s => .ok (names.contains s)
  | _ => .ok false

/-- `fields.get(name)`. -/
def get (fields : List (String × Json)) (name : String) : Json := (fields.lookup name).getD .null

@[simp] theorem eqInt_int (m n : ℤ) : (Json.int m).eqInt n = decide (m = n) := rfl

@[simp] theorem eqStr_str (s t : String) : (Json.str s).eqStr t = (s == t) := rfl

@[simp] theorem eqTrue_true : (Json.bool true).eqTrue = true := rfl

@[simp] theorem isBool_bool (b c : Bool) : (Json.bool b).isBool c = (b == c) := rfl

/-- Only the string itself compares equal to a string. -/
theorem eqStr_eq_true_iff {value : Json} {s : String} : value.eqStr s = true ↔ value = .str s := by
  cases value <;> simp [eqStr]

/-- Only the boolean itself is that boolean. -/
theorem isBool_eq_true_iff {value : Json} {b : Bool} : value.isBool b = true ↔ value = .bool b := by
  cases value <;> simp [isBool]

/-- Only the empty list compares equal to `[]`. -/
theorem eqNil_eq_true_iff {value : Json} : value.eqNil = true ↔ value = .list [] := by
  cases value <;> simp [eqNil]

/-- A value is in a tuple of names where it is one of them. -/
theorem memNames_eq_ok_true_iff {value : Json} {names : List String} :
    value.memNames names = .ok true ↔ ∃ s ∈ names, value = .str s := by
  cases value <;> simp [memNames]

end Json

/-- `value` where it is a string. -/
def Json.text : Json → String
  | .str s => s
  | _ => ""

/-- How a tool's double arithmetic is read: its rounding, and the exact values that overflow. A sum
overflows by its exact value alone; that `math.fsum` can also overflow in a partial sum, of terms
whose total lies just below the threshold, is left out. -/
structure FloatReading where
  rd : Rounding binary64
  overflows : ℚ → Bool
  overflows_mono : ∀ {q r : ℚ}, |q| ≤ |r| → overflows q = true → overflows r = true
  not_overflows : ∀ {q : ℚ}, |q| ≤ 2 ^ 53 → overflows q = false

namespace FloatReading

/-- Every operation over exact rationals. -/
def exact : FloatReading where
  rd := .exact binary64
  overflows _ := false
  overflows_mono _ h := h
  not_overflows _ := rfl

/-- IEEE double precision. -/
def ieee : FloatReading where
  rd := .nearestEven binary64
  overflows q := decide (binary64.infinityBits ≤ binary64.roundBits |q|)
  overflows_mono h ho := decide_eq_true
    ((of_decide_eq_true ho).trans (binary64.roundBits_mono (abs_nonneg _) h))
  not_overflows h := by
    have hbits : binary64.roundBits (2 ^ 53) < binary64.infinityBits := by decide +kernel
    exact decide_eq_false (not_le.mpr
      ((binary64.roundBits_mono (abs_nonneg _) h).trans_lt hbits))

variable (fr : FloatReading)

/-- `float(n)` and the conversions of mixed arithmetic. -/
def ofInt (n : ℤ) : Except PyException ℚ :=
  if fr.overflows n then .error (.overflowError "int too large to convert to float")
  else .ok (fr.rd.round n)

/-- `float(q)` of a `Fraction`. -/
def ofFraction (q : ℚ) : Except PyException ℚ :=
  if fr.overflows q then
    .error (.overflowError "integer division result too large for a float")
  else .ok (fr.rd.round q)

/-- `math.fsum`, the correctly rounded exact sum, where no partial sum overflows before it. -/
def fsum (xs : List ℚ) : Except PyException ℚ :=
  if fr.overflows xs.sum then .error (.overflowError "intermediate overflow in fsum")
  else .ok (fr.rd.round xs.sum)

end FloatReading

/-- `struct.unpack("<I", struct.pack("<f", value))[0]`. -/
def packedFloatBits (value : ℚ) : Except PyException ℕ :=
  if binary32.roundBits |value| < binary32.infinityBits then .ok (binary32.encode value)
  else .error (.overflowError "float too large to pack with f format")

/-- `max` of an iterable. -/
def pyMax : List ℚ → Except PyException ℚ
  | [] => .error (.valueError "max() iterable argument is empty")
  | x :: xs => .ok (xs.foldl max x)

/-- Universal newlines, as `read_text` opens its file. -/
def translateNewlines : List Char → List Char
  | [] => []
  | '\r' :: '\n' :: rest => '\n' :: translateNewlines rest
  | c :: rest => (if c = '\r' then '\n' else c) :: translateNewlines rest

/-- The whitespace of `str.strip`. -/
def isPySpace (c : Char) : Bool :=
  decide (9 ≤ c.toNat ∧ c.toNat ≤ 13 ∨ 28 ≤ c.toNat ∧ c.toNat ≤ 32 ∨
    0x2000 ≤ c.toNat ∧ c.toNat ≤ 0x200a) ||
    [0x85, 0xa0, 0x1680, 0x2028, 0x2029, 0x202f, 0x205f, 0x3000].contains c.toNat

/-- `bytes.fromhex(text)`. -/
def fromHex (text : String) : Except PyException (List Byte) :=
  match decode text.toList with
  | some bytes => .ok bytes
  | none => .error (.valueError "non-hexadecimal number found in fromhex() arg")

/-- `int.from_bytes(bits, "little")`. -/
def fromBytesLittle : List Byte → ℕ
  | [] => 0
  | b :: rest => b.toNat + 256 * fromBytesLittle rest

end RowReduce
