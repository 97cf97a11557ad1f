import RowReduce.Core.Fallible
import RowReduce.Core.Hexadecimal
import RowReduce.Host.Options

/-!
# Float files

Blank-separated tokens, each of which must be a complete decimal float text.
-/

namespace RowReduce

open BinaryFloat Fallible Hexadecimal

/-- What an opened input file delivers; `complete` unless reading stopped on an error. -/
structure InputFile where
  text : String
  complete : Bool

/-- The blank-separated tokens that `stream >> token` yields. -/
def tokens (text : String) : List (List Char) :=
  (text.toList.splitOnP Hexadecimal.isSpace).filter fun token => token ≠ []

/-- Sign and magnitude as a `float`; overflow and underflow to zero are out of range. -/
def floatOfMagnitude (negative : Bool) (magnitude : ℚ) : Option Float32 :=
  let bits := binary32.roundBits magnitude
  if magnitude ≠ 0 ∧ (bits = 0 ∨ binary32.infinityBits ≤ bits) then none
  else some (BitVec.ofNat 32 ((if negative then binary32.signBit else 0) + bits))

/-- A complete exponent part; absent it counts as zero. -/
def exponentPart : List Char → Option ℤ
  | [] => some 0
  | e :: rest =>
    let (negative, digits) : Bool × List Char := match rest with
      | '-' :: digits => (true, digits)
      | '+' :: digits => (false, digits)
      | digits => (false, digits)
    if (e = 'e' ∨ e = 'E') ∧ digits ≠ [] ∧ digits.all Char.isDigit = true then
      some (if negative then -(decimalValue digits : ℤ) else decimalValue digits)
    else none

/-- A complete unsigned decimal: digits, an optional fraction, an optional exponent. -/
def decimalMagnitude (text : List Char) : Option ℚ :=
  let (whole, rest) := text.span Char.isDigit
  let (fraction, rest) := match rest with
    | '.' :: rest => rest.span Char.isDigit
    | rest => ([], rest)
  if whole = [] ∧ fraction = [] then none
  else (exponentPart rest).map fun e =>
    decimalValue (whole ++ fraction) * 10 ^ (e - (fraction.length : ℤ))

/-- The names of NaN, with an optional bracketed payload. -/
def isNanName (text : List Char) : Bool :=
  let lower := text.map Char.toLower
  lower == "nan".toList ||
    ("nan(".toList.isPrefixOf lower && lower.getLast? == some ')' &&
      ((text.drop 4).dropLast.all fun c => c.isAlphanum || c == '_'))

/-- `std::from_chars` of a `float` that consumes the whole token. -/
def fromCharsFloat (token : List Char) : Option Float32 :=
  let (negative, text) := match token with
    | '-' :: text => (true, text)
    | text => (false, text)
  let sign := if negative then binary32.signBit else 0
  let lower := text.map Char.toLower
  if lower = "inf".toList ∨ lower = "infinity".toList then
    some (BitVec.ofNat 32 (sign + binary32.infinityBits))
  else if isNanName text then some (BitVec.ofNat 32 (sign + 0x7fc00000))
  else (decimalMagnitude text).bind (floatOfMagnitude negative)

/-- One pass of the reading loop. -/
def readToken (values : List Float32) (token : List Char) :
    Except HostException (List Float32) := do
  match fromCharsFloat token with
  | none => throw (.invalidArgument "Input file contains an invalid float token")
  | some value =>
    throwIf (128 * 128 < (values ++ [value]).length)
      (.invalidArgument "Input file exceeds maximum host length")
    return values ++ [value]

/-- `none` is a file that cannot be opened. -/
def readInputFile : Option InputFile → Except HostException (List Float32)
  | none => throw (.invalidArgument "Cannot open input file")
  | some file => do
    let values ← (tokens file.text).foldlM readToken []
    throwIf (file.complete = false) (.invalidArgument "Failed while reading input file")
    return values

/-- What one token adds to the values. -/
theorem readToken_eq_ok_iff {values values' : List Float32} {token : List Char} :
    readToken values token = .ok values' ↔ ∃ value, fromCharsFloat token = some value ∧
      values.length < 128 * 128 ∧ values' = values ++ [value] := by
  unfold readToken
  cases fromCharsFloat token with
  | none => simp
  | some value =>
    simp only [bind_eq_ok_iff, throwIf_eq_ok_iff, pure_eq_ok, Except.ok.injEq, exists_const,
      List.length_append, List.length_singleton, Option.some.injEq, exists_eq_left']
    constructor
    · rintro ⟨hlt, rfl⟩
      exact ⟨by omega, rfl⟩
    · rintro ⟨hlt, rfl⟩
      exact ⟨by omega, rfl⟩

private theorem foldlM_readToken {l : List (List Char)} {start values : List Float32} :
    l.foldlM readToken start = .ok values ↔ ∃ read,
      List.Forall₂ (fun token value => fromCharsFloat token = some value) l read ∧
        (l ≠ [] → start.length + l.length ≤ 128 * 128) ∧ values = start ++ read := by
  induction l generalizing start with
  | nil => simp [eq_comm]
  | cons token l ih =>
    rw [List.foldlM_cons, bind_eq_ok_iff]
    simp only [readToken_eq_ok_iff, ih]
    constructor
    · rintro ⟨_, ⟨value, hv, hlt, rfl⟩, read, hread, hlen, rfl⟩
      refine ⟨value :: read, .cons hv hread, fun _ => ?_, by simp⟩
      cases l with
      | nil => simpa using hlt
      | cons =>
        have := hlen (by simp)
        simp only [List.length_append, List.length_cons, List.length_nil] at this ⊢
        omega
    · rintro ⟨read, hread, hlen, rfl⟩
      cases hread with
      | @cons _ value _ read hv hread =>
        have := hlen (by simp)
        rw [List.length_cons] at this
        refine ⟨_, ⟨value, hv, by omega, rfl⟩, read, hread, fun _ => ?_, by simp⟩
        rw [List.length_append, List.length_singleton]
        omega

/-- Reading succeeds on a readable file of at most 128×128 complete float tokens. -/
theorem readInputFile_eq_ok_iff {file : Option InputFile} {values : List Float32} :
    readInputFile file = .ok values ↔ ∃ content, file = some content ∧ content.complete = true ∧
      List.Forall₂ (fun token value => fromCharsFloat token = some value)
        (tokens content.text) values ∧ values.length ≤ 128 * 128 := by
  cases file with
  | none => simp [readInputFile]
  | some content =>
    simp only [readInputFile, bind_eq_ok_iff, foldlM_readToken, throwIf_eq_ok_iff, pure_eq_ok,
      Except.ok.injEq, exists_const, Bool.not_eq_false, List.nil_append, List.length_nil,
      Nat.zero_add, Option.some.injEq, exists_eq_left']
    constructor
    · rintro ⟨_, ⟨read, hread, hlen, rfl⟩, hcomplete, rfl⟩
      refine ⟨hcomplete, hread, ?_⟩
      rw [← hread.length_eq]
      by_cases hnil : tokens content.text = []
      · simp [hnil]
      · exact hlen hnil
    · rintro ⟨hcomplete, hread, hlen⟩
      exact ⟨values, ⟨values, hread, fun _ => hread.length_eq ▸ hlen, rfl⟩, hcomplete, rfl⟩

end RowReduce
