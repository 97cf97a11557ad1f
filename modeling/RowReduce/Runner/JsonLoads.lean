import RowReduce.Runner.Python

/-!
# Decoding JSON

`json.loads` of the standard library on a text: strict strings with their
escapes, numbers, literals, arrays and objects. `none` stands for `ValueError`;
`maxDigits` is the interpreter's bound on the digits of an integer, if it has one.
-/

namespace RowReduce

open BinaryFloat Hexadecimal

def isJsonBlank (c : Char) : Bool := c == ' ' || c == '\t' || c == '\n' || c == '\r'

def skipBlanks (text : List Char) : List Char := text.dropWhile isJsonBlank

/-- The character of a one-letter escape. -/
def escapedCharacter (c : Char) : Option Char :=
  if c = '"' ∨ c = '\\' ∨ c = '/' then some c
  else [('b', '\x08'), ('f', '\x0c'), ('n', '\n'), ('r', '\r'), ('t', '\t')].lookup c

/-- The value of four hexadecimal digits. -/
def hexUnit (a b c d : Char) : Option ℕ := do
  let a ← digitValue a
  let b ← digitValue b
  let c ← digitValue c
  let d ← digitValue d
  return ((a * 16 + b) * 16 + c) * 16 + d

/-- The code units of a string up to its closing quote. -/
def scanUnits : List Char → Option (List ℕ × List Char)
  | [] => none
  | c :: rest =>
    if c = '"' then some ([], rest)
    else if c = '\\' then
      match rest with
      | 'u' :: a :: b :: c :: d :: rest => do
        let unit ← hexUnit a b c d
        let (units, rest) ← scanUnits rest
        return (unit :: units, rest)
      | letter :: rest => do
        let character ← escapedCharacter letter
        let (units, rest) ← scanUnits rest
        return (character.toNat :: units, rest)
      | [] => none
    else if c.toNat < 32 then none
    else do
      let (units, rest) ← scanUnits rest
      return (c.toNat :: units, rest)

/-- The character of a unit; a lone surrogate, which no string here holds, reads as U+FFFD. -/
def unitCharacter (unit : ℕ) : Char := if unit.isValidChar then Char.ofNat unit else '\uFFFD'

/-- Surrogate pairs join to one character. -/
def unitCharacters : List ℕ → List Char
  | [] => []
  | [unit] => [unitCharacter unit]
  | high :: low :: rest =>
    if (0xd800 ≤ high ∧ high < 0xdc00) ∧ (0xdc00 ≤ low ∧ low < 0xe000) then
      Char.ofNat (0x10000 + (high - 0xd800) * 0x400 + (low - 0xdc00)) :: unitCharacters rest
    else unitCharacter high :: unitCharacters (low :: rest)

/-- The string after an opening quote. -/
def scanString (text : List Char) : Option (String × List Char) :=
  (scanUnits text).map fun p => (String.ofList (unitCharacters p.1), p.2)

/-- `0` or digits without a leading zero. -/
def scanWhole : List Char → List Char × List Char
  | '0' :: rest => (['0'], rest)
  | text => text.span Char.isDigit

/-- A point with at least one digit after it. -/
def scanFraction : List Char → Option (List Char) × List Char
  | '.' :: rest =>
    let (digits, after) := rest.span Char.isDigit
    if digits = [] then (none, '.' :: rest) else (some digits, after)
  | text => (none, text)

/-- An exponent with at least one digit. -/
def scanExponent : List Char → Option ℤ × List Char
  | e :: rest =>
    let (negative, text) : Bool × List Char := match rest with
      | '-' :: text => (true, text)
      | '+' :: text => (false, text)
      | text => (false, text)
    let (digits, after) := text.span Char.isDigit
    if (e = 'e' ∨ e = 'E') ∧ digits ≠ [] then
      (some (if negative then -(decimalValue digits : ℤ) else decimalValue digits), after)
    else (none, e :: rest)
  | [] => (none, [])

/-- An integer, or a double where a fraction or an exponent follows. -/
def scanNumber (text : List Char) : Option (Json × List Char) :=
  let (sign, text) : ℤ × List Char := match text with
    | '-' :: text => (-1, text)
    | text => (1, text)
  let (whole, rest) := scanWhole text
  let (fraction, rest) := scanFraction rest
  let (exponent, rest) := scanExponent rest
  if whole = [] then none
  else if fraction = none ∧ exponent = none then some (.int (sign * decimalValue whole), rest)
  else
    let digits := fraction.getD []
    let value : ℚ := sign * decimalValue (whole ++ digits) *
      10 ^ (exponent.getD 0 - (digits.length : ℤ))
    some (.float (binary64.decode (binary64.encode value)), rest)

/-- Whether `int(digits)` converts a number where the interpreter bounds its digits. -/
def withinDigits (maxDigits : Option ℕ) (value : Json) : Bool :=
  match value, maxDigits with
  | .int n, some digits => |n| < 10 ^ digits
  | _, _ => true

/-- A number the interpreter converts. -/
def scanNumeral (maxDigits : Option ℕ) (text : List Char) : Option (Json × List Char) :=
  (scanNumber text).filter fun p => withinDigits maxDigits p.1

/-- `d[key] = value`. -/
def setItem (fields : List (String × Json)) (key : String) (value : Json) : List (String × Json) :=
  if fields.any (fun p => p.1 == key) then
    fields.map fun p => if p.1 = key then (key, value) else p
  else fields ++ [(key, value)]

/-- `dict(pairs)`. -/
def dictOf (pairs : List (String × Json)) : List (String × Json) :=
  pairs.foldl (fun fields p => setItem fields p.1 p.2) []

section Reader

variable (maxDigits : Option ℕ)

mutual

/-- The value a text starts with, each nested one with less fuel. -/
def scanOnce : ℕ → List Char → Option (Json × List Char)
  | 0, _ => none
  | fuel + 1, text =>
    match text with
    | '"' :: rest => (scanString rest).map fun p => (.str p.1, p.2)
    | '\x7b' :: rest =>
      match skipBlanks rest with
      | '\x7d' :: rest => some (.dict [], rest)
      | rest => (scanMembers fuel rest).map fun p => (.dict (dictOf p.1), p.2)
    | '[' :: rest =>
      match skipBlanks rest with
      | ']' :: rest => some (.list [], rest)
      | rest => (scanItems fuel rest).map fun p => (.list p.1, p.2)
    | 'n' :: 'u' :: 'l' :: 'l' :: rest => some (.null, rest)
    | 't' :: 'r' :: 'u' :: 'e' :: rest => some (.bool true, rest)
    | 'f' :: 'a' :: 'l' :: 's' :: 'e' :: rest => some (.bool false, rest)
    | 'N' :: 'a' :: 'N' :: rest => some (.float .nan, rest)
    | 'I' :: 'n' :: 'f' :: 'i' :: 'n' :: 'i' :: 't' :: 'y' :: rest =>
      some (.float (.infinity false), rest)
    | '-' :: 'I' :: 'n' :: 'f' :: 'i' :: 'n' :: 'i' :: 't' :: 'y' :: rest =>
      some (.float (.infinity true), rest)
    | text => scanNumeral maxDigits text

/-- The members of an object up to its closing brace. -/
def scanMembers : ℕ → List Char → Option (List (String × Json) × List Char)
  | 0, _ => none
  | fuel + 1, text =>
    match text with
    | '"' :: rest => do
      let (key, rest) ← scanString rest
      match skipBlanks rest with
      | ':' :: rest => do
        let (value, rest) ← scanOnce fuel (skipBlanks rest)
        match skipBlanks rest with
        | '\x7d' :: rest => return ([(key, value)], rest)
        | ',' :: rest => do
          let (members, rest) ← scanMembers fuel (skipBlanks rest)
          return ((key, value) :: members, rest)
        | _ => none
      | _ => none
    | _ => none

/-- The items of an array up to its closing bracket. -/
def scanItems : ℕ → List Char → Option (List Json × List Char)
  | 0, _ => none
  | fuel + 1, text => do
    let (value, rest) ← scanOnce fuel text
    match skipBlanks rest with
    | ']' :: rest => return ([value], rest)
    | ',' :: rest => do
      let (items, rest) ← scanItems fuel (skipBlanks rest)
      return (value :: items, rest)
    | _ => none

end

/-- `json.loads`: one value, blanks around it and nothing else. -/
def jsonLoads (text : String) : Option Json :=
  if text.toList.head? = some '\uFEFF' then none
  else do
    let (value, rest) ← scanOnce maxDigits (text.length + 1) (skipBlanks text.toList)
    if skipBlanks rest = [] then some value else none

end Reader

end RowReduce
