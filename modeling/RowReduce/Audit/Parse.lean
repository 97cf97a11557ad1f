import RowReduce.Audit.Verify
import RowReduce.Runner.JsonLoads

/-!
# Untrusted JSON

The auditor's `parse`, which adds two hooks to `json.loads`, and the operations
it applies to a value of any type: `get`, subscripts, `len`, iteration and `==`.
-/

namespace RowReduce

open BinaryFloat Hexadecimal

namespace Json

/-- `type(value).__name__`. -/
def typeName : Json → String
  | .null => "NoneType"
  | .bool _ => "bool"
  | .int _ => "int"
  | .float _ => "float"
  | .str _ => "str"
  | .list _ => "list"
  | .dict _ => "dict"

/-- The numeric value; `True` and `False` are one and zero. -/
def number : Json → Option FloatValue
  | .bool b => some (.finite (if b then 1 else 0))
  | .int n => some (.finite n)
  | .float x => some x
  | _ => none

mutual

/-- `a == b`. -/
def eq : Json → Json → Bool
  | .null, .null => true
  | .str s, .str t => s == t
  | .list xs, .list ys => eqItems xs ys
  | .dict xs, .dict ys => xs.length == ys.length && eqFields xs ys
  | a, b =>
    match a.number, b.number with
    | some x, some y => x.eq y
    | _, _ => false

def eqItems : List Json → List Json → Bool
  | [], [] => true
  | x :: xs, y :: ys => eq x y && eqItems xs ys
  | _, _ => false

def eqFields : List (String × Json) → List (String × Json) → Bool
  | [], _ => true
  | p :: xs, ys => eqField p ys && eqFields xs ys

def eqField : String × Json → List (String × Json) → Bool
  | (key, x), ys =>
    match ys.lookup key with
    | some y => eq x y
    | none => false

end

end Json

namespace Audit

open Fallible

/-- What can be raised while the evidence is read. -/
inductive AuditException where
  | py (e : PyException)
  | attributeError (text : String)
  | runtimeError (text : String)
  | recursionError
  deriving DecidableEq, Repr

/-- A computation raising one of the common classes. -/
def py {α : Type} (x : Except PyException α) : Except AuditException α := x.mapError .py

/-- `value.get`: the fields of an object; no other type has the method. -/
def objectOf : Json → Except AuditException (List (String × Json))
  | .dict fields => .ok fields
  | value => .error (.attributeError ("'" ++ value.typeName ++ "' object has no attribute 'get'"))

/-- `value[name]` finds the fields of an object; no other type takes a name. -/
def subscripted : Json → Except PyException (List (String × Json))
  | .dict fields => .ok fields
  | .list _ => .error (.typeError "list indices must be integers or slices, not str")
  | .str _ => .error (.typeError "string indices must be integers, not 'str'")
  | value => .error (.typeError ("'" ++ value.typeName ++ "' object is not subscriptable"))

/-- `fields[name]`. -/
def item (fields : List (String × Json)) (name : String) : Except PyException Json :=
  match fields.lookup name with
  | some value => .ok value
  | none => .error (.keyError ("'" ++ name ++ "'"))

/-- `list(value)`: items, names or characters. -/
def iterated : Json → Except PyException (List Json)
  | .list items => .ok items
  | .dict fields => .ok (fields.map fun p => .str p.1)
  | .str s => .ok (s.toList.map fun c => .str c.toString)
  | value => .error (.typeError ("object of type '" ++ value.typeName ++ "' has no len()"))

/-- `JSONDecodeError`, without the position in its text. -/
def decodeError : PyException := .valueError "invalid JSON document"

def decoded {α : Type} : Option α → Except PyException α
  | some a => .ok a
  | none => .error decodeError

/-- One pass of the loop of `unique_object`. -/
def addUnique (obj : List (String × Json)) (p : String × Json) :
    Except PyException (List (String × Json)) := do
  require (obj.lookup p.1 = none) ("duplicate JSON key: " ++ p.1)
  return obj ++ [p]

def uniqueObject (pairs : List (String × Json)) : Except PyException (List (String × Json)) :=
  pairs.foldlM addUnique []

def nonfinite (token : String) : Except PyException (Json × List Char) :=
  .error (.valueError ("non-standard JSON number: " ++ token))

/-- `int(digits)` where the interpreter bounds the number of digits. -/
def checkDigits (maxDigits : Option ℕ) (value : Json) : Except PyException Unit :=
  require (withinDigits maxDigits value = true) ("Exceeds the limit (" ++
    toString (maxDigits.getD 0) ++ " digits) for integer string conversion")

def readNumeral (maxDigits : Option ℕ) (text : List Char) :
    Except PyException (Json × List Char) := do
  let (value, rest) ← decoded (scanNumber text)
  checkDigits maxDigits value
  return (value, rest)

section Reader

variable (maxDigits : Option ℕ)

mutual

/-- The value a text starts with, each nested one with less fuel. -/
def readValue : ℕ → List Char → Except PyException (Json × List Char)
  | 0, _ => .error decodeError
  | fuel + 1, text =>
    match text with
    | '"' :: rest => do
      let (s, rest) ← decoded (scanString rest)
      return (.str s, rest)
    | '\x7b' :: rest =>
      match skipBlanks rest with
      | '\x7d' :: rest => .ok (.dict [], rest)
      | rest => do
        let (pairs, rest) ← readMembers fuel rest
        let obj ← uniqueObject pairs
        return (.dict obj, rest)
    | '[' :: rest =>
      match skipBlanks rest with
      | ']' :: rest => .ok (.list [], rest)
      | rest => do
        let (items, rest) ← readItems fuel rest
        return (.list items, rest)
    | 'n' :: 'u' :: 'l' :: 'l' :: rest => .ok (.null, rest)
    | 't' :: 'r' :: 'u' :: 'e' :: rest => .ok (.bool true, rest)
    | 'f' :: 'a' :: 'l' :: 's' :: 'e' :: rest => .ok (.bool false, rest)
    | 'N' :: 'a' :: 'N' :: _ => nonfinite "NaN"
    | 'I' :: 'n' :: 'f' :: 'i' :: 'n' :: 'i' :: 't' :: 'y' :: _ => nonfinite "Infinity"
    | '-' :: 'I' :: 'n' :: 'f' :: 'i' :: 'n' :: 'i' :: 't' :: 'y' :: _ => nonfinite "-Infinity"
    | text => readNumeral maxDigits text

/-- The members of an object up to its closing brace. -/
def readMembers : ℕ → List Char → Except PyException (List (String × Json) × List Char)
  | 0, _ => .error decodeError
  | fuel + 1, text =>
    match text with
    | '"' :: rest => do
      let (key, rest) ← decoded (scanString rest)
      match skipBlanks rest with
      | ':' :: rest => do
        let (value, rest) ← readValue fuel (skipBlanks rest)
        match skipBlanks rest with
        | '\x7d' :: rest => return ([(key, value)], rest)
        | ',' :: rest => do
          let (members, rest) ← readMembers fuel (skipBlanks rest)
          return ((key, value) :: members, rest)
        | _ => .error decodeError
      | _ => .error decodeError
    | _ => .error decodeError

/-- The items of an array up to its closing bracket. -/
def readItems : ℕ → List Char → Except PyException (List Json × List Char)
  | 0, _ => .error decodeError
  | fuel + 1, text => do
    let (value, rest) ← readValue fuel text
    match skipBlanks rest with
    | ']' :: rest => return ([value], rest)
    | ',' :: rest => do
      let (items, rest) ← readItems fuel (skipBlanks rest)
      return (value :: items, rest)
    | _ => .error decodeError

end

/-- `json.loads` with both hooks, on a text the interpreter's stack is deep enough for. -/
def loads (text : String) : Except PyException Json :=
  if text.toList.head? = some '\uFEFF' then .error decodeError
  else do
    let (value, rest) ← readValue maxDigits (2 * text.length + 2) (skipBlanks text.toList)
    if skipBlanks rest = [] then return value else .error decodeError

end Reader

end Audit

end RowReduce
