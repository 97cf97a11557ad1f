import RowReduce.Runner.Python

/-!
# Writing JSON

`json.dumps` of the standard library with ASCII output: the compact layout of
the record lines and the indented one of the two summaries.
-/

namespace RowReduce

open BinaryFloat

/-- The keyword arguments the tools pass. -/
structure JsonStyle where
  indent : Option ℕ := none
  allowNan : Bool := true

/-- The UTF-16 code units of a character. -/
def utf16Units (c : Char) : List ℕ :=
  if c.toNat < 0x10000 then [c.toNat]
  else [0xd800 + (c.toNat - 0x10000) / 0x400, 0xdc00 + (c.toNat - 0x10000) % 0x400]

def unitEscape (unit : ℕ) : List Char :=
  ['\\', 'u', Hexadecimal.digit (unit / 0x1000), Hexadecimal.digit (unit / 0x100 % 16),
    Hexadecimal.digit (unit / 16 % 16), Hexadecimal.digit (unit % 16)]

/-- One character of `py_encode_basestring_ascii`. -/
def asciiCharacter (c : Char) : List Char :=
  if c = '"' ∨ c = '\\' then ['\\', c]
  else match [('\n', 'n'), ('\r', 'r'), ('\t', 't'), ('\x0c', 'f'), ('\x08', 'b')].lookup c with
  | some letter => ['\\', letter]
  | none =>
    if 32 ≤ c.toNat ∧ c.toNat ≤ 126 then [c] else (utf16Units c).flatMap unitEscape

def dumpString (s : String) : List Char := '"' :: (s.toList.flatMap asciiCharacter ++ ['"'])

/-- A rational that is a double. -/
def IsDouble (q : ℚ) : Prop := binary64.decode (binary64.encode q) = .finite q

instance : DecidablePred IsDouble := fun q =>
  inferInstanceAs (Decidable (binary64.decode (binary64.encode q) = .finite q))

/-- `float.__repr__` of a finite double is a parameter; the others have fixed names. -/
def dumpFloat (repr : ℚ → String) : FloatValue → List Char
  | .finite q => (repr q).toList
  | .infinity negative => (if negative then "-Infinity" else "Infinity").toList
  | .nan => "NaN".toList

/-- The line break and indentation of a nesting level. -/
def JsonStyle.gap (style : JsonStyle) (level : ℕ) : List Char :=
  match style.indent with
  | none => []
  | some width => '\n' :: List.replicate (width * level) ' '

def JsonStyle.separator (style : JsonStyle) (level : ℕ) : List Char :=
  match style.indent with
  | none => [',', ' ']
  | some _ => ',' :: style.gap level

section Dump

variable (repr : ℚ → String) (style : JsonStyle)

mutual

def dumpValue (level : ℕ) : Json → List Char
  | .null => "null".toList
  | .bool b => (if b then "true" else "false").toList
  | .int n => (toString n).toList
  | .float x => dumpFloat repr x
  | .str s => dumpString s
  | .list [] => ['[', ']']
  | .list (item :: items) =>
    '[' :: (style.gap (level + 1) ++ (dumpValue (level + 1) item ++
      (dumpItems (level + 1) items ++ (style.gap level ++ [']']))))
  | .dict [] => ['\x7b', '\x7d']
  | .dict (field :: fields) =>
    '\x7b' :: (style.gap (level + 1) ++ (dumpField (level + 1) field ++
      (dumpFields (level + 1) fields ++ (style.gap level ++ ['\x7d']))))

/-- The later items, each after its separator. -/
def dumpItems (level : ℕ) : List Json → List Char
  | [] => []
  | item :: items => style.separator level ++ (dumpValue level item ++ dumpItems level items)

def dumpField (level : ℕ) : String × Json → List Char
  | (key, value) => dumpString key ++ (':' :: ' ' :: dumpValue level value)

def dumpFields (level : ℕ) : List (String × Json) → List Char
  | [] => []
  | field :: fields => style.separator level ++ (dumpField level field ++ dumpFields level fields)

end

end Dump

mutual

/-- No number in the value is an infinity or a NaN. -/
def Json.allFinite : Json → Bool
  | .float x => x.isFinite
  | .list items => itemsFinite items
  | .dict fields => fieldsFinite fields
  | _ => true

def itemsFinite : List Json → Bool
  | [] => true
  | item :: items => item.allFinite && itemsFinite items

def fieldsFinite : List (String × Json) → Bool
  | [] => true
  | field :: fields => fieldFinite field && fieldsFinite fields

def fieldFinite : String × Json → Bool
  | (_, value) => value.allFinite

end

/-- An ASCII text as bytes. -/
def asciiBytes (text : List Char) :
    List Hexadecimal.Byte :=
  text.map fun c => BitVec.ofNat 8 c.toNat

def asciiText (bytes : List Hexadecimal.Byte) : List Char := bytes.map fun b => Char.ofNat b.toNat

/-- `json.dumps`; `none` is the `ValueError` of a number that `allow_nan=False` excludes. -/
def jsonDumps (repr : ℚ → String) (style : JsonStyle) (value : Json) : Option String :=
  if style.allowNan || value.allFinite then
    some (String.ofList (dumpValue repr style 0 value))
  else none

example : jsonDumps (fun _ => "0.5") {} (.dict [("a", .list [.int 1, .float (.finite (1 / 2))])]) =
    some "\x7b\"a\": [1, 0.5]\x7d" := by
  decide +kernel

end RowReduce
