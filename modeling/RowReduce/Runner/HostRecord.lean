import RowReduce.Host.Emit
import RowReduce.Runner.Python

/-!
# Reading a printed result

The value `json.loads` returns for a printed object. Seventeen digits determine a
double; an integer of at most that many digits is printed without a point.
-/

namespace RowReduce

open BinaryFloat

/-- A number as read back: an integer, a double, or `None` for what is not finite. -/
def readNumber : FloatValue → Json
  | .finite q => if q.den = 1 ∧ |q| < 10 ^ 17 then .int q.num else .float (.finite q)
  | _ => .null

def Emitted.toJson : Emitted → Json
  | .text s => .str s
  | .natural n => .int n
  | .flag b => .bool b
  | .number x => readNumber x
  | .numbers xs => .list (xs.map readNumber)
  | .naturals ns => .list (ns.map fun n => .int n)

/-- The fields of a printed result as read back. -/
def ResultRecord.jsonFields (r : ResultRecord) : List (String × Json) :=
  r.fields.map fun p => (p.1, p.2.toJson)

def ResultRecord.toJson (r : ResultRecord) : Json := .dict r.jsonFields

/-- A printed field is read back under its name. -/
theorem ResultRecord.get_jsonFields {r : ResultRecord} {name : String} {value : Emitted}
    (h : r.fields.lookup name = some value) : Json.get r.jsonFields name = value.toJson := by
  have hlookup : ∀ l : List (String × Emitted),
      (l.map fun p => (p.1, p.2.toJson)).lookup name = (l.lookup name).map Emitted.toJson := by
    intro l
    induction l with
    | nil => rfl
    | cons p l ih =>
      rw [List.map_cons, List.lookup_cons, List.lookup_cons, ih]
      cases name == p.1 <;> rfl
  rw [Json.get, jsonFields, hlookup, h]
  rfl

end RowReduce
