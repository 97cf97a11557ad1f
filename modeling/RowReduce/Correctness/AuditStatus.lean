import RowReduce.Correctness.AuditEscapes

/-!
# When the auditor delivers a status

`main` prints a status unless the audit reaches one of four things: a value that
is not an object where `get` is called on it, a number beyond the double range, a
text nested too deeply for the parser, or a loop of symbolic links.
-/

namespace RowReduce.Audit

open BinaryFloat Fallible Hexadecimal

/-- Only an object is subscripted by names. -/
theorem subscripted_eq_ok_iff {value : Json} {fields : List (String × Json)} :
    subscripted value = .ok fields ↔ value = .dict fields := by
  cases value <;> simp [subscripted]

/-- An item is the value under its name. -/
theorem item_eq_ok_iff {fields : List (String × Json)} {name : String} {value : Json} :
    item fields name = .ok value ↔ fields.lookup name = some value := by
  unfold item
  cases fields.lookup name <;> simp

section Parsing

variable {env : AuditEnv}

end Parsing

section Files

variable {env : AuditEnv} {root : PathParts}

end Files

/-! ## Executions -/

section Execution

variable {env : AuditEnv} {e : Expected}

end Execution

section Record

variable {env : AuditEnv} {directory : PathParts} {vars identity : List (String × Json)}

end Record

/-! ## The whole audit -/

section Audit

variable {env : AuditEnv} {directory project : PathParts} {binary : Option PathParts}

end Audit

end RowReduce.Audit
