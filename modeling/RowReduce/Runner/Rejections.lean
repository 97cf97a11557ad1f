import RowReduce.Runner.JsonLoads
import RowReduce.Runner.RunCase

/-!
# Recording a rejection

The verdict on a command that must be rejected before the device is created,
from the exit code and the texts of both logs.
-/

namespace RowReduce

def errorPrefix : String := "TT_ROW_REDUCE_ERROR="

/-- The texts after the prefix on the error lines. -/
def errorTexts (combined : List Char) : List String :=
  ((splitLines combined).filter errorPrefix.toList.isPrefixOf).map fun line =>
    String.ofList (line.drop errorPrefix.length)

/-- The returned dictionary. -/
structure Classification where
  status : String
  error : Option String := none
  hostError : Option (List (String × Json)) := none

/-- What a decoded error object amounts to. -/
def classifyHostError (fields : List (String × Json)) : Classification :=
  if (Json.get fields "before_device").isBool true = false ∨
      (Json.get fields "status").eqStr "invalid-input" = false then
    { status := "validation-fail", error := some "host did not reject before device creation"
      hostError := some fields }
  else match Json.get fields "message" with
    | .str message =>
      if message.toList.all isPySpace then
        { status := "protocol-error", error := some "host rejection is missing its reason" }
      else { status := "pass", hostError := some fields }
    | _ => { status := "protocol-error", error := some "host rejection is missing its reason" }

/-- `problem` is the text of the decoder's `ValueError`. -/
def classifyRejection (maxDigits : Option ℕ) (problem : String → String) (exitCode : ℤ)
    (timedOut : Bool) (stdout stderr : List Char) : Classification :=
  if timedOut then
    { status := "timeout", error := some "host did not reject within the timeout" }
  else
    let combined := stdout ++ '\n' :: stderr
    if resultPrefix.toList <:+: combined then
      { status := "validation-fail", error := some "invalid input produced an execution result" }
    else if exitCode ≠ 2 then
      { status := if exitCode = 0 then "validation-fail" else "crash"
        error := some ("expected input rejection exit 2; received " ++ toString exitCode) }
    else match errorTexts combined with
      | [text] =>
        match jsonLoads maxDigits text with
        | none =>
          { status := "protocol-error"
            error := some ("malformed host rejection: " ++ problem text) }
        | some (.dict fields) => classifyHostError fields
        | some _ =>
          { status := "protocol-error", error := some "host rejection must be a JSON object" }
      | _ =>
        { status := "protocol-error"
          error := some "expected exactly one structured host rejection" }

end RowReduce
