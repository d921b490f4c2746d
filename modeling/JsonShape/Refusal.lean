import JsonShape.Log
import JsonShape.Value.Basic

/-!
# Refusals

Why a value is not taken: something in it is nested too deep, or is no JSON value.

* `Value.kind_eq_error`  only foreign values are refused for their kind.
-/

namespace JsonShape

/-- the cause for which a value is refused: a part lies below the depth asked for, or deeper than
can be followed at all, or is no JSON value; `limit` is the depth asked for -/
inductive Refusal where
  | tooDeep (depth limit : Int)
  | beyondReach (limit : Int)
  | notJson (typeName : String)
deriving DecidableEq

namespace Refusal

def message : Refusal → String
  | tooDeep _ limit => "Maximum nesting depth " ++ toString limit ++ " exceeded"
  | beyondReach limit =>
    "Nesting exceeds the interpreter recursion limit (max_depth " ++ toString limit ++ ")"
  | notJson typeName => "Expected a JSON value, got " ++ typeName

end Refusal

/-- the kind of a value, or its refusal -/
def Value.kind (v : Value) : Except Refusal Kind :=
  match v with
  | foreign typeName => .error (.notJson typeName)
  | null => .ok .null
  | bool _ => .ok .boolean
  | num _ => .ok .number
  | str _ => .ok .string
  | arr _ => .ok .array
  | tuple _ => .ok .array
  | obj _ => .ok .object

theorem Value.kind_eq_error {v : Value} {r : Refusal} :
    v.kind = .error r ↔ ∃ name, v = .foreign name ∧ r = .notJson name := by
  cases v <;> simp [kind, eq_comm]

end JsonShape
