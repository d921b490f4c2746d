import JsonShape.Number.Basic

/-!
# Values

A `Value` is what a sample, an option or a piece of a schema holds.  Objects keep their members in
the order of insertion.  Besides lists there are tuples, fixed sequences that count as arrays, and
foreign values, of which only the name of their type is known and which no JSON text can hold.

A value is truthy unless it is null, false, a zero, or empty.
-/

namespace JsonShape

/-- a JSON value, a tuple, or something that is neither -/
inductive Value where
  | null
  | bool (b : Bool)
  | num (n : Number)
  | str (s : String)
  | arr (items : List Value)
  | tuple (items : List Value)
  | obj (members : List (String × Value))
  | foreign (typeName : String)
deriving Inhabited

/-- the six kinds of JSON value -/
inductive Kind where
  | null
  | boolean
  | number
  | string
  | array
  | object
deriving DecidableEq

def Kind.name : Kind → String
  | null => "null"
  | boolean => "boolean"
  | number => "number"
  | string => "string"
  | array => "array"
  | object => "object"

namespace Value

/-- whether a number is nonzero; a nan is -/
def isNonzero : Number → Bool
  | .int n => n != 0
  | .float f => f.magnitude != 0
  | .inf _ => true
  | .nan _ => true

/-- whether a value switches something on: null, false, zero and what is empty do not -/
def isTruthy : Value → Bool
  | null => false
  | bool b => b
  | num n => isNonzero n
  | str s => s != ""
  | arr items => !items.isEmpty
  | tuple items => !items.isEmpty
  | obj members => !members.isEmpty
  | foreign _ => true

def int (n : Int) : Value := num (.int n)

end Value
end JsonShape
