import JsonShape.Value.Basic

/-!
# Scalars

A `Scalar` is a value without parts: null, a truth value, a number or a string.  Null comes first,
numbers follow by value, strings come last.  Among numbers a truth value counts as zero or one, and
an integer and a double of one value are level.

* `Value.scalar?_toValue`                     a scalar is read back from its value;
* `Value.scalar_cases`                        what else a value may be;
* `Scalar.compare_num`, `Scalar.compare_str`  scalars of one kind are ordered as their contents;
* `Scalar.compare_bool_num`                   a truth value is ordered as the number it counts as.
-/

namespace JsonShape
open Std

/-- null, a truth value, a number or a string -/
inductive Scalar where
  | null
  | bool (b : Bool)
  | num (n : Number)
  | str (s : String)
deriving DecidableEq

namespace Scalar

def kind : Scalar → Kind
  | null => .null
  | bool _ => .boolean
  | num _ => .number
  | str _ => .string

def toValue : Scalar → Value
  | null => .null
  | bool b => .bool b
  | num n => .num n
  | str s => .str s

/-- the number that a scalar is or counts as, if any -/
def num? : Scalar → Option Number
  | null => none
  | bool b => some (.ofBool b)
  | num n => some n
  | str _ => none

def str? : Scalar → Option String
  | null => none
  | bool _ => none
  | num _ => none
  | str s => some s

/-- what is absent comes first, so null precedes numbers and numbers strings -/
instance : Ord Scalar := ⟨compareLex (compareOn str?) (compareOn num?)⟩

instance : TransOrd Scalar := inferInstanceAs <| TransCmp (compareLex _ _)

theorem compare_num (a b : Number) : compare (num a) (num b) = compare a b := rfl

theorem compare_str (a b : String) : compare (str a) (str b) = compare a b :=
  Ordering.then_eq

theorem compare_bool_num (a : Bool) (b : Number) :
    compare (bool a) (num b) = compare (Number.ofBool a) b := rfl

theorem compare_num_str (a : Number) (b : String) : compare (num a) (str b) = .lt := rfl

/-- whether two scalars are of one kind and level: one and one point zero are, one and true not -/
def sameAs (a b : Scalar) : Bool := a.kind = b.kind && compare a b == .eq

end Scalar

/-- the value as a scalar, if it is one -/
def Value.scalar? : Value → Option Scalar
  | null => some .null
  | bool b => some (.bool b)
  | num n => some (.num n)
  | str s => some (.str s)
  | _ => none

theorem Value.scalar?_toValue (s : Scalar) : s.toValue.scalar? = some s := by
  cases s <;> rfl

/-- a value is a scalar, an array of either kind, an object or foreign -/
theorem Value.scalar_cases {P : Value → Prop} (scalar : ∀ v : Value, v.scalar?.isSome = true → P v)
    (arr : ∀ items, P (.arr items)) (tuple : ∀ items, P (.tuple items))
    (obj : ∀ members, P (.obj members)) (foreign : ∀ name, P (.foreign name)) (v : Value) :
    P v := by
  cases v with
  | arr items => exact arr items
  | tuple items => exact tuple items
  | obj members => exact obj members
  | foreign name => exact foreign name
  | null => exact scalar _ rfl
  | bool _ => exact scalar _ rfl
  | num _ => exact scalar _ rfl
  | str _ => exact scalar _ rfl

end JsonShape
