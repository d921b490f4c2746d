import JsonShape.OrdSet

/-!
# Type tags

A `Tag` names a type of JSON Schema.  Seven names have a meaning there; others may occur and stand
for themselves.  Tags are ordered by name.

The tags seen at one position are unified into the value of a `type` keyword: one name, or several
in ascending order.  Whole numbers count as numbers where both were seen.

* `unify_empty`      nothing seen counts as null;
* `unify_singleton`  one tag stands alone.
-/

namespace JsonShape
open Std

/-- the name of a type -/
structure Tag where
  name : String
deriving DecidableEq

namespace Tag

def null : Tag := ⟨"null"⟩
def boolean : Tag := ⟨"boolean"⟩
def integer : Tag := ⟨"integer"⟩
def number : Tag := ⟨"number"⟩
def string : Tag := ⟨"string"⟩
def array : Tag := ⟨"array"⟩
def object : Tag := ⟨"object"⟩

instance : Ord Tag := ⟨compareOn name⟩

instance : TransOrd Tag := inferInstanceAs <| TransCmp (compareOn name)

instance : LawfulEqOrd Tag where
  compare_self := ReflOrd.compare_self (α := String)
  eq_of_compare {a b} h := by
    cases a with
    | mk x =>
      cases b with
      | mk y => exact congrArg mk (LawfulEqOrd.eq_of_compare h)

end Tag

/-- the value of a `type` keyword -/
inductive TypeKeyword where
  | one (tag : Tag)
  | union (tags : List Tag)
deriving DecidableEq

namespace TypeKeyword

/-- the tags without the whole numbers, where all numbers are among them -/
def absorbed (tags : OrdSet Tag) : List Tag :=
  if tags.contains .number then tags.toList.filter (· ≠ .integer) else tags.toList

/-- the type that stands for a set of tags -/
def unify (tags : OrdSet Tag) : TypeKeyword :=
  match absorbed tags with
  | [] => one .null
  | [tag] => one tag
  | several => union several

theorem unify_empty : unify ∅ = one .null := rfl

theorem unify_singleton (tag : Tag) : unify (OrdSet.singleton tag) = one tag := by
  by_cases h : (OrdSet.singleton tag).contains .number = true
  · have hc : compare Tag.number tag = .eq := by
      simpa [OrdSet.contains] using h
    have ht : tag = .number := (LawfulEqOrd.eq_of_compare hc).symm
    subst ht
    simp only [unify, absorbed, h, if_true, OrdSet.toList_singleton]
    rfl
  · simp only [unify, absorbed, h, OrdSet.toList_singleton]
    rfl

end TypeKeyword
end JsonShape
