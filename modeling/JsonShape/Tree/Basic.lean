import JsonShape.Evidence.Basic
import JsonShape.Position

/-!
# Evidence trees

A `Tree` holds the evidence of one position and of all positions below it: one subtree per object
key, in the order in which the keys were first seen, and one for the elements of all arrays.

* `Tree.at?_nil`, `Tree.at?_cons`  a position is reached step by step.
-/

namespace JsonShape

/-- the evidence of a position and of what lies below it -/
structure Tree where
  here : Evidence
  properties : List (String × Tree)
  items : Option Tree

namespace Tree

def fresh : Tree := ⟨∅, [], none⟩

instance : Inhabited Tree := ⟨fresh⟩

/-- the subtree one step down -/
def step? (t : Tree) : Step → Option Tree
  | .key name => t.properties.lookup name
  | .element => t.items

/-- the subtree at a position -/
def at? (t : Tree) : Position → Option Tree
  | [] => some t
  | s :: r =>
    match t.step? s with
    | some child => child.at? r
    | none => none

theorem at?_nil (t : Tree) : t.at? [] = some t := rfl

theorem at?_cons (t : Tree) (s : Step) (r : Position) :
    t.at? (s :: r) = (t.step? s).bind fun child => child.at? r := by
  rw [at?]
  cases t.step? s with
  | none => rfl
  | some child => rfl

end Tree
end JsonShape
