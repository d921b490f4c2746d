import JsonShape.Value.Basic

/-!
# Positions

A position is reached from the root by steps to an object key or to the elements of arrays.  All
elements of all arrays at a position share one position below it.

* `valuesAt_append`  the values at a position are those of both halves of the samples, in order;
* `valuesAt_cons`    and are found one step at a time.
-/

namespace JsonShape

/-- one step down: to an object key, or to the elements of arrays -/
inductive Step where
  | key (name : String)
  | element
deriving DecidableEq

/-- the steps from the root, the first one first -/
abbrev Position := List Step

/-- the values one step below a value -/
def Value.follow : Step → Value → List Value
  | .key name, .obj members => (members.lookup name).toList
  | .element, .arr items => items
  | .element, .tuple items => items
  | _, _ => []

/-- the values at a position of samples, in document order -/
def valuesAt : Position → List Value → List Value
  | [], values => values
  | s :: p, values => valuesAt p (values.flatMap (Value.follow s))

theorem valuesAt_nil (values : List Value) : valuesAt [] values = values := rfl

theorem valuesAt_cons (s : Step) (p : Position) (values : List Value) :
    valuesAt (s :: p) values = valuesAt p (values.flatMap (Value.follow s)) := rfl

theorem valuesAt_append (p : Position) (a b : List Value) :
    valuesAt p (a ++ b) = valuesAt p a ++ valuesAt p b := by
  induction p generalizing a b with
  | nil => rfl
  | cons s p ih => rw [valuesAt_cons, valuesAt_cons, valuesAt_cons, List.flatMap_append, ih]

end JsonShape
