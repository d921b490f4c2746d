import JsonShape.Tree.Basic

/-!
# Equal trees

Two trees are the same if they hold the same evidence at the same positions: the examples left out,
numbers taken by value, and the order of the keys without meaning.
-/

namespace JsonShape.Tree

mutual

def sameAs : Tree → Tree → Bool
  | ⟨here, properties, items⟩, b =>
    here.sameAs b.here
      && properties.length == b.properties.length && sameProperties properties b.properties
      && sameItems items b.items

/-- whether every property of the first list has its like in the second -/
def sameProperties : List (String × Tree) → List (String × Tree) → Bool
  | [], _ => true
  | (key, t) :: r, b =>
    (match b.lookup key with
      | some u => sameAs t u
      | none => false) && sameProperties r b

def sameItems : Option Tree → Option Tree → Bool
  | none, none => true
  | some t, some u => sameAs t u
  | _, _ => false

end

end JsonShape.Tree
