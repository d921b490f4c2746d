import JsonShape.Tree.Basic

/-!
# Merging trees

`Tree.merge` combines two trees gathered apart: the evidence position by position, the keys of the
first tree in their order, then the keys that only the second one has.

* `Tree.merge_mk`  the merge of two trees, part by part.
-/

namespace JsonShape.Tree

/-- the properties of `b` whose keys are not among those of `a` -/
def newIn (a b : List (String × Tree)) : List (String × Tree) :=
  b.filter fun p => !a.any fun q => q.1 == p.1

mutual

/-- the evidence of both trees -/
def merge (caps : Caps) : Tree → Tree → Tree
  | ⟨here, properties, items⟩, b =>
    ⟨here.merge caps b.here,
      mergeShared caps properties b.properties ++ newIn properties b.properties,
      mergeItems caps items b.items⟩

/-- the properties of the first list, merged with those of the same key in the second -/
def mergeShared (caps : Caps) :
    List (String × Tree) → List (String × Tree) → List (String × Tree)
  | [], _ => []
  | (key, t) :: r, b =>
    (key, match b.lookup key with
      | some u => merge caps t u
      | none => t) :: mergeShared caps r b

def mergeItems (caps : Caps) : Option Tree → Option Tree → Option Tree
  | none, b => b
  | some t, none => some t
  | some t, some u => some (merge caps t u)

end

theorem merge_mk (caps : Caps) (a b : Tree) :
    merge caps a b = ⟨a.here.merge caps b.here,
      mergeShared caps a.properties b.properties ++ newIn a.properties b.properties,
      mergeItems caps a.items b.items⟩ := by
  cases a
  rfl

theorem mergeItems_none (caps : Caps) (t : Option Tree) : mergeItems caps t none = t := by
  cases t <;> rfl

theorem keys_mergeShared (caps : Caps) (a b : List (String × Tree)) :
    (mergeShared caps a b).map Prod.fst = a.map Prod.fst := by
  induction a with
  | nil => rfl
  | cons p r ih => simp only [mergeShared, List.map_cons, ih]

end JsonShape.Tree
