/-!
# Finite sets as strictly ascending lists

`OrdSet α` keeps its members in ascending order, no two of them level in the order.  The order need
not tell all members apart: two numbers of one value are level, and the set then keeps the one that
came first.

* `mem_insertInto`      an insertion adds at most the new member;
* `insertInto_pairwise` an insertion keeps the list strictly ascending;
* `OrdSet.ext`          a set is its list.
-/

namespace JsonShape
open Std

/-- a finite set, listed in strictly ascending order -/
structure OrdSet (α : Type) [Ord α] where
  toList : List α
  ascending : toList.Pairwise (fun a b => compare a b = .lt)

/-! ### insertion into an ascending list -/

section
variable {α : Type} [Ord α]

/-- put `a` at its place; a member level with it stays in its stead -/
def insertInto (a : α) : List α → List α
  | [] => [a]
  | b :: r =>
    match compare a b with
    | .lt => a :: b :: r
    | .eq => b :: r
    | .gt => b :: insertInto a r

theorem mem_insertInto {a x : α} {l : List α} (h : x ∈ insertInto a l) : x = a ∨ x ∈ l := by
  induction l with
  | nil => exact Or.inl (by simpa [insertInto] using h)
  | cons b r ih =>
    cases hc : compare a b with
    | lt =>
      simp only [insertInto, hc, List.mem_cons] at h
      simpa [List.mem_cons] using h
    | eq =>
      simp only [insertInto, hc] at h
      exact Or.inr h
    | gt =>
      simp only [insertInto, hc, List.mem_cons] at h
      rcases h with rfl | h
      · exact Or.inr List.mem_cons_self
      · exact (ih h).imp_right (List.mem_cons_of_mem b)

theorem insertInto_pairwise [TransOrd α] (a : α) {l : List α}
    (h : l.Pairwise (fun a b => compare a b = .lt)) :
    (insertInto a l).Pairwise (fun a b => compare a b = .lt) := by
  induction l with
  | nil => exact List.pairwise_singleton _ a
  | cons b r ih =>
    obtain ⟨hb, hr⟩ := List.pairwise_cons.mp h
    cases hc : compare a b with
    | lt =>
      simp only [insertInto, hc]
      refine List.pairwise_cons.mpr ⟨fun x hx => ?_, h⟩
      rcases List.mem_cons.mp hx with rfl | hx
      · exact hc
      · exact TransCmp.lt_trans hc (hb x hx)
    | eq =>
      simp only [insertInto, hc]
      exact h
    | gt =>
      simp only [insertInto, hc]
      refine List.pairwise_cons.mpr ⟨fun x hx => ?_, ih hr⟩
      rcases mem_insertInto hx with rfl | hx
      · exact OrientedCmp.lt_of_gt hc
      · exact hb x hx

end

/-! ### the set -/

namespace OrdSet
variable {α : Type} [Ord α]

theorem ext {s t : OrdSet α} (h : s.toList = t.toList) : s = t := by
  cases s with
  | mk l hl =>
    cases t with
    | mk m hm =>
      cases h
      rfl

/-- the set without members -/
def empty : OrdSet α := ⟨[], List.Pairwise.nil⟩

instance : EmptyCollection (OrdSet α) := ⟨empty⟩

instance : Inhabited (OrdSet α) := ⟨empty⟩

@[simp] theorem toList_empty : (∅ : OrdSet α).toList = [] := rfl

/-- the number of members -/
def size (s : OrdSet α) : Nat := s.toList.length

/-- whether there are no members -/
def isEmpty (s : OrdSet α) : Bool := s.toList.isEmpty

/-- whether some member is level with `a` -/
def contains (s : OrdSet α) (a : α) : Bool := s.toList.any fun b => compare a b == .eq

/-- whether the members of `s` and `t` are level one by one -/
def sameAs (s t : OrdSet α) : Bool :=
  s.size == t.size && (s.toList.zip t.toList).all fun p => compare p.1 p.2 == .eq

variable [TransOrd α]

/-- add `a`, unless a member is level with it -/
def insert (s : OrdSet α) (a : α) : OrdSet α :=
  ⟨insertInto a s.toList, insertInto_pairwise a s.ascending⟩

@[simp] theorem toList_insert (s : OrdSet α) (a : α) :
    (s.insert a).toList = insertInto a s.toList := rfl

/-- the set of one member -/
def singleton (a : α) : OrdSet α := (∅ : OrdSet α).insert a

@[simp] theorem toList_singleton (a : α) : (singleton a).toList = [a] := rfl

/-- all members of both; of two that are level the one of `s` stays -/
def union (s t : OrdSet α) : OrdSet α := t.toList.foldl insert s

@[simp] theorem union_empty (s : OrdSet α) : s.union ∅ = s := rfl

/-- the set of the members of a list, of level ones the first -/
def ofList (l : List α) : OrdSet α := l.foldl insert ∅

@[simp] theorem ofList_nil : ofList ([] : List α) = ∅ := rfl

end OrdSet
end JsonShape
