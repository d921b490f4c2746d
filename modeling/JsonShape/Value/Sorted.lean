import JsonShape.Value.Basic

/-!
# Sorted keys

`Value.sortKeys` puts the members of every object in the order of their keys, by code points, at
every depth that is reached through objects and lists.  Tuples are left as they are.

* `sortByKey_perm`      sorting loses and adds nothing;
* `sortByKey_pairwise`  the keys of the result ascend.

`Value.sortDepth` is the number of objects and lists that lie one within the other on the way to the
deepest value that is reached.
-/

namespace JsonShape

/-! ### sorting members by key -/

section
variable {α : Type}

/-- put a member before the first one whose key is not less -/
def insertByKey (m : String × α) : List (String × α) → List (String × α)
  | [] => [m]
  | n :: r => if n.1 < m.1 then n :: insertByKey m r else m :: n :: r

/-- members in ascending order of their keys -/
def sortByKey : List (String × α) → List (String × α)
  | [] => []
  | m :: r => insertByKey m (sortByKey r)

theorem insertByKey_perm (m : String × α) (l : List (String × α)) :
    (insertByKey m l).Perm (m :: l) := by
  induction l with
  | nil => exact List.Perm.refl _
  | cons n r ih =>
    by_cases h : n.1 < m.1
    · rw [insertByKey, if_pos h]
      exact (List.Perm.cons n ih).trans (List.Perm.swap m n r)
    · rw [insertByKey, if_neg h]

theorem sortByKey_perm (l : List (String × α)) : (sortByKey l).Perm l := by
  induction l with
  | nil => exact List.Perm.refl _
  | cons m r ih => exact (insertByKey_perm m _).trans (List.Perm.cons m ih)

theorem insertByKey_pairwise (m : String × α) {l : List (String × α)}
    (h : l.Pairwise (fun a b => a.1 ≤ b.1)) :
    (insertByKey m l).Pairwise (fun a b => a.1 ≤ b.1) := by
  induction l with
  | nil => exact List.pairwise_singleton _ m
  | cons n r ih =>
    obtain ⟨hn, hr⟩ := List.pairwise_cons.mp h
    by_cases hlt : n.1 < m.1
    · rw [insertByKey, if_pos hlt]
      refine List.pairwise_cons.mpr ⟨fun x hx => ?_, ih hr⟩
      rcases List.mem_cons.mp ((insertByKey_perm m r).mem_iff.mp hx) with rfl | hx
      · exact String.not_lt.mp (String.lt_asymm hlt)
      · exact hn x hx
    · rw [insertByKey, if_neg hlt]
      have hle : m.1 ≤ n.1 := String.not_lt.mp hlt
      refine List.pairwise_cons.mpr ⟨fun x hx => ?_, h⟩
      rcases List.mem_cons.mp hx with rfl | hx
      · exact hle
      · exact String.le_trans hle (hn x hx)

theorem sortByKey_pairwise (l : List (String × α)) :
    (sortByKey l).Pairwise (fun a b => a.1 ≤ b.1) := by
  induction l with
  | nil => exact List.Pairwise.nil
  | cons m r ih => exact insertByKey_pairwise m ih

end

/-! ### sorting at every depth -/

namespace Value

mutual

/-- the value with the members of all objects outside tuples in the order of their keys -/
def sortKeys : Value → Value
  | arr items => arr (sortItems items)
  | obj members => obj (sortByKey (sortMembers members))
  | v => v

def sortItems : List Value → List Value
  | [] => []
  | v :: r => sortKeys v :: sortItems r

def sortMembers : List (String × Value) → List (String × Value)
  | [] => []
  | (k, v) :: r => (k, sortKeys v) :: sortMembers r

end

theorem sortItems_eq_map (items : List Value) : sortItems items = items.map sortKeys := by
  induction items with
  | nil => rfl
  | cons v r ih => rw [sortItems, ih, List.map_cons]

theorem sortMembers_eq_map (members : List (String × Value)) :
    sortMembers members = members.map (fun m => (m.1, sortKeys m.2)) := by
  induction members with
  | nil => rfl
  | cons m r ih => rw [sortMembers, ih, List.map_cons]

/-! ### how deep sorting goes -/

mutual

/-- how many objects and lists lie one within the other, tuples being left as they are -/
def sortDepth : Value → Nat
  | arr items => sortDepthItems items + 1
  | obj members => sortDepthMembers members + 1
  | _ => 0

def sortDepthItems : List Value → Nat
  | [] => 0
  | v :: r => max (sortDepth v) (sortDepthItems r)

def sortDepthMembers : List (String × Value) → Nat
  | [] => 0
  | (_, v) :: r => max (sortDepth v) (sortDepthMembers r)

end

end Value
end JsonShape
