import JsonShape.Machine
import JsonShape.Proofs.Keys

/-!
# The parts of a value

The parts of a value are the value itself, its elements or members, the parts of these, and so on,
each with its level: how many lists and objects lie around it.  What is asked of samples is asked of
each part: that it is JSON, that it is no nan, and that it does not lie too deep.

* `Value.parts_eq`            a value comes before the parts of its children, in their order;
* `Value.children_induction`  what holds of a value if it holds of its children, holds of all;
* `Value.deeper_mem_parts`    the parts of what lies one step below are parts;
* `Value.Sample.follow`       one step below a sample there are samples.
-/

namespace JsonShape
namespace Value

/-- a part, seen from outside a list or an object that holds it -/
def deeper (p : Nat × Value) : Nat × Value := (p.1 + 1, p.2)

mutual

/-- all parts with their levels, a whole before its parts -/
def parts : Value → List (Nat × Value)
  | arr items => (0, arr items) :: itemParts items
  | tuple items => (0, tuple items) :: itemParts items
  | obj members => (0, obj members) :: memberParts members
  | v => [(0, v)]

def itemParts : List Value → List (Nat × Value)
  | [] => []
  | v :: r => (parts v).map deeper ++ itemParts r

def memberParts : List (String × Value) → List (Nat × Value)
  | [] => []
  | (_, v) :: r => (parts v).map deeper ++ memberParts r

end

/-- the elements or the members of a value -/
def children : Value → List Value
  | arr items => items
  | tuple items => items
  | obj members => members.map Prod.snd
  | _ => []

theorem itemParts_eq_flatMap (items : List Value) :
    itemParts items = items.flatMap fun w => w.parts.map deeper := by
  induction items with
  | nil => rfl
  | cons v r ih => rw [itemParts, ih, List.flatMap_cons]

theorem memberParts_eq_flatMap (members : List (String × Value)) :
    memberParts members = (members.map Prod.snd).flatMap fun w => w.parts.map deeper := by
  induction members with
  | nil => rfl
  | cons m r ih => rw [memberParts, ih, List.map_cons, List.flatMap_cons]

/-- the parts of a value are the value and then the parts of its children -/
theorem parts_eq (v : Value) :
    v.parts = (0, v) :: v.children.flatMap fun w => w.parts.map deeper := by
  cases v with
  | arr items => exact congrArg ((0, arr items) :: ·) (itemParts_eq_flatMap items)
  | tuple items => exact congrArg ((0, tuple items) :: ·) (itemParts_eq_flatMap items)
  | obj members => exact congrArg ((0, obj members) :: ·) (memberParts_eq_flatMap members)
  | _ => rfl

theorem sizeOf_lt_of_mem_children {v w : Value} (h : w ∈ v.children) : sizeOf w < sizeOf v := by
  cases v with
  | arr items =>
    have hlt := List.sizeOf_lt_of_mem (show w ∈ items from h)
    simp only [arr.sizeOf_spec]
    omega
  | tuple items =>
    have hlt := List.sizeOf_lt_of_mem (show w ∈ items from h)
    simp only [tuple.sizeOf_spec]
    omega
  | obj members =>
    obtain ⟨m, hm, rfl⟩ := List.mem_map.mp h
    have hlt := List.sizeOf_lt_of_mem hm
    obtain ⟨key, w⟩ := m
    simp only [Prod.mk.sizeOf_spec] at hlt
    simp only [obj.sizeOf_spec]
    omega
  | _ => cases h

/-- induction on a value, from its children -/
theorem children_induction {P : Value → Prop} (h : ∀ v, (∀ w ∈ v.children, P w) → P v)
    (v : Value) : P v :=
  h v fun w _ => children_induction h w
termination_by sizeOf v
decreasing_by exact sizeOf_lt_of_mem_children (by assumption)

/-- whether a value, its parts aside, is JSON and no nan; no object has a key twice -/
def isRegular : Value → Bool
  | num n => !n.isNan
  | obj members => (members.map Prod.fst).Nodup
  | foreign _ => false
  | _ => true

/-- a JSON value without a nan in it -/
def Regular (v : Value) : Prop := ∀ p ∈ v.parts, p.2.isRegular = true

/-- whether a value, its parts aside, is JSON, be it a nan -/
def isJson : Value → Bool
  | num _ => true
  | v => v.isRegular

/-- a JSON value; there may be nans in it -/
def Json (v : Value) : Prop := ∀ p ∈ v.parts, p.2.isJson = true

/-- no part has more than so many lists and objects around it -/
def NestedWithin (limit : Nat) (v : Value) : Prop := ∀ p ∈ v.parts, p.1 ≤ limit

instance (v : Value) : Decidable (Regular v) :=
  inferInstanceAs (Decidable (∀ p ∈ v.parts, p.2.isRegular = true))

instance (v : Value) : Decidable (Json v) :=
  inferInstanceAs (Decidable (∀ p ∈ v.parts, p.2.isJson = true))

instance (limit : Nat) (v : Value) : Decidable (NestedWithin limit v) :=
  inferInstanceAs (Decidable (∀ p ∈ v.parts, p.1 ≤ limit))

/-- a JSON value without a nan, nested neither deeper than `limit` nor too deep to be followed -/
structure Sample (limit : Nat) (v : Value) : Prop where
  regular : v.Regular
  nested : v.NestedWithin limit
  reached : v.NestedWithin assuredDepth

instance (limit : Nat) (v : Value) : Decidable (Sample limit v) :=
  decidable_of_iff (v.Regular ∧ v.NestedWithin limit ∧ v.NestedWithin assuredDepth)
    ⟨fun h => ⟨h.1, h.2.1, h.2.2⟩, fun h => ⟨h.regular, h.nested, h.reached⟩⟩

/-- a JSON value, nested neither deeper than `limit` nor too deep to be followed; there may be nans
in it -/
structure Followed (limit : Nat) (v : Value) : Prop where
  json : v.Json
  nested : v.NestedWithin limit
  reached : v.NestedWithin assuredDepth

instance (limit : Nat) (v : Value) : Decidable (Followed limit v) :=
  decidable_of_iff (v.Json ∧ v.NestedWithin limit ∧ v.NestedWithin assuredDepth)
    ⟨fun h => ⟨h.1, h.2.1, h.2.2⟩, fun h => ⟨h.json, h.nested, h.reached⟩⟩

theorem isJson_of_isRegular {v : Value} (h : v.isRegular = true) : v.isJson = true := by
  cases v with
  | num _ => rfl
  | _ => exact h

theorem Regular.json {v : Value} (h : v.Regular) : v.Json :=
  fun p hp => isJson_of_isRegular (h p hp)

theorem Sample.followed {limit : Nat} {v : Value} (h : v.Sample limit) : v.Followed limit :=
  ⟨h.regular.json, h.nested, h.reached⟩

/-- what is nested so deep at most can be followed to this depth -/
theorem Followed.within {limit : Nat} {v : Value} (h : v.Followed limit) {depth : Int}
    (hd : (min limit assuredDepth : Nat) ≤ depth) : ∀ p ∈ v.parts, (p.1 : Int) ≤ depth := by
  intro p hp
  have hn := h.nested p hp
  have hr := h.reached p hp
  omega

/-! ### one step down -/

theorem self_mem_parts (v : Value) : (0, v) ∈ v.parts := by
  cases v <;> exact List.mem_cons_self

/-- the parts of a child are parts -/
theorem deeper_mem_parts_of_child {v w : Value} (hw : w ∈ v.children) {p : Nat × Value}
    (hp : p ∈ w.parts) : deeper p ∈ v.parts := by
  rw [parts_eq]
  exact List.mem_cons_of_mem _ (List.mem_flatMap.mpr ⟨w, hw, List.mem_map_of_mem hp⟩)

/-- what lies one step below is an element of a list, or a member of an object -/
theorem mem_follow {s : Step} {v w : Value} (h : w ∈ v.follow s) :
    (∃ items, (v = arr items ∨ v = tuple items) ∧ s = .element ∧ w ∈ items)
      ∨ ∃ members k, v = obj members ∧ s = .key k ∧ members.lookup k = some w := by
  cases s with
  | key k =>
    cases v with
    | obj members =>
      have hl : members.lookup k = some w := Option.mem_toList.mp h
      exact Or.inr ⟨members, k, rfl, rfl, hl⟩
    | _ => cases h
  | element =>
    cases v with
    | arr items => exact Or.inl ⟨items, Or.inl rfl, rfl, h⟩
    | tuple items => exact Or.inl ⟨items, Or.inr rfl, rfl, h⟩
    | _ => cases h

/-- the keys of an object, as they stand in it -/
def keys : Value → List String
  | obj members => members.map Prod.fst
  | _ => []

theorem mem_keys {v : Value} {k : String} : k ∈ v.keys ↔ v.follow (.key k) ≠ [] := by
  cases v with
  | obj members =>
    show k ∈ members.map Prod.fst ↔ (members.lookup k).toList ≠ []
    rw [← Decidable.not_iff_not, ← lookup_eq_none]
    cases members.lookup k <;> simp
  | _ => simp [keys, follow]

/-- what lies one step below is a child -/
theorem mem_children_of_mem_follow {s : Step} {v w : Value} (h : w ∈ v.follow s) :
    w ∈ v.children := by
  rcases mem_follow h with ⟨items, rfl | rfl, _, hw⟩ | ⟨members, k, rfl, _, hw⟩
  · exact hw
  · exact hw
  · exact List.mem_map_of_mem (mem_of_lookup hw)

theorem deeper_mem_parts {s : Step} {v w : Value} (h : w ∈ v.follow s) {p : Nat × Value}
    (hp : p ∈ w.parts) : deeper p ∈ v.parts :=
  deeper_mem_parts_of_child (mem_children_of_mem_follow h) hp

/-- induction on a value, from what lies one step below it -/
theorem follow_induction {P : Value → Prop} (h : ∀ v, (∀ s, ∀ w ∈ v.follow s, P w) → P v)
    (v : Value) : P v :=
  children_induction (fun v ih => h v fun _ w hw => ih w (mem_children_of_mem_follow hw)) v

theorem Regular.follow {s : Step} {v w : Value} (hv : v.Regular) (h : w ∈ v.follow s) :
    w.Regular := fun p hp => hv (deeper p) (deeper_mem_parts h hp)

theorem Regular.self {v : Value} (hv : v.Regular) : v.isRegular = true :=
  hv (0, v) (self_mem_parts v)

theorem Json.follow {s : Step} {v w : Value} (hv : v.Json) (h : w ∈ v.follow s) : w.Json :=
  fun p hp => hv (deeper p) (deeper_mem_parts h hp)

theorem Json.self {v : Value} (hv : v.Json) : v.isJson = true := hv (0, v) (self_mem_parts v)

theorem Json.keys_nodup {members : List (String × Value)} (h : (obj members).Json) :
    (members.map Prod.fst).Nodup := of_decide_eq_true h.self

theorem Regular.not_nan {n : Number} (h : (num n).Regular) : n.isNan = false := by
  have hn : (!n.isNan) = true := h.self
  rwa [Bool.not_eq_true'] at hn

theorem Sample.follow {limit : Nat} {s : Step} {v w : Value} (hv : v.Sample limit)
    (h : w ∈ v.follow s) : w.Sample limit where
  regular := hv.regular.follow h
  nested p hp := Nat.le_of_succ_le (hv.nested (deeper p) (deeper_mem_parts h hp))
  reached p hp := Nat.le_of_succ_le (hv.reached (deeper p) (deeper_mem_parts h hp))

end Value
end JsonShape
