import Mathlib.Data.List.Forall2
import JsonShape.Proofs.Parts

/-!
# Sorted keys are a canonical form

Sorting reaches through objects and lists, and leaves tuples as they are.  What it cannot tell apart
are values that differ in nothing but the order of the keys of objects outside tuples, and of these
it picks one: the one whose keys ascend.

* `Value.sortKeys_ascending`   the keys ascend in all objects that are reached;
* `Value.sortKeys_eq_self`     a value whose keys ascend already is left as it is;
* `Value.Reordered.sortKeys_eq`, `Value.reordered_of_sortKeys_eq`  values are sorted alike exactly
                               if they are the same but for the order of keys;
* `Value.sortKeys_canonical`   all of this together.
-/

namespace JsonShape
namespace Value

/-! ### outside tuples -/

mutual

/-- the value and all that lies in it, tuples being left closed -/
def reached : Value → List Value
  | arr items => arr items :: reachedItems items
  | obj members => obj members :: reachedMembers members
  | v => [v]

def reachedItems : List Value → List Value
  | [] => []
  | v :: r => reached v ++ reachedItems r

def reachedMembers : List (String × Value) → List Value
  | [] => []
  | (_, v) :: r => reached v ++ reachedMembers r

end

/-- what lies directly in a list or an object -/
def inner : Value → List Value
  | arr items => items
  | obj members => members.map Prod.snd
  | _ => []

theorem reachedItems_eq_flatMap (items : List Value) :
    reachedItems items = items.flatMap reached := by
  induction items with
  | nil => rfl
  | cons v r ih => rw [reachedItems, ih, List.flatMap_cons]

theorem reachedMembers_eq_flatMap (members : List (String × Value)) :
    reachedMembers members = (members.map Prod.snd).flatMap reached := by
  induction members with
  | nil => rfl
  | cons m r ih => rw [reachedMembers, ih, List.map_cons, List.flatMap_cons]

theorem reached_eq (v : Value) : v.reached = v :: v.inner.flatMap reached := by
  cases v with
  | arr items => exact congrArg (arr items :: ·) (reachedItems_eq_flatMap items)
  | obj members => exact congrArg (obj members :: ·) (reachedMembers_eq_flatMap members)
  | _ => rfl

/-- what holds of the keys of every object outside tuples -/
def KeysOutside (P : List String → Prop) (v : Value) : Prop := ∀ w ∈ v.reached, P w.keys

/-- no object outside tuples has a key twice -/
def Keyed (v : Value) : Prop := v.KeysOutside List.Nodup

/-- in every object outside tuples each key is less than the next, by code points -/
def Ascending (v : Value) : Prop := v.KeysOutside (List.Pairwise (· < ·))

instance (v : Value) : Decidable v.Keyed :=
  inferInstanceAs (Decidable (∀ w ∈ v.reached, w.keys.Nodup))

instance (v : Value) : Decidable v.Ascending :=
  inferInstanceAs (Decidable (∀ w ∈ v.reached, w.keys.Pairwise (· < ·)))

theorem keysOutside_iff {P : List String → Prop} {v : Value} :
    v.KeysOutside P ↔ P v.keys ∧ ∀ w ∈ v.inner, w.KeysOutside P := by
  rw [KeysOutside, reached_eq, List.forall_mem_cons]
  refine and_congr_right fun _ => ?_
  constructor
  · intro h w hw u hu
    exact h u (List.mem_flatMap.mpr ⟨w, hw, hu⟩)
  · intro h u hu
    obtain ⟨w, hw, hwu⟩ := List.mem_flatMap.mp hu
    exact h w hw u hwu

/-- the same value but for the order of the keys of objects outside tuples -/
inductive Reordered : Value → Value → Prop
  | refl (v : Value) : Reordered v v
  | arr {xs ys : List Value} (h : List.Forall₂ Reordered xs ys) : Reordered (arr xs) (arr ys)
  | obj {ms ns : List (String × Value)} (keys : (ms.map Prod.fst).Perm (ns.map Prod.fst))
      (h : ∀ k v w, ms.lookup k = some v → ns.lookup k = some w → Reordered v w) :
      Reordered (obj ms) (obj ns)

/-! ### the sorted value -/

/-- the keys of a sorted row ascend strictly, for none occurs twice -/
theorem keys_sortByKey_ascending {α : Type} {l : List (String × α)}
    (hl : (l.map Prod.fst).Nodup) : ((sortByKey l).map Prod.fst).Pairwise (· < ·) := by
  have hle : ((sortByKey l).map Prod.fst).Pairwise (· ≤ ·) :=
    List.pairwise_map.mpr (sortByKey_pairwise l)
  refine (hle.and (sortByKey_keys_nodup hl)).imp fun {a b} hab => ?_
  apply Decidable.byContradiction
  intro hlt
  exact hab.2 (String.le_antisymm hab.1 (String.not_lt.mp hlt))

theorem sortKeys_arr (items : List Value) :
    (arr items).sortKeys = arr (items.map sortKeys) := by
  rw [sortKeys, sortItems_eq_map]

theorem sortKeys_obj (members : List (String × Value)) :
    (obj members).sortKeys = obj (sortByKey (sortMembers members)) := rfl

theorem keys_sortMembers (members : List (String × Value)) :
    (sortMembers members).map Prod.fst = members.map Prod.fst := by
  rw [sortMembers_eq_map, List.map_map]
  rfl

theorem nodup_sortMembers {members : List (String × Value)} (h : (members.map Prod.fst).Nodup) :
    ((sortMembers members).map Prod.fst).Nodup := by
  rw [keys_sortMembers]
  exact h

/-- what is found in a sorted object is what was found before, sorted -/
theorem lookup_sorted {members : List (String × Value)} (h : (members.map Prod.fst).Nodup)
    (k : String) :
    (sortByKey (sortMembers members)).lookup k = (members.lookup k).map sortKeys := by
  rw [lookup_sortByKey (nodup_sortMembers h), sortMembers_eq_map, lookup_map]

theorem sortKeys_ascending {v : Value} (h : v.Keyed) : v.sortKeys.Ascending := by
  induction v using children_induction with
  | h v ih =>
    obtain ⟨hkeys, hinner⟩ := keysOutside_iff.mp h
    cases v with
    | arr items =>
      rw [sortKeys_arr, Ascending, keysOutside_iff]
      refine ⟨List.Pairwise.nil, fun w hw => ?_⟩
      obtain ⟨u, hu, rfl⟩ := List.mem_map.mp hw
      exact ih u hu (hinner u hu)
    | obj members =>
      rw [sortKeys_obj, Ascending, keysOutside_iff]
      refine ⟨keys_sortByKey_ascending (nodup_sortMembers hkeys), fun w hw => ?_⟩
      obtain ⟨m, hm, rfl⟩ := List.mem_map.mp hw
      have hsorted := (sortByKey_perm _).mem_iff.mp hm
      rw [sortMembers_eq_map] at hsorted
      obtain ⟨n, hn, rfl⟩ := List.mem_map.mp hsorted
      have hmem : n.2 ∈ members.map Prod.snd := List.mem_map_of_mem hn
      exact ih n.2 hmem (hinner n.2 hmem)
    | _ => exact keysOutside_iff.mpr ⟨List.Pairwise.nil, nofun⟩

theorem sortKeys_eq_self {v : Value} (h : v.Ascending) : v.sortKeys = v := by
  induction v using children_induction with
  | h v ih =>
    obtain ⟨hkeys, hinner⟩ := keysOutside_iff.mp h
    cases v with
    | arr items =>
      have hitems : ∀ w ∈ items, w.sortKeys = w := fun w hw => ih w hw (hinner w hw)
      rw [sortKeys_arr, List.map_congr_left hitems, List.map_id']
    | obj members =>
      have hmembers : ∀ m ∈ members, (m.1, m.2.sortKeys) = m := by
        intro m hm
        have hmem : m.2 ∈ members.map Prod.snd := List.mem_map_of_mem hm
        rw [ih m.2 hmem (hinner m.2 hmem)]
      have hsorted : members.Pairwise fun a b => a.1 ≤ b.1 :=
        (List.pairwise_map.mp hkeys).imp fun hab => String.not_lt.mp (String.lt_asymm hab)
      have hnodup : (members.map Prod.fst).Nodup := hkeys.imp fun hab => String.ne_of_lt hab
      rw [sortKeys_obj, sortMembers_eq_map, List.map_congr_left hmembers, List.map_id']
      exact congrArg obj (eq_sortByKey hnodup hsorted (.refl members)).symm
    | _ => rfl

/-! ### what sorting cannot tell apart -/

/-- lists that `f` does not tell apart, entry by entry -/
theorem forall₂_of_map_eq {α β : Type} {f : α → β} {R : α → α → Prop} {xs ys : List α}
    (h : xs.map f = ys.map f) (hR : ∀ x ∈ xs, ∀ y ∈ ys, f x = f y → R x y) :
    List.Forall₂ R xs ys := by
  induction xs generalizing ys with
  | nil =>
    rw [List.map_eq_nil_iff.mp h.symm]
    exact .nil
  | cons x r ih =>
    cases ys with
    | nil => cases h
    | cons y s =>
      obtain ⟨hxy, hrs⟩ := List.cons.inj h
      refine .cons (hR x List.mem_cons_self y List.mem_cons_self hxy) (ih hrs ?_)
      exact fun a ha b hb => hR a (List.mem_cons_of_mem _ ha) b (List.mem_cons_of_mem _ hb)

theorem map_eq_of_forall₂ {α β : Type} {f : α → β} {R : α → α → Prop} {xs ys : List α}
    (h : List.Forall₂ R xs ys) (hf : ∀ x ∈ xs, ∀ y ∈ ys, R x y → f x = f y) :
    xs.map f = ys.map f := by
  induction h with
  | nil => rfl
  | @cons x y r s hxy _ ih =>
    rw [List.map_cons, List.map_cons, hf x List.mem_cons_self y List.mem_cons_self hxy,
      ih fun a ha b hb => hf a (List.mem_cons_of_mem _ ha) b (List.mem_cons_of_mem _ hb)]

theorem Reordered.sortKeys_eq {v w : Value} (h : Reordered v w) (hv : v.Keyed) (hw : w.Keyed) :
    v.sortKeys = w.sortKeys := by
  induction v using children_induction generalizing w with
  | h v ih =>
    obtain ⟨hkeys, hinner⟩ := keysOutside_iff.mp hv
    obtain ⟨hkeys', hinner'⟩ := keysOutside_iff.mp hw
    cases h with
    | refl => rfl
    | @arr xs ys h =>
      rw [sortKeys_arr, sortKeys_arr, map_eq_of_forall₂ h]
      exact fun x hx y hy hxy => ih x hx hxy (hinner x hx) (hinner' y hy)
    | @obj ms ns keys h =>
      rw [sortKeys_obj, sortKeys_obj, sortMembers_eq_map, sortMembers_eq_map,
        sortByKey_map_eq hkeys hkeys']
      intro k
      have hnone : ms.lookup k = none ↔ ns.lookup k = none := by
        rw [lookup_eq_none, lookup_eq_none, keys.mem_iff]
      cases hm : ms.lookup k with
      | none => rw [hnone.mp hm]
      | some x =>
        cases hn : ns.lookup k with
        | none =>
          rw [hnone.mpr hn] at hm
          cases hm
        | some y =>
          have hx : x ∈ ms.map Prod.snd := List.mem_map_of_mem (mem_of_lookup hm)
          have hy : y ∈ ns.map Prod.snd := List.mem_map_of_mem (mem_of_lookup hn)
          exact congrArg some (ih x hx (h k x y hm hn) (hinner x hx) (hinner' y hy))

/-- what is sorted to a list is a list -/
theorem exists_arr_of_sortKeys {w : Value} {xs : List Value} (h : w.sortKeys = arr xs) :
    ∃ ys, w = arr ys ∧ ys.map sortKeys = xs := by
  cases w with
  | arr ys =>
    rw [sortKeys_arr] at h
    exact ⟨ys, rfl, arr.inj h⟩
  | _ => cases h

/-- what is sorted to an object is an object -/
theorem exists_obj_of_sortKeys {w : Value} {ms : List (String × Value)} (h : w.sortKeys = obj ms) :
    ∃ ns, w = obj ns ∧ sortByKey (sortMembers ns) = ms := by
  cases w with
  | obj ns => exact ⟨ns, rfl, obj.inj h⟩
  | _ => cases h

/-- what is neither is sorted to itself, and nothing else is -/
theorem eq_of_sortKeys {v w : Value} (harr : ∀ items, v ≠ arr items)
    (hobj : ∀ members, v ≠ obj members) (h : w.sortKeys = v) : w = v := by
  cases w with
  | arr items => exact absurd h.symm (harr _)
  | obj members => exact absurd h.symm (hobj _)
  | _ => exact h

theorem reordered_of_sortKeys_eq {v w : Value} (h : v.sortKeys = w.sortKeys) (hv : v.Keyed)
    (hw : w.Keyed) : Reordered v w := by
  induction v using children_induction generalizing w with
  | h v ih =>
    obtain ⟨hkeys, hinner⟩ := keysOutside_iff.mp hv
    obtain ⟨hkeys', hinner'⟩ := keysOutside_iff.mp hw
    have hclosed : v.sortKeys = v → (∀ items, v ≠ arr items) → (∀ members, v ≠ obj members) →
        Reordered v w := by
      intro hself harr hobj
      rw [eq_of_sortKeys harr hobj (h.symm.trans hself)]
      exact .refl v
    cases v with
    | arr xs =>
      obtain ⟨ys, rfl, hmap⟩ := exists_arr_of_sortKeys (h.symm.trans (sortKeys_arr xs))
      refine .arr (forall₂_of_map_eq hmap.symm fun x hx y hy hxy => ?_)
      exact ih x hx hxy (hinner x hx) (hinner' y hy)
    | obj ms =>
      obtain ⟨ns, rfl, hrow⟩ := exists_obj_of_sortKeys (h.symm.trans (sortKeys_obj ms))
      have hperm := (sortByKey_perm (sortMembers ms)).symm
      rw [← hrow] at hperm
      have hnames := (hperm.trans (sortByKey_perm (sortMembers ns))).map Prod.fst
      rw [keys_sortMembers, keys_sortMembers] at hnames
      refine .obj hnames fun k x y hx hy => ?_
      have hxy := congrArg (List.lookup k) hrow
      rw [lookup_sorted hkeys', lookup_sorted hkeys, hx, hy] at hxy
      have hxm : x ∈ ms.map Prod.snd := List.mem_map_of_mem (mem_of_lookup hx)
      have hym : y ∈ ns.map Prod.snd := List.mem_map_of_mem (mem_of_lookup hy)
      exact ih x hxm (Option.some.inj hxy).symm (hinner x hxm) (hinner' y hym)
    | _ => exact hclosed rfl (fun _ => Value.noConfusion) fun _ => Value.noConfusion

theorem Ascending.keyed {v : Value} (h : v.Ascending) : v.Keyed :=
  fun w hw => (h w hw).imp fun hab => String.ne_of_lt hab

/-- sorting keys loses nothing and adds nothing, it is done after one time, and it gives the same
for two values exactly if they differ in nothing but the order of keys -/
theorem sortKeys_canonical :
    (∀ v : Value, v.Keyed →
        v.sortKeys.Ascending ∧ Reordered v.sortKeys v ∧ v.sortKeys.sortKeys = v.sortKeys)
      ∧ ∀ v w : Value, v.Keyed → w.Keyed → (v.sortKeys = w.sortKeys ↔ Reordered v w) := by
  refine ⟨fun v hv => ?_, fun v w hv hw => ⟨fun h => reordered_of_sortKeys_eq h hv hw,
    fun h => h.sortKeys_eq hv hw⟩⟩
  have hasc := sortKeys_ascending hv
  have htwice := sortKeys_eq_self hasc
  exact ⟨hasc, reordered_of_sortKeys_eq htwice hasc.keyed hv, htwice⟩

/-- an object in a list in an object, and one in a tuple -/
def jumbled : Value :=
  .obj [("b", .arr [.obj [("y", .null), ("x", .int 1)]]),
    ("a", .tuple [.obj [("y", .null), ("x", .int 1)]])]

/-- the same with the keys in another order, outside the tuple -/
def shuffled : Value :=
  .obj [("a", .tuple [.obj [("y", .null), ("x", .int 1)]]),
    ("b", .arr [.obj [("x", .int 1), ("y", .null)]])]

/-- the same with the keys in the tuple in another order -/
def tampered : Value :=
  .obj [("a", .tuple [.obj [("x", .int 1), ("y", .null)]]),
    ("b", .arr [.obj [("x", .int 1), ("y", .null)]])]

theorem sortKeys_canonical_jumbled :
    jumbled.sortKeys.Ascending ∧ Reordered jumbled.sortKeys jumbled
      ∧ jumbled.sortKeys.sortKeys = jumbled.sortKeys
      ∧ Reordered jumbled shuffled ∧ ¬ Reordered jumbled tampered := by
  have hj : jumbled.Keyed := by decide
  have hs : shuffled.Keyed := by decide
  have hi : tampered.Keyed := by decide
  obtain ⟨hone, htwo⟩ := sortKeys_canonical
  obtain ⟨hasc, hsame, htwice⟩ := hone jumbled hj
  refine ⟨hasc, hsame, htwice, (htwo jumbled shuffled hj hs).mp rfl, fun h => ?_⟩
  have hkeys := congrArg (fun v => v.parts.flatMap fun p => p.2.keys)
    ((htwo jumbled tampered hj hi).mpr h)
  exact absurd hkeys (by decide)

end Value
end JsonShape
