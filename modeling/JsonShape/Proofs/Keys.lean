import Mathlib.Data.List.Nodup
import JsonShape.Tree.Observe
import JsonShape.Value.Sorted

/-!
# Rows by key

A row of pairs without a repeated key is a map: what is found under a key is what stands beside it.
Sorting by key makes rows with the same pairs equal.

* `lookup_iff_mem`        in such a row finding is membership;
* `eq_sortByKey`          an ascending row is what its pairs are sorted to;
* `sortByKey_eq`          rows that are permutations of each other are sorted to the same row;
* `eraseDups_append_eq`   keys listed once each, in the order of their first occurrence, go on with
                          those that are new;
* `lookup_setProperty`    a changed row differs at the changed key only;
* `keys_setProperty`      a new key goes last.
-/

namespace JsonShape

section
variable {α : Type}

theorem mem_of_lookup {l : List (String × α)} {k : String} {a : α} (h : l.lookup k = some a) :
    (k, a) ∈ l := by
  obtain ⟨l₁, l₂, hl, _⟩ := List.lookup_eq_some_iff.mp h
  rw [hl]
  exact List.mem_append_right _ List.mem_cons_self

theorem mem_keys_of_mem {l : List (String × α)} {k : String} {a : α} (h : (k, a) ∈ l) :
    k ∈ l.map Prod.fst := List.mem_map_of_mem h

theorem lookup_eq_none {l : List (String × α)} {k : String} :
    l.lookup k = none ↔ k ∉ l.map Prod.fst := by
  rw [List.lookup_eq_none_iff, List.mem_map]
  simp only [bne_iff_ne, not_exists, not_and, ne_comm (a := k)]

theorem lookup_iff_mem {l : List (String × α)} (hl : (l.map Prod.fst).Nodup) {k : String} {a : α} :
    l.lookup k = some a ↔ (k, a) ∈ l := by
  constructor
  · exact mem_of_lookup
  · intro h
    induction l with
    | nil => cases h
    | cons p r ih =>
      obtain ⟨hp, hr⟩ := List.nodup_cons.mp hl
      rw [List.lookup_cons]
      rcases List.mem_cons.mp h with rfl | hm
      · rw [beq_self_eq_true]
      · have hne : k ≠ p.1 := by
          intro he
          apply hp
          rw [← he]
          exact mem_keys_of_mem hm
        rw [beq_eq_false_iff_ne.mpr hne]
        exact ih hr hm

theorem lookup_map {β : Type} (f : α → β) (l : List (String × α)) (k : String) :
    (l.map fun p => (p.1, f p.2)).lookup k = (l.lookup k).map f := by
  induction l with
  | nil => rfl
  | cons p r ih =>
    rw [List.map_cons, List.lookup_cons, List.lookup_cons, ih]
    cases k == p.1 <;> rfl

theorem lookup_filter_keys (keep : String → Bool) (l : List (String × α)) (k : String) :
    (l.filter fun p => keep p.1).lookup k = if keep k then l.lookup k else none := by
  induction l with
  | nil => cases keep k <;> rfl
  | cons p r ih =>
    rw [List.filter_cons, List.lookup_cons]
    by_cases h : k = p.1
    · rw [← h, beq_self_eq_true]
      cases hk : keep k with
      | true => rw [if_pos rfl, List.lookup_cons, ← h, beq_self_eq_true, if_pos rfl]
      | false =>
        rw [hk] at ih
        simpa using ih
    · rw [beq_eq_false_iff_ne.mpr h]
      cases hp : keep p.1 with
      | true =>
        rw [if_pos rfl, List.lookup_cons, beq_eq_false_iff_ne.mpr h]
        exact ih
      | false => simpa using ih

theorem any_key (l : List (String × α)) (k : String) :
    (l.any fun q => q.1 == k) = (l.lookup k).isSome := by
  induction l with
  | nil => rfl
  | cons p r ih =>
    rw [List.any_cons, List.lookup_cons, ih, BEq.comm]
    cases k == p.1 <;> rfl

/-- rows with the same keys, no key twice, are equal if the same is found under each -/
theorem eq_of_lookup {l m : List (String × α)} (hk : l.map Prod.fst = m.map Prod.fst)
    (hl : (l.map Prod.fst).Nodup) (h : ∀ k, l.lookup k = m.lookup k) : l = m := by
  induction l generalizing m with
  | nil => exact (List.map_eq_nil_iff.mp hk.symm).symm
  | cons p r ih =>
    cases m with
    | nil => cases hk
    | cons q s =>
      obtain ⟨hp, hr⟩ := List.nodup_cons.mp hl
      obtain ⟨hpq, hrs⟩ := List.cons.inj hk
      have hp' : r.lookup p.1 = none := lookup_eq_none.mpr hp
      have hq' : s.lookup p.1 = none := by
        rw [lookup_eq_none, ← hrs]
        exact hp
      have hrest : ∀ k, r.lookup k = s.lookup k := by
        intro k
        by_cases hkp : k = p.1
        · rw [hkp, hp', hq']
        · have hkk := h k
          rw [List.lookup_cons, List.lookup_cons, ← hpq, beq_eq_false_iff_ne.mpr hkp] at hkk
          exact hkk
      have hvalue := h p.1
      rw [List.lookup_cons, List.lookup_cons, ← hpq, beq_self_eq_true] at hvalue
      rw [ih hrs hr hrest, Prod.ext hpq (Option.some.inj hvalue)]

/-! ### sorting -/

theorem sortByKey_keys_nodup {l : List (String × α)} (hl : (l.map Prod.fst).Nodup) :
    ((sortByKey l).map Prod.fst).Nodup :=
  ((sortByKey_perm l).map Prod.fst).nodup_iff.mpr hl

/-- with no key twice, an ascending row is what its pairs are sorted to -/
theorem eq_sortByKey {l m : List (String × α)} (hl : (l.map Prod.fst).Nodup)
    (hs : l.Pairwise fun a b => a.1 ≤ b.1) (h : l.Perm m) : l = sortByKey m := by
  have hp : l.Perm (sortByKey m) := h.trans (sortByKey_perm m).symm
  refine List.Perm.eq_of_pairwise ?_ hs (sortByKey_pairwise m) hp
  intro p q hpl hqm hpq hqp
  have hk : p.1 = q.1 := String.le_antisymm hpq hqp
  have hq : (q.1, q.2) ∈ l := hp.mem_iff.mpr hqm
  have h1 := (lookup_iff_mem hl).mpr hpl
  have h2 := (lookup_iff_mem hl).mpr hq
  rw [hk, h2] at h1
  exact Prod.ext hk (Option.some.inj h1).symm

/-- with no key twice, sorted rows with the same pairs are equal -/
theorem sortByKey_eq {l m : List (String × α)} (hl : (l.map Prod.fst).Nodup) (h : l.Perm m) :
    sortByKey l = sortByKey m :=
  eq_sortByKey (sortByKey_keys_nodup hl) (sortByKey_pairwise l) ((sortByKey_perm l).trans h)

theorem lookup_sortByKey {l : List (String × α)} (hl : (l.map Prod.fst).Nodup) (k : String) :
    (sortByKey l).lookup k = l.lookup k := by
  apply Option.ext
  intro a
  rw [lookup_iff_mem (sortByKey_keys_nodup hl), lookup_iff_mem hl, (sortByKey_perm l).mem_iff]

/-- rows with the same keys, under each of which the same is made of what is found there, are sorted
to the same row -/
theorem sortByKey_map_eq {β : Type} {f : α → β} {l m : List (String × α)}
    (hl : (l.map Prod.fst).Nodup) (hm : (m.map Prod.fst).Nodup)
    (h : ∀ k, (l.lookup k).map f = (m.lookup k).map f) :
    sortByKey (l.map fun p => (p.1, f p.2)) = sortByKey (m.map fun p => (p.1, f p.2)) := by
  have hnames : ∀ r : List (String × α),
      (r.map fun p => (p.1, f p.2)).map Prod.fst = r.map Prod.fst := by
    intro r
    rw [List.map_map]
    rfl
  have hl' : ((l.map fun p => (p.1, f p.2)).map Prod.fst).Nodup := by
    rw [hnames]
    exact hl
  have hm' : ((m.map fun p => (p.1, f p.2)).map Prod.fst).Nodup := by
    rw [hnames]
    exact hm
  refine sortByKey_eq hl' ?_
  refine (List.perm_ext_iff_of_nodup (.of_map Prod.fst hl') (.of_map Prod.fst hm')).mpr ?_
  intro p
  rw [← lookup_iff_mem hl', ← lookup_iff_mem hm', lookup_map, lookup_map, h]

/-- what is made of each pair of a row, its key staying as it is, may be made of the sorted row -/
theorem map_sortByKey {β : Type} (f : String → α → β) (l : List (String × α)) :
    (sortByKey l).map (fun p => (p.1, f p.1 p.2))
      = sortByKey (l.map fun p => (p.1, f p.1 p.2)) := by
  have hinsert : ∀ (p : String × α) (l : List (String × α)),
      (insertByKey p l).map (fun p => (p.1, f p.1 p.2))
        = insertByKey (p.1, f p.1 p.2) (l.map fun p => (p.1, f p.1 p.2)) := by
    intro p l
    induction l with
    | nil => rfl
    | cons q r ih =>
      rw [List.map_cons, insertByKey, insertByKey]
      by_cases h : q.1 < p.1
      · rw [if_pos h, if_pos h, List.map_cons, ih]
      · rw [if_neg h, if_neg h, List.map_cons, List.map_cons]
  induction l with
  | nil => rfl
  | cons p r ih => rw [sortByKey, hinsert, ih, List.map_cons, sortByKey]

/-- what is left of a sorted row is the sorted row of what is left -/
theorem filter_sortByKey {l : List (String × α)} (hl : (l.map Prod.fst).Nodup)
    (keep : String × α → Bool) : (sortByKey l).filter keep = sortByKey (l.filter keep) := by
  refine eq_sortByKey ?_ ((sortByKey_pairwise l).filter keep) ((sortByKey_perm l).filter keep)
  exact (sortByKey_keys_nodup hl).sublist (List.filter_sublist.map Prod.fst)

end

/-! ### first occurrences -/

section
variable {α : Type} [DecidableEq α]

theorem nodup_eraseDups (l : List α) : l.eraseDups.Nodup := by
  match l with
  | [] => exact List.nodup_nil
  | a :: r =>
    rw [List.eraseDups_cons]
    refine List.nodup_cons.mpr ⟨fun h => ?_, nodup_eraseDups _⟩
    obtain ⟨_, hne⟩ := List.mem_filter.mp (List.mem_eraseDups.mp h)
    rw [beq_self_eq_true] at hne
    exact Bool.false_ne_true hne
termination_by l.length
decreasing_by exact Nat.lt_succ_of_le (List.length_filter_le _ _)

theorem eraseDups_filter (keep : α → Bool) (l : List α) :
    (l.filter keep).eraseDups = l.eraseDups.filter keep := by
  match l with
  | [] => rfl
  | a :: r =>
    have ih := eraseDups_filter keep (r.filter fun b => !b == a)
    rw [List.eraseDups_cons, List.filter_cons, List.filter_cons, ← ih]
    cases h : keep a with
    | true =>
      rw [if_pos rfl, if_pos rfl, List.eraseDups_cons, List.filter_filter, List.filter_filter]
      simp only [Bool.and_comm]
    | false =>
      -- what is kept is not `a`, so nothing is lost by leaving out `a` first
      rw [if_neg Bool.false_ne_true, if_neg Bool.false_ne_true, List.filter_filter]
      congr 1
      apply List.filter_congr
      intro b _
      by_cases hb : b = a
      · rw [hb, h, Bool.false_and]
      · rw [beq_eq_false_iff_ne.mpr hb]
        exact (Bool.and_true _).symm
termination_by l.length
decreasing_by exact Nat.lt_succ_of_le (List.length_filter_le _ _)

/-- of further entries the new ones are added -/
theorem eraseDups_append_eq (l m : List α) :
    (l ++ m).eraseDups = l.eraseDups ++ m.eraseDups.filter (· ∉ l.eraseDups) := by
  have hnew : (fun a => !l.elem a) = fun a => decide (a ∉ l.eraseDups) := by
    funext a
    rw [Bool.eq_iff_iff, decide_eq_true_iff, List.mem_eraseDups]
    simp
  rw [List.eraseDups_append, List.removeAll, eraseDups_filter, hnew]

theorem eraseDups_concat (l : List α) (a : α) : (l ++ [a]).eraseDups
    = if a ∈ l.eraseDups then l.eraseDups else l.eraseDups ++ [a] := by
  have hone : [a].eraseDups = [a] := List.eraseDups_cons
  rw [eraseDups_append_eq, hone, List.filter_cons, List.filter_nil]
  by_cases h : a ∈ l.eraseDups
  · rw [if_pos h, decide_eq_false (not_not_intro h)]
    exact List.append_nil _
  · rw [if_neg h, decide_eq_true h]
    rfl

end

/-! ### changing a row -/

namespace Tree

theorem lookup_setProperty (key k : String) (t : Tree) (l : List (String × Tree)) :
    (setProperty key t l).lookup k = if k = key then some t else l.lookup k := by
  induction l with
  | nil =>
    rw [setProperty, List.lookup_cons]
    by_cases h : k = key
    · rw [if_pos h, h, beq_self_eq_true]
    · rw [if_neg h, beq_eq_false_iff_ne.mpr h]
  | cons p r ih =>
    by_cases hp : p.1 = key
    · rw [setProperty, if_pos hp, List.lookup_cons, List.lookup_cons, hp]
      by_cases h : k = key
      · rw [if_pos h, h, beq_self_eq_true]
      · rw [if_neg h, beq_eq_false_iff_ne.mpr h]
    · rw [setProperty, if_neg hp, List.lookup_cons, List.lookup_cons, ih]
      by_cases h : k = key
      · have hne : (k == p.1) = false := by
          rw [h]
          exact beq_eq_false_iff_ne.mpr (Ne.symm hp)
        simp only [if_pos h, hne]
      · simp only [if_neg h]

/-- a new key goes last -/
theorem keys_setProperty (key : String) (t : Tree) (l : List (String × Tree)) :
    (setProperty key t l).map Prod.fst
      = if key ∈ l.map Prod.fst then l.map Prod.fst else l.map Prod.fst ++ [key] := by
  induction l with
  | nil => rfl
  | cons p r ih =>
    by_cases hp : p.1 = key
    · rw [setProperty, if_pos hp, List.map_cons, List.map_cons, hp, if_pos List.mem_cons_self]
    · rw [setProperty, if_neg hp, List.map_cons, ih, List.map_cons]
      by_cases hr : key ∈ r.map Prod.fst
      · rw [if_pos hr, if_pos (List.mem_cons_of_mem _ hr)]
      · have hne : key ∉ p.1 :: r.map Prod.fst := by
          rw [List.mem_cons, not_or]
          exact ⟨Ne.symm hp, hr⟩
        rw [if_neg hr, if_neg hne, List.cons_append]

theorem nodup_setProperty (key : String) (t : Tree) {l : List (String × Tree)}
    (hl : (l.map Prod.fst).Nodup) : ((setProperty key t l).map Prod.fst).Nodup := by
  rw [keys_setProperty]
  split
  · exact hl
  · rename_i hkey
    have hone : [key].Nodup := List.pairwise_singleton _ key
    refine List.nodup_append.mpr ⟨hl, hone, fun k hk a ha he => hkey ?_⟩
    rwa [← List.mem_singleton.mp ha, ← he]

end Tree
end JsonShape
