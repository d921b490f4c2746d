import JsonShape.Proofs.Consistency

/-!
# Counts and instances

The instances of a position are the values that were seen there.  At the root they are the values
that were observed; under a key they are as many as its presence says, and in arrays as many as the
arrays have elements in all.

No count exceeds its instances.  A key is present at most once in each value, and in all of them
only if they are all objects; arrays have no more elements than the largest of them, each.  The
counts are of three levels: that of a key is kept by its own tree, that of the elements by the tree
above, and that of the samples by none.  They fit because all of them count the values of one list.

Nothing is asked of the caps, and there may be nans among the values.

* `Account.sized_kept`       the sizes of arrays are kept whatever the caps;
* `Tree.Reflects.counts`     counts at one position, for as many instances as there are values;
* `Tree.Built.counts_fit`    counts at every position of a tree that was built.
-/

namespace JsonShape

section
variable {values : List Value}

/-- what lies below values that have at most so many parts there each -/
theorem length_valuesBelow_le_mul {s : Step} {m : Int}
    (h : ∀ v ∈ values, ((v.follow s).length : Int) ≤ m) :
    ((valuesBelow s values).length : Int) ≤ m * values.length := by
  induction values with
  | nil => simp [valuesBelow]
  | cons v r ih =>
    obtain ⟨hv, hr⟩ := List.forall_mem_cons.mp h
    have hrest := ih hr
    have hmul : m * ((r.length + 1 : Nat) : Int) = m * r.length + m := by
      rw [Int.natCast_add, Int.mul_add]
      exact congrArg (m * (r.length : Int) + ·) (Int.mul_one m)
    rw [valuesBelow] at hrest
    rw [valuesBelow, List.flatMap_cons, List.length_append, List.length_cons, hmul]
    omega

/-- no value has more elements than the largest array -/
theorem length_elements_le {g : Option Int}
    (hg : IsForemost (fun x y => y < x) (values.filterMap Value.size?) g) :
    ∀ v ∈ values, ((v.follow .element).length : Int) ≤ g.getD 0 := by
  intro v hv
  cases hs : v.size? with
  | none =>
    have hnil : v.follow .element = [] := by
      cases v <;> first | rfl | cases hs
    rw [hnil]
    cases g with
    | none => exact Int.le_refl 0
    | some m =>
      obtain ⟨w, _, hw⟩ := List.mem_filterMap.mp hg.1
      show (0 : Int) ≤ m
      rw [← Value.length_of_size? hw]
      omega
  | some n =>
    have hn : n ∈ values.filterMap Value.size? := List.mem_filterMap.mpr ⟨v, hv, hs⟩
    rw [Value.length_of_size? hs]
    cases g with
    | none =>
      have hnil : values.filterMap Value.size? = [] := hg
      rw [hnil] at hn
      cases hn
    | some m => exact Int.not_lt.mp (hg.2 n hn)

end

namespace Account

/-- the evidence tells the outline of the values, and the bounds of the sizes of arrays -/
def sized : Account where
  Holds values e := e.Outlines values ∧ e.sizes = .ofList (values.filterMap Value.size?)
  outlines h := h.1

theorem sized_kept (caps : Caps) : sized.Kept caps Value.Json where
  json h := h
  follow := Value.Json.follow
  empty := ⟨(outline_kept caps).empty, rfl⟩
  present n h := ⟨(outline_kept caps).present n h.1, h.2⟩
  see {values e v} hv h := by
    refine ⟨(outline_kept caps).see hv h.1, ?_⟩
    rw [Evidence.see_sizes, h.2, List.filterMap_append, Bounds.ofList, Bounds.ofList,
      List.foldl_append]
    cases hs : v.size? <;> simp [hs]
  merge {vs ws a b} hv hw ha hb := by
    refine ⟨(outline_kept caps).merge hv hw ha.1 hb.1, ?_⟩
    show a.sizes.merge b.sizes = _
    rw [ha.2, hb.2, List.filterMap_append]
    exact (Bounds.ofList_append weakOn_int_lt (fun _ _ => trivial) fun _ _ => trivial).symm

end Account

namespace Tree

/-- the counts at a position fit as many instances: each key was present in some of them, and in all
only where all were objects; the elements are no more than the largest array has, for each instance;
elements are present under no key -/
structure Counts (n : Int) (t : Tree) : Prop where
  present : ∀ p ∈ t.properties, 1 ≤ p.2.here.presence ∧ p.2.here.presence ≤ n
  common : ∀ p ∈ t.properties, p.2.here.presence = n → t.here.types = .singleton .object
  elements : t.here.itemCount ≤ t.here.sizes.greatest.getD 0 * n
  unkeyed : ∀ u ∈ t.items, u.here.presence = 0

/-- the counts fit so many instances; below, where the counts say how many these are, they do too -/
inductive Counted : Int → Tree → Prop
  | intro {n : Int} {t : Tree} (here : Counts n t)
      (properties : ∀ p ∈ t.properties, Counted p.2.here.presence p.2)
      (items : ∀ u ∈ t.items, Counted t.here.itemCount u) : Counted n t

namespace Reflects
variable {values : List Value} {t : Tree}

/-- as often as a key was present, so many values are found under it -/
theorem presence_of_mem {A : Account} (h : Reflects A values t) {p : String × Tree}
    (hp : p ∈ t.properties) :
    p.2.here.presence = (valuesBelow (.key p.1) values).length := (h.property hp).2.1

/-- values that all hold a key are objects -/
theorem types_of_common_key {A : Account} (h : Reflects A values t) (hne : values ≠ [])
    {k : String} (hk : ∀ v ∈ values, v.follow (.key k) ≠ []) :
    t.here.types = .singleton .object := by
  have htag : ∀ v ∈ values, v.tag? = some .object := by
    intro v hv
    obtain ⟨w, hw⟩ := List.exists_mem_of_ne_nil _ (hk v hv)
    exact Value.tag?_of_mem_follow hw
  apply OrdSet.ext_of_mem
  intro tag
  rw [h.outlines.types, OrdSet.mem_ofList, List.mem_filterMap, OrdSet.toList_singleton,
    List.mem_singleton]
  constructor
  · intro hs
    obtain ⟨v, hv, ht⟩ := hs
    rw [htag v hv] at ht
    exact (Option.some.inj ht).symm
  · intro ht
    obtain ⟨v, hv⟩ := List.exists_mem_of_ne_nil _ hne
    exact ⟨v, hv, by rw [ht, htag v hv]⟩

/-- the counts of a tree fit the values that it reflects -/
theorem counts (h : Reflects .sized values t) : Counts values.length t where
  present p hp := by
    have hpos := List.length_pos_iff.mpr (h.property hp).1
    have hle := length_valuesBelow_le p.1 values
    rw [h.presence_of_mem hp]
    omega
  common p hp hall := by
    rw [h.presence_of_mem hp, Int.ofNat_inj, length_valuesBelow_eq] at hall
    obtain ⟨v, hv, _⟩ := valuesBelow_ne_nil.mp (h.property hp).1
    exact h.types_of_common_key (List.ne_nil_of_mem hv) hall
  elements := by
    have hspans : (Bounds.ofList (values.filterMap Value.size?)).Spans _ :=
      Bounds.ofList_spans weakOn_int_lt fun _ _ => trivial
    rw [h.outlines.itemCount, h.holds.2]
    exact length_valuesBelow_le_mul (length_elements_le hspans.greatest)
  unkeyed u hu := (h.element hu).2.1

/-- the counts fit the values, and below those found there -/
theorem counted (h : Reflects .sized values t) : Counted values.length t := by
  induction h with
  | @intro values t here keys absent present counted below ih =>
    have ht : Reflects .sized values t := .intro here keys absent present counted below
    refine .intro ht.counts (fun p hp => ?_) (fun u hu => ?_)
    · rw [ht.presence_of_mem hp]
      exact ih (.key p.1) p.2 (ht.step?_of_mem hp)
    · rw [ht.outlines.itemCount]
      exact ih .element u hu

end Reflects

/-- in a tree that was built, the counts at every position fit the instances; at the root these are
the values observed -/
theorem Built.counts_fit {n : Nat} {t : Tree} (h : Built (fun _ => True) Value.Json n t) :
    Counted n t := by
  obtain ⟨values, rfl, _, ht, _⟩ := h.reflects (fun caps _ => Account.sized_kept caps)
    ⟨Caps.default, trivial⟩
  exact ht.counted

theorem Built.counts_fit_stitched :
    Built (fun _ => True) Value.Json 3 Tree.stitched ∧ Counted 3 Tree.stitched := by
  have h : Built (fun _ => True) Value.Json 3 Tree.stitched :=
    Built.stitched.mono (fun _ _ => trivial) fun _ hv => hv.json
  exact ⟨h, h.counts_fit⟩

end Tree
end JsonShape
