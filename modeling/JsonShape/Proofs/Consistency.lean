import JsonShape.Proofs.Building
import JsonShape.Proofs.Contents
import JsonShape.Proofs.Keywords

/-!
# Evidence agrees with itself

The fields of the evidence at one position are kept up apart from each other, and so are the trees
below it; yet they tell one story.  The types seen decide which bounds are there, whether there are
formats, which kinds of scalars are counted, and whether there may be trees below.  The bounds of
the numbers are the least and the greatest of those that are counted, unless there were too many.

It is not the steps that are followed to see this.  A tree that was built reflects some values, its
evidence is theirs, and the fields agree because each of them speaks of the same values.

* `Bounds.Spans.setIf`            bounds that span a list are there exactly if it has members;
* `Evidence.gather_consistent`    the evidence of a list of values agrees with itself;
* `Tree.Reflects.consistent`      so does the tree of the values with those below it;
* `Tree.Built.everywhere_consistent`  and every tree that can be built, at all positions.
-/

namespace JsonShape
open Std

/-! ### what the fields say -/

/-- both bounds are there exactly if `p` is so; the least is then not above the greatest -/
structure Bounds.SetIf {α : Type} [LT α] (b : Bounds α) (p : Prop) : Prop where
  least : b.least.isSome = true ↔ p
  greatest : b.greatest.isSome = true ↔ p
  ordered : ∀ l ∈ b.least, ∀ g ∈ b.greatest, ¬ g < l

/-- the name under which scalars of a type are counted as candidates, if they are -/
def Tag.counted? (tag : Tag) : Option String :=
  if tag = .boolean then some "boolean"
  else if tag = .integer ∨ tag = .number then some "number"
  else if tag = .string then some "string"
  else none

/-- the kinds of the candidates -/
def Distinct.kinds (d : Distinct) : List String := d.values.toList.map Candidate.kind

/-- the number that a candidate is; a truth value is none -/
def Candidate.number? (c : Candidate) : Option Number := c.value.toValue.number?

/-- the numbers among the candidates -/
def Distinct.numbers (d : Distinct) : List Number := d.values.toList.filterMap Candidate.number?

/-- neither a nan, nor a whole number that is written as a double -/
structure Number.Settled (n : Number) : Prop where
  number : n.isNan = false
  whole : n.isWhole = true → ∃ i, n = .int i

/-- the fields of the evidence agree with each other, and with the caps -/
structure Evidence.Consistent (caps : Caps) (e : Evidence) : Prop where
  integerOnly : e.integerOnly = false ↔ .number ∈ e.types.toList
  numbers : e.numbers.SetIf (.integer ∈ e.types.toList ∨ .number ∈ e.types.toList)
  settled : e.numbers.All Number.Settled
  lengths : e.lengths.SetIf (.string ∈ e.types.toList)
  formats : e.formats.toList ≠ [] ↔ .string ∈ e.types.toList
  sizes : e.sizes.SetIf (.array ∈ e.types.toList)
  itemCount : ∀ g ∈ e.sizes.greatest, g ≤ e.itemCount
  within : e.Within caps
  kinds : e.distinct.overflow = false → ∀ kind,
    kind ∈ e.distinct.kinds ↔ ∃ tag ∈ e.types.toList, tag.counted? = some kind
  spans : e.distinct.overflow = false → e.numbers.Spans e.distinct.numbers

/-- the evidence agrees with itself and with the trees one step down, in which something was seen -/
structure Tree.Consistent (caps : Caps) (t : Tree) : Prop where
  here : t.here.Consistent caps
  items : t.items.isSome = true ↔ 0 < t.here.itemCount
  properties : t.properties ≠ [] → .object ∈ t.here.types.toList
  typedProperties : ∀ p ∈ t.properties, p.2.here.types.toList ≠ []
  typedItems : ∀ u ∈ t.items, u.here.types.toList ≠ []

/-! ### bounds -/

section
variable {α : Type} {R : α → α → Prop} {x : Option α} {l m : List α}

theorem IsForemost.isSome (h : IsForemost R l x) : x.isSome = true ↔ l ≠ [] := by
  cases x with
  | none =>
    have hnil : l = [] := h
    simp [hnil]
  | some a => exact ⟨fun _ => List.ne_nil_of_mem h.1, fun _ => rfl⟩

theorem IsForemost.congr (h : IsForemost R l x) (hlm : ∀ a, a ∈ l ↔ a ∈ m) :
    IsForemost R m x := by
  cases x with
  | none =>
    have hnil : l = [] := h
    apply List.eq_nil_iff_forall_not_mem.mpr
    intro a ha
    rw [← hlm, hnil] at ha
    cases ha
  | some a => exact ⟨(hlm a).mp h.1, fun c hc => h.2 c ((hlm c).mpr hc)⟩

end

namespace Bounds.Spans
variable {α : Type} [LT α] {b : Bounds α} {l m : List α}

/-- bounds that span a list are there exactly if it has members -/
theorem setIf (h : b.Spans l) {p : Prop} (hp : l ≠ [] ↔ p) : b.SetIf p where
  least := h.least.isSome.trans hp
  greatest := h.greatest.isSome.trans hp
  ordered x hx g hg := by
    have hl := h.least
    have hm := h.greatest
    rw [Option.mem_def.mp hx] at hl
    rw [Option.mem_def.mp hg] at hm
    exact hl.2 g hm.1

theorem all (h : b.Spans l) {P : α → Prop} (hl : ∀ a ∈ l, P a) : b.All P := by
  constructor
  · intro a ha
    have hf := h.least
    rw [Option.mem_def.mp ha] at hf
    exact hl a hf.1
  · intro a ha
    have hf := h.greatest
    rw [Option.mem_def.mp ha] at hf
    exact hl a hf.1

/-- which members a list has decides what spans it -/
theorem congr (h : b.Spans l) (hlm : ∀ a, a ∈ l ↔ a ∈ m) : b.Spans m :=
  ⟨h.least.congr hlm, h.greatest.congr hlm⟩

end Bounds.Spans

/-! ### facets of values -/

namespace Value

/-- a scalar is counted under the name that goes with its tag -/
theorem kind_candidate? (v : Value) :
    v.candidate?.map Candidate.kind = v.tag?.bind Tag.counted? := by
  cases v with
  | num n => cases h : n.isWhole <;> simp only [tag?, h] <;> rfl
  | _ => rfl

/-- a number is counted in normal form, and nothing else as a number -/
theorem number?_candidate? (v : Value) :
    v.candidate?.bind Candidate.number? = v.normal? := by
  cases v <;> rfl

end Value

theorem Number.settled_normal {n : Number} (h : n.isNan = false) : n.normal.Settled where
  number := by
    rw [isNan_normal]
    exact h
  whole hw := by
    cases n with
    | int i => exact ⟨i, rfl⟩
    | float f =>
      cases hf : f.isWhole with
      | true => exact ⟨f.floor, by rw [normal, hf, if_pos rfl]⟩
      | false =>
        have hfloat : (Number.float f).isWhole = false := hf
        rw [normal_of_isWhole_eq_false hfloat, hfloat] at hw
        cases hw
    | inf _ => cases hw
    | nan _ => cases hw

theorem OrdSet.toList_ofList_ne_nil {α : Type} [Ord α] [TransOrd α] [LawfulEqOrd α] {l : List α} :
    (ofList l).toList ≠ [] ↔ l ≠ [] := by
  constructor
  · intro h
    obtain ⟨a, ha⟩ := List.exists_mem_of_ne_nil _ h
    exact List.ne_nil_of_mem (mem_ofList.mp ha)
  · intro h
    obtain ⟨a, ha⟩ := List.exists_mem_of_ne_nil _ h
    exact List.ne_nil_of_mem (mem_ofList.mpr ha)

section
variable {values : List Value}

theorem length_follow_le {s : Step} {v : Value} (hv : v ∈ values) :
    (v.follow s).length ≤ (valuesBelow s values).length := by
  obtain ⟨before, after, rfl⟩ := List.append_of_mem hv
  rw [valuesBelow, List.flatMap_append, List.flatMap_cons, List.length_append, List.length_append]
  omega

end

/-! ### evidence -/

namespace Evidence
variable {caps : Caps} {values : List Value}

/-- where no candidate was dropped, all those of the values are there -/
theorem mem_distinct {e : Evidence} (h : e.Contents caps values)
    (ho : e.distinct.overflow = false) {c : Candidate} :
    c ∈ e.distinct.values.toList ↔ ∃ v ∈ values, v.candidate? = some c := by
  rw [h.distinct.values, List.mem_filterMap]
  exact and_iff_right ho

theorem mem_kinds {e : Evidence} (h : e.Contents caps values) (ho : e.distinct.overflow = false)
    (kind : String) :
    kind ∈ e.distinct.kinds ↔ ∃ tag ∈ e.types.toList, tag.counted? = some kind := by
  have hkind : ∀ v : Value, (∃ c, v.candidate? = some c ∧ c.kind = kind)
      ↔ ∃ tag, v.tag? = some tag ∧ tag.counted? = some kind := by
    intro v
    rw [← Option.map_eq_some_iff, v.kind_candidate?, Option.bind_eq_some_iff]
  rw [Distinct.kinds, List.mem_map]
  constructor
  · intro hc
    obtain ⟨c, hc, hk⟩ := hc
    obtain ⟨v, hv, hvc⟩ := (mem_distinct h ho).mp hc
    obtain ⟨tag, ht, htk⟩ := (hkind v).mp ⟨c, hvc, hk⟩
    exact ⟨tag, (h.types tag).mpr ⟨v, hv, ht⟩, htk⟩
  · intro ht
    obtain ⟨tag, ht, htk⟩ := ht
    obtain ⟨v, hv, hvt⟩ := (h.types tag).mp ht
    obtain ⟨c, hvc, hk⟩ := (hkind v).mpr ⟨tag, hvt, htk⟩
    exact ⟨c, (mem_distinct h ho).mpr ⟨v, hv, hvc⟩, hk⟩

theorem mem_numbers {e : Evidence} (h : e.Contents caps values) (ho : e.distinct.overflow = false)
    (n : Number) : n ∈ values.filterMap Value.normal? ↔ n ∈ e.distinct.numbers := by
  rw [Distinct.numbers, List.mem_filterMap, List.mem_filterMap]
  constructor
  · intro hv
    obtain ⟨v, hv, hn⟩ := hv
    rw [← v.number?_candidate?] at hn
    obtain ⟨c, hc, hcn⟩ := Option.bind_eq_some_iff.mp hn
    exact ⟨c, (mem_distinct h ho).mpr ⟨v, hv, hc⟩, hcn⟩
  · intro hc
    obtain ⟨c, hc, hcn⟩ := hc
    obtain ⟨v, hv, hvc⟩ := (mem_distinct h ho).mp hc
    refine ⟨v, hv, ?_⟩
    rw [← v.number?_candidate?]
    exact Option.bind_eq_some_iff.mpr ⟨c, hvc, hcn⟩

/-- the numbers of regular values, in normal form, are settled -/
theorem settled_normal? (hr : ∀ v ∈ values, v.Regular) :
    ∀ n ∈ values.filterMap Value.normal?, n.Settled := by
  intro n hn
  obtain ⟨v, hv, hvn⟩ := List.mem_filterMap.mp hn
  cases v with
  | num m =>
    cases hvn
    exact Number.settled_normal (hr _ hv).not_nan
  | _ => cases hvn

/-- the largest array has no more elements than all of them together -/
theorem size_le_itemCount {e : Evidence} (h : e.Contents caps values) :
    ∀ g ∈ e.sizes.greatest, g ≤ e.itemCount := by
  intro g hg
  have hspan := h.sizes.greatest
  rw [Option.mem_def.mp hg] at hspan
  obtain ⟨v, hv, hsize⟩ := List.mem_filterMap.mp hspan.1
  have hle := length_follow_le (s := .element) hv
  rw [h.itemCount, ← Value.length_of_size? hsize]
  omega

theorem Consistent.withPresence {e : Evidence} (h : e.Consistent caps) (n : Int) :
    (e.withPresence n).Consistent caps :=
  ⟨h.integerOnly, h.numbers, h.settled, h.lengths, h.formats, h.sizes, h.itemCount,
    ⟨h.within.distinct, h.within.examples⟩, h.kinds, h.spans⟩

/-- a facet is found among values exactly if the tag that it goes with is seen -/
theorem filterMap_ne_nil_iff {β : Type} {facet : Value → Option β} {tag : Tag}
    (hf : ∀ v : Value, (∃ x, facet v = some x) ↔ v.tag? = some tag) :
    values.filterMap facet ≠ [] ↔ tag ∈ (gather caps values).types.toList := by
  rw [mem_types]
  constructor
  · intro hne
    obtain ⟨x, hx⟩ := List.exists_mem_of_ne_nil _ hne
    obtain ⟨v, hv, hvx⟩ := List.mem_filterMap.mp hx
    exact ⟨v, hv, (hf v).mp ⟨x, hvx⟩⟩
  · intro h
    exact filterMap_ne_nil h fun _ ht => (hf _).mpr ht

/-- numbers go with two tags -/
theorem normal?_ne_nil_iff : values.filterMap Value.normal? ≠ []
    ↔ .integer ∈ (gather caps values).types.toList
      ∨ .number ∈ (gather caps values).types.toList := by
  rw [mem_types, mem_types]
  constructor
  · intro hne
    obtain ⟨n, hn⟩ := List.exists_mem_of_ne_nil _ hne
    obtain ⟨v, hv, hvn⟩ := List.mem_filterMap.mp hn
    obtain ⟨m, hm, _⟩ := Option.map_eq_some_iff.mp hvn
    exact (Value.exists_number.mp ⟨m, hm⟩).imp (fun ht => ⟨v, hv, ht⟩) fun ht => ⟨v, hv, ht⟩
  · exact numbers_ne_nil

/-- the evidence of a list of values agrees with itself -/
theorem gather_consistent (hd : 0 ≤ caps.distinct) (he : 0 ≤ caps.examples)
    (hr : ∀ v ∈ values, v.Regular) : (gather caps values).Consistent caps where
  integerOnly := by
    rw [mem_types, ← Bool.not_eq_true, integerOnly_iff, Classical.not_not]
  numbers := (gather_contents hd he hr).numbers.setIf normal?_ne_nil_iff
  settled := (gather_contents hd he hr).numbers.all (settled_normal? hr)
  lengths := (gather_contents hd he hr).lengths.setIf
    (filterMap_ne_nil_iff fun _ => Value.exists_length)
  formats := by
    rw [← filterMap_ne_nil_iff fun _ => Value.exists_outcome, gather_formats,
      OrdSet.toList_ofList_ne_nil]
  sizes := (gather_contents hd he hr).sizes.setIf (filterMap_ne_nil_iff fun _ => Value.exists_size)
  itemCount := size_le_itemCount (gather_contents hd he hr)
  within := by
    constructor
    · rw [gather_distinct hd]
      exact Distinct.Within.capped hd _
    · rw [gather_examples he, List.length_take]
      omega
  kinds := mem_kinds (gather_contents hd he hr)
  spans ho := (gather_contents hd he hr).numbers.congr (mem_numbers (gather_contents hd he hr) ho)

end Evidence

/-! ### trees -/

namespace Tree
variable {caps : Caps}

/-- below some value there is something under a key only if an object was seen -/
theorem Reflects.object_seen {A : Account} {values : List Value} {t : Tree}
    (h : t.Reflects A values) (hne : t.properties ≠ []) : .object ∈ t.here.types.toList := by
  obtain ⟨p, hp⟩ := List.exists_mem_of_ne_nil _ hne
  obtain ⟨w, hw⟩ := List.exists_mem_of_ne_nil _ (h.property hp).1
  obtain ⟨v, hv, hvw⟩ := mem_valuesBelow.mp hw
  rw [h.outlines.types, OrdSet.mem_ofList, List.mem_filterMap]
  exact ⟨v, hv, Value.tag?_of_mem_follow hvw⟩

/-- where there are regular values, there are types -/
theorem Reflects.types_ne_nil {A : Account} {values : List Value} {t : Tree}
    (h : t.Reflects A values) (hne : values ≠ []) (hr : ∀ v ∈ values, v.Regular) :
    t.here.types.toList ≠ [] := by
  obtain ⟨v, hv⟩ := List.exists_mem_of_ne_nil _ hne
  obtain ⟨tag, ht⟩ := (hr v hv).exists_tag
  rw [h.outlines.types]
  exact List.ne_nil_of_mem (OrdSet.mem_ofList.mpr (List.mem_filterMap.mpr ⟨v, hv, ht⟩))

/-- there is a tree for elements exactly if there are elements -/
theorem Reflects.items_isSome {A : Account} {values : List Value} {t : Tree}
    (h : t.Reflects A values) : t.items.isSome = true ↔ 0 < t.here.itemCount := by
  have hin := h.inner .element
  rw [h.outlines.itemCount]
  cases hi : t.items with
  | none =>
    rw [step?, hi] at hin
    have hnil : valuesBelow .element values = [] := hin
    simp [hnil]
  | some u =>
    rw [step?, hi] at hin
    have hpos := List.length_pos_iff.mpr hin.1
    refine ⟨fun _ => ?_, fun _ => rfl⟩
    omega

/-- a tree that records regular values agrees with itself -/
theorem Reflects.consistent (hd : 0 ≤ caps.distinct) (he : 0 ≤ caps.examples)
    {values : List Value} {t : Tree} (hr : ∀ v ∈ values, v.Regular)
    (h : t.Reflects (.gathered caps) values) : t.Consistent caps where
  here := by
    rw [Records.here h]
    exact (Evidence.gather_consistent hd he hr).withPresence _
  items := h.items_isSome
  properties := h.object_seen
  typedProperties p hp := by
    obtain ⟨hne, _, hbelow⟩ := h.property hp
    exact hbelow.types_ne_nil hne (regular_valuesBelow hr)
  typedItems u hu := by
    obtain ⟨hne, _, hbelow⟩ := h.element hu
    exact hbelow.types_ne_nil hne (regular_valuesBelow hr)

/-- a tree built from values without nans under one pair of caps agrees with itself everywhere -/
theorem Built.everywhere_consistent {caps : Caps} (hd : 0 ≤ caps.distinct)
    (he : 0 ≤ caps.examples) {n : Nat} {t : Tree} (h : Built (· = caps) Value.Regular n t) :
    t.Everywhere (Consistent caps) := by
  have hA : ∀ c, c = caps → (Account.gathered caps).Kept c Value.Regular := by
    rintro c rfl
    exact Account.gathered_kept hd he
  obtain ⟨values, _, hr, ht, _⟩ := h.reflects hA ⟨caps, rfl⟩
  exact ht.everywhere Value.Regular.follow (fun _ _ => Reflects.consistent hd he) hr

theorem Built.everywhere_consistent_stitched : Built (· = ⟨2, 1⟩) Value.Regular 3 Tree.stitched
    ∧ Tree.stitched.Everywhere (Consistent ⟨2, 1⟩) :=
  ⟨Built.stitched, Built.everywhere_consistent (by decide) (by decide) Built.stitched⟩

end Tree
end JsonShape
