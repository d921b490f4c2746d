import JsonShape.Proofs.Gather
import JsonShape.Schema.Render

/-!
# The type of a list of values

The type that stands for some tags admits exactly what one of the tags admits: leaving out the whole
numbers beside all numbers loses nothing.  The type written for a list of values is that of the tags
seen, whether or not all numbers were whole.

* `TypeKeyword.unify_admits`       a unified type admits what one of its tags does;
* `TypeKeyword.isEnumerable_unify` single types that are enumerated, by the tags seen;
* `TypeKeyword.unify_eq_unify`     a tag that is admitted already changes nothing;
* `Evidence.typeKeyword_gather`    the type of a list of values is that of its tags.
-/

namespace JsonShape
open Std

def Seen (values : List Value) (tag : Tag) : Prop := ∃ v ∈ values, v.tag? = some tag

theorem seen_append {vs ws : List Value} {tag : Tag} :
    Seen (vs ++ ws) tag ↔ Seen vs tag ∨ Seen ws tag := by
  simp only [Seen, List.mem_append, or_and_right, exists_or]

/-- a value that is admitted has a tag that was seen, unless it is a whole number -/
theorem Seen.of_admits {values : List Value} {v : Value}
    (h : ∃ tag, Seen values tag ∧ tag.admits v = true) {tag : Tag} (hv : v.tag? = some tag)
    (hne : tag ≠ .integer) : Seen values tag := by
  obtain ⟨seen, hs, ha⟩ := h
  rcases Tag.admits_iff.mp ha with h | ⟨_, h⟩
  · rw [hv] at h
    rw [Option.some.inj h]
    exact hs
  · rw [hv] at h
    exact absurd (Option.some.inj h) hne

/-- a whole number that is admitted stands beside whole numbers or others -/
theorem Seen.of_admits_integer {values : List Value} {v : Value}
    (h : ∃ tag, Seen values tag ∧ tag.admits v = true) (hv : v.tag? = some .integer) :
    Seen values .integer ∨ Seen values .number := by
  obtain ⟨seen, hs, ha⟩ := h
  rcases Tag.admits_iff.mp ha with h | ⟨h, _⟩
  · rw [hv] at h
    rw [← Option.some.inj h] at hs
    exact Or.inl hs
  · rw [h] at hs
    exact Or.inr hs

theorem Evidence.mem_types {caps : Caps} {values : List Value} {tag : Tag} :
    tag ∈ (gather caps values).types.toList ↔ Seen values tag := by
  rw [gather_types, OrdSet.mem_ofList, List.mem_filterMap]
  rfl

theorem Evidence.contains_types {caps : Caps} {values : List Value} {tag : Tag} :
    (gather caps values).types.contains tag = true ↔ Seen values tag := by
  rw [OrdSet.contains_iff_mem, mem_types]

namespace TypeKeyword
variable {seen : OrdSet Tag} {v : Value}

/-! ### the tags that are left -/

theorem mem_absorbed {tag : Tag} : tag ∈ absorbed seen
    ↔ tag ∈ seen.toList ∧ ¬ (tag = .integer ∧ Tag.number ∈ seen.toList) := by
  unfold absorbed
  cases h : seen.contains .number with
  | true =>
    have hnum : Tag.number ∈ seen.toList := OrdSet.contains_iff_mem.mp h
    rw [if_pos rfl, List.mem_filter, decide_eq_true_iff]
    simp only [hnum, and_true]
  | false =>
    have hnum : Tag.number ∉ seen.toList := by
      intro hmem
      rw [OrdSet.contains_iff_mem.mpr hmem] at h
      cases h
    rw [if_neg Bool.false_ne_true]
    simp only [hnum, and_false, not_false_iff, and_true]

theorem absorbed_ascending : (absorbed seen).Pairwise (fun a b => compare a b = .lt) := by
  unfold absorbed
  split
  · exact seen.ascending.filter _
  · exact seen.ascending

theorem absorbed_eq_singleton {tag : Tag} (h : ∀ a, a ∈ absorbed seen ↔ a = tag) :
    absorbed seen = [tag] := by
  refine eq_of_ascending absorbed_ascending (List.pairwise_singleton _ tag) fun a => ?_
  rw [h, List.mem_singleton]

def tags : TypeKeyword → List Tag
  | one tag => [tag]
  | union tags => tags

theorem tags_unify (h : absorbed seen ≠ []) : (unify seen).tags = absorbed seen := by
  unfold unify
  split
  · rename_i hnil
    exact absurd hnil h
  · rename_i hone
    rw [hone]
    rfl
  · rfl

theorem admits_iff {type : TypeKeyword} :
    type.admits v = true ↔ ∃ tag ∈ type.tags, tag.admits v = true := by
  cases type with
  | one tag => simp [admits, TypeKeyword.tags]
  | union tags => simp [admits, TypeKeyword.tags]

theorem absorbed_ne_nil (h : seen.toList ≠ []) : absorbed seen ≠ [] := by
  obtain ⟨tag, htag⟩ := List.exists_mem_of_ne_nil _ h
  by_cases hn : Tag.number ∈ seen.toList
  · have hmem : Tag.number ∈ absorbed seen := mem_absorbed.mpr ⟨hn, fun h => absurd h.1 (by decide)⟩
    exact List.ne_nil_of_mem hmem
  · exact List.ne_nil_of_mem (mem_absorbed.mpr ⟨htag, fun h => hn h.2⟩)

/-- a unified type admits what one of its tags does -/
theorem unify_admits (hne : seen.toList ≠ []) :
    (unify seen).admits v = true ↔ ∃ tag ∈ seen.toList, tag.admits v = true := by
  rw [admits_iff, tags_unify (absorbed_ne_nil hne)]
  constructor
  · intro h
    obtain ⟨tag, htag, hv⟩ := h
    exact ⟨tag, (mem_absorbed.mp htag).1, hv⟩
  · intro h
    obtain ⟨tag, htag, hv⟩ := h
    by_cases hn : tag = .integer ∧ Tag.number ∈ seen.toList
    · -- what the left-out tag admits, the tag of all numbers does
      refine ⟨.number, mem_absorbed.mpr ⟨hn.2, fun h => absurd h.1 (by decide)⟩, ?_⟩
      rw [Tag.admits_iff, hn.1] at hv
      rw [Tag.admits_iff]
      rcases hv with hv | ⟨he, _⟩
      · exact Or.inr ⟨rfl, hv⟩
      · exact absurd he (by decide)
    · exact ⟨tag, mem_absorbed.mpr ⟨htag, hn⟩, hv⟩

/-- two sets of tags that leave the same tags have one type -/
theorem unify_eq_unify {seen' : OrdSet Tag}
    (h : ∀ tag, tag ∈ absorbed seen ↔ tag ∈ absorbed seen') :
    unify seen = unify seen' := by
  have heq : absorbed seen = absorbed seen' :=
    eq_of_ascending absorbed_ascending absorbed_ascending h
  rw [unify, unify, heq]

/-! ### enumerated types -/

/-- whether values of the type may be enumerated -/
def isEnumerable : TypeKeyword → Bool
  | one tag => Evidence.enumerable.contains tag
  | union _ => false

theorem unify_eq_one {tag : Tag} (h : absorbed seen = [tag]) : unify seen = one tag := by
  rw [unify, h]

theorem isEnumerable_unify : (unify seen).isEnumerable = true
    ↔ seen.toList ≠ [] ∧ ((∀ tag ∈ seen.toList, tag = .string)
        ∨ ∀ tag ∈ seen.toList, tag = .integer ∨ tag = .number) := by
  constructor
  · intro h
    have hne : seen.toList ≠ [] := by
      intro hnil
      have hempty : seen = ∅ := OrdSet.ext hnil
      rw [hempty, unify_empty] at h
      exact absurd h (by decide)
    have htags := tags_unify (absorbed_ne_nil hne)
    refine ⟨hne, ?_⟩
    cases hu : unify seen with
    | union tags =>
      rw [hu] at h
      cases h
    | one tag =>
      rw [hu] at h htags
      have hone : ∀ a, a ∈ absorbed seen ↔ a = tag := by
        intro a
        rw [← htags]
        exact List.mem_singleton
      -- a tag that is left out stands beside that of all numbers, which then is the only one left
      have hall : ∀ a ∈ seen.toList, a = tag ∨ a = .integer ∧ tag = .number := by
        intro a ha
        by_cases hn : a = .integer ∧ Tag.number ∈ seen.toList
        · have hnum : Tag.number ∈ absorbed seen :=
            mem_absorbed.mpr ⟨hn.2, fun h => absurd h.1 (by decide)⟩
          exact Or.inr ⟨hn.1, ((hone _).mp hnum).symm⟩
        · exact Or.inl ((hone a).mp (mem_absorbed.mpr ⟨ha, hn⟩))
      have htag : tag = .string ∨ tag = .number ∨ tag = .integer := by
        simpa [isEnumerable, Evidence.enumerable] using h
      rcases htag with rfl | rfl | rfl
      · refine Or.inl fun a ha => ?_
        rcases hall a ha with h | ⟨_, h⟩
        · exact h
        · exact absurd h (by decide)
      · refine Or.inr fun a ha => ?_
        rcases hall a ha with h | ⟨h, _⟩
        · exact Or.inr h
        · exact Or.inl h
      · refine Or.inr fun a ha => ?_
        rcases hall a ha with h | ⟨_, h⟩
        · exact Or.inl h
        · exact absurd h (by decide)
  · intro h
    obtain ⟨hne, hall⟩ := h
    obtain ⟨tag, htag⟩ := List.exists_mem_of_ne_nil _ hne
    have hsingle : ∀ a : Tag, a ∈ absorbed seen → (∀ b ∈ absorbed seen, b = a) →
        Evidence.enumerable.contains a = true → (unify seen).isEnumerable = true := by
      intro a ha hb he
      rw [unify_eq_one (absorbed_eq_singleton fun b => ⟨hb b, fun h => h ▸ ha⟩)]
      exact he
    rcases hall with hstr | hnum
    · have ht := hstr tag htag
      rw [ht] at htag
      refine hsingle .string (mem_absorbed.mpr ⟨htag, fun h => absurd h.1 (by decide)⟩) ?_ rfl
      intro b hb
      exact hstr b (mem_absorbed.mp hb).1
    · by_cases hn : Tag.number ∈ seen.toList
      · refine hsingle .number (mem_absorbed.mpr ⟨hn, fun h => absurd h.1 (by decide)⟩) ?_ rfl
        intro b hb
        obtain ⟨hb, hleft⟩ := mem_absorbed.mp hb
        rcases hnum b hb with h | h
        · exact absurd ⟨h, hn⟩ hleft
        · exact h
      · have hint : ∀ b ∈ seen.toList, b = .integer := by
          intro b hb
          rcases hnum b hb with h | h
          · exact h
          · exact absurd (h ▸ hb) hn
        have ht := hint tag htag
        rw [ht] at htag
        refine hsingle .integer (mem_absorbed.mpr ⟨htag, fun h => hn h.2⟩) ?_ rfl
        intro b hb
        exact hint b (mem_absorbed.mp hb).1

end TypeKeyword

/-! ### the type of values -/

namespace Evidence
variable {caps : Caps} {values : List Value} {v : Value}

theorem integerOnly_iff : (gather caps values).integerOnly = true ↔ ¬ Seen values .number := by
  rw [gather_integerOnly, List.all_eq_true]
  simp only [List.mem_filterMap, decide_eq_true_iff]
  constructor
  · intro h hs
    exact h .number hs rfl
  · intro h tag ht he
    rw [he] at ht
    exact h ht

/-- whether all numbers were whole makes no difference: a single type is that already -/
theorem typeKeyword_gather :
    (gather caps values).typeKeyword = TypeKeyword.unify (gather caps values).types := by
  unfold typeKeyword
  cases hu : TypeKeyword.unify (gather caps values).types with
  | union tags => rfl
  | one tag =>
    show TypeKeyword.one (if _ then _ else _) = _
    split
    · rename_i h
      rw [Bool.and_eq_true, integerOnly_iff, hasNumbers, Bool.or_eq_true, contains_types,
        contains_types] at h
      obtain ⟨hn, hwhole⟩ := h
      have hint := hn.resolve_right hwhole
      have hmem : Tag.integer ∈ TypeKeyword.absorbed (gather caps values).types :=
        TypeKeyword.mem_absorbed.mpr ⟨mem_types.mpr hint, fun h => hwhole (mem_types.mp h.2)⟩
      have htags := TypeKeyword.tags_unify (List.ne_nil_of_mem hmem)
      rw [← htags, hu] at hmem
      rw [List.mem_singleton.mp hmem]
    · rfl

/-- a type admits a value if it was written for one of that tag, or for a number and a whole one is
given -/
theorem typeKeyword_admits {tag : Tag} (h : Seen values tag) :
    (gather caps values).typeKeyword.admits v = true
      ↔ ∃ tag, Seen values tag ∧ tag.admits v = true := by
  rw [typeKeyword_gather, TypeKeyword.unify_admits (List.ne_nil_of_mem (mem_types.mpr h))]
  simp only [mem_types]

/-- whether values are enumerated, by the tags seen -/
theorem isEnumerable_iff : (gather caps values).typeKeyword.isEnumerable = true
    ↔ (∃ tag, Seen values tag) ∧ ((∀ tag, Seen values tag → tag = .string)
        ∨ ∀ tag, Seen values tag → tag = .integer ∨ tag = .number) := by
  have hne : (gather caps values).types.toList ≠ [] ↔ ∃ tag, Seen values tag := by
    constructor
    · intro h
      obtain ⟨tag, htag⟩ := List.exists_mem_of_ne_nil _ h
      exact ⟨tag, mem_types.mp htag⟩
    · intro h
      obtain ⟨tag, htag⟩ := h
      exact List.ne_nil_of_mem (mem_types.mpr htag)
  rw [typeKeyword_gather, TypeKeyword.isEnumerable_unify, hne]
  simp only [mem_types]

end Evidence
end JsonShape
