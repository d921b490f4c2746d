import JsonShape.Proofs.Records
import JsonShape.Proofs.Types

/-!
# The keywords of a list of values

Each keyword that is written for the values of a tree is a property of the list of values: which
kinds are described, which keys are required, on which format all strings agree, and which values
are enumerated.  The size of the list enters only through the keys that all values have.

* `Schema.mem_requiredKeys`          the keys that a policy asks for, in terms of the values;
* `Format.agreed_ofList`             a format is agreed on if every string has it, and there is one;
* `Evidence.enumeration_gather`      what is enumerated, under both limits together;
* `Evidence.sameAs_enumeration`      a scalar is enumerated if its normal form was recorded.
-/

namespace JsonShape
open Std

theorem Value.Regular.exists_tag {v : Value} (h : v.Regular) : ∃ tag, v.tag? = some tag := by
  cases v with
  | foreign _ => exact absurd h.self Bool.false_ne_true
  | null => exact ⟨_, rfl⟩
  | bool _ => exact ⟨_, rfl⟩
  | num _ => exact ⟨_, rfl⟩
  | str _ => exact ⟨_, rfl⟩
  | arr _ => exact ⟨_, rfl⟩
  | tuple _ => exact ⟨_, rfl⟩
  | obj _ => exact ⟨_, rfl⟩

theorem Value.length_of_size? {v : Value} {n : Int} (h : v.size? = some n) :
    ((v.follow .element).length : Int) = n := by
  cases v with
  | arr _ => exact Option.some.inj h
  | tuple _ => exact Option.some.inj h
  | _ => cases h

/-! ### required keys -/

theorem length_follow_key (k : String) (v : Value) : (v.follow (.key k)).length ≤ 1 := by
  cases v with
  | obj members =>
    show (members.lookup k).toList.length ≤ 1
    cases members.lookup k with
    | none => exact Nat.zero_le 1
    | some _ => exact Nat.le_refl 1
  | _ => exact Nat.zero_le 1

theorem length_valuesBelow_le (k : String) (values : List Value) :
    (valuesBelow (.key k) values).length ≤ values.length := by
  induction values with
  | nil => exact Nat.le_refl 0
  | cons v r ih =>
    have hv := length_follow_key k v
    rw [valuesBelow, List.flatMap_cons, List.length_append, List.length_cons]
    rw [valuesBelow] at ih
    omega

/-- a key occurs as often as there are values exactly if all of them have it -/
theorem length_valuesBelow_eq {k : String} {values : List Value} :
    (valuesBelow (.key k) values).length = values.length
      ↔ ∀ v ∈ values, v.follow (.key k) ≠ [] := by
  induction values with
  | nil => simp [valuesBelow]
  | cons v r ih =>
    have hv := length_follow_key k v
    have hr := length_valuesBelow_le k r
    have hpos := List.length_pos_iff (l := v.follow (.key k))
    rw [List.forall_mem_cons, ← ih, ← hpos]
    rw [valuesBelow] at hr ⊢
    rw [List.flatMap_cons, List.length_append, List.length_cons]
    rw [valuesBelow]
    omega

theorem valuesBelow_ne_nil {s : Step} {values : List Value} :
    valuesBelow s values ≠ [] ↔ ∃ v ∈ values, v.follow s ≠ [] := by
  rw [valuesBelow, ne_eq, List.flatMap_eq_nil_iff]
  simp

/-- whether a policy asks for a key of these values -/
def Policy.Asks (policy : Policy) (values : List Value) (key : String) : Prop :=
  match policy with
  | loose => False
  | observed => values ≠ [] ∧ ∀ v ∈ values, v.follow (.key key) ≠ []
  | strict => ∃ v ∈ values, v.follow (.key key) ≠ []

/-- what is counted at a key decides what its policy asks for -/
theorem Policy.requires_iff {policy : Policy} {values : List Value} {key : String} :
    valuesBelow (.key key) values ≠ []
        ∧ policy.requires (valuesBelow (.key key) values).length values.length = true
      ↔ policy.Asks values key := by
  cases policy with
  | loose =>
    show _ ∧ false = true ↔ False
    simp
  | observed =>
    show _ ∧ ((((valuesBelow (.key key) values).length : Int)) == (values.length : Int)) = true
      ↔ values ≠ [] ∧ _
    rw [beq_iff_eq, Int.ofNat_inj, length_valuesBelow_eq]
    refine and_congr_left fun hall => ?_
    rw [valuesBelow_ne_nil]
    constructor
    · intro h
      obtain ⟨v, hv, _⟩ := h
      exact List.ne_nil_of_mem hv
    · intro hne
      obtain ⟨v, hv⟩ := List.exists_mem_of_ne_nil _ hne
      exact ⟨v, hv, hall v hv⟩
  | strict =>
    show _ ∧ decide ((0 : Int) < ((valuesBelow (.key key) values).length : Int)) = true ↔ _
    have hpos := List.length_pos_iff (l := valuesBelow (.key key) values)
    rw [decide_eq_true_iff]
    show _ ↔ ∃ v ∈ values, v.follow (.key key) ≠ []
    rw [← valuesBelow_ne_nil]
    constructor
    · intro h
      exact h.1
    · intro h
      have := hpos.mpr h
      exact ⟨h, by omega⟩

namespace Schema
variable {A : Account} {values : List Value} {t : Tree}

theorem mem_requiredKeys {policy : Policy} (ht : t.Reflects A values) {key : String} :
    key ∈ requiredKeys policy values.length t.properties ↔ policy.Asks values key := by
  rw [requiredKeys, OrdSet.mem_ofList, ← Policy.requires_iff]
  have hmem : key ∈ (t.properties.filter fun p =>
      policy.requires p.2.here.presence values.length).map Prod.fst
      ↔ ∃ u, t.properties.lookup key = some u
        ∧ policy.requires u.here.presence values.length = true := by
    rw [List.mem_map]
    constructor
    · intro h
      obtain ⟨p, hp, rfl⟩ := h
      obtain ⟨hmem, hreq⟩ := List.mem_filter.mp hp
      exact ⟨p.2, (lookup_iff_mem ht.keys_nodup).mpr hmem, hreq⟩
    · intro h
      obtain ⟨u, hu, hreq⟩ := h
      exact ⟨(key, u), List.mem_filter.mpr ⟨mem_of_lookup hu, hreq⟩, rfl⟩
  have hin : Tree.ReflectsBelow A (.key key) (valuesBelow (.key key) values)
      (t.properties.lookup key) := ht.inner (.key key)
  rw [hmem]
  cases hl : t.properties.lookup key with
  | none =>
    rw [hl] at hin
    have hnil : valuesBelow (.key key) values = [] := hin
    simp [hnil]
  | some u =>
    rw [hl] at hin
    obtain ⟨hne, hcount, _⟩ := hin
    have hcount' : u.here.presence = (valuesBelow (.key key) values).length := hcount
    simp [hne, hcount']

end Schema

/-! ### kinds -/

namespace Evidence
variable {caps : Caps} {values : List Value}

theorem contains_types_eq_false {tag : Tag} :
    (gather caps values).types.contains tag = false ↔ ¬ Seen values tag := by
  rw [← Bool.not_eq_true, contains_types]

theorem describesObjects_iff : (gather caps values).describesObjects = true
    ↔ Seen values .object ∧ ¬ Seen values .array := by
  rw [describesObjects, Bool.and_eq_true, Bool.not_eq_true', contains_types,
    contains_types_eq_false]

theorem describesArrays_iff : (gather caps values).describesArrays = true
    ↔ Seen values .array ∧ ¬ Seen values .object := by
  rw [describesArrays, Bool.and_eq_true, Bool.not_eq_true', contains_types,
    contains_types_eq_false]

theorem hasNumbers_iff : (gather caps values).hasNumbers = true
    ↔ Seen values .integer ∨ Seen values .number := by
  rw [hasNumbers, Bool.or_eq_true, contains_types, contains_types]

end Evidence

/-! ### facets that some value has -/

section
variable {values : List Value}

theorem filterMap_ne_nil {α : Type} {facet : Value → Option α} {tag : Tag} (h : Seen values tag)
    (hf : ∀ v : Value, v.tag? = some tag → ∃ a, facet v = some a) :
    values.filterMap facet ≠ [] := by
  obtain ⟨v, hv, ht⟩ := h
  obtain ⟨a, ha⟩ := hf v ht
  exact List.ne_nil_of_mem (List.mem_filterMap.mpr ⟨v, hv, ha⟩)

theorem sizes_ne_nil (h : Seen values .array) : values.filterMap Value.size? ≠ [] :=
  filterMap_ne_nil h fun _ => Value.exists_size.mpr

theorem lengths_ne_nil (h : Seen values .string) : values.filterMap Value.length? ≠ [] :=
  filterMap_ne_nil h fun _ => Value.exists_length.mpr

theorem outcomes_ne_nil (h : Seen values .string) : values.filterMap Value.outcome? ≠ [] :=
  filterMap_ne_nil h fun _ => Value.exists_outcome.mpr

theorem Value.Regular.number?_not_nan {v : Value} (h : v.Regular) {n : Number}
    (hn : v.number? = some n) : n.isNan = false := by
  cases v with
  | num m =>
    cases hn
    exact h.not_nan
  | _ => cases hn

theorem exists_normal {v : Value} (h : v.tag? = some .integer ∨ v.tag? = some .number) :
    ∃ n, v.normal? = some n := by
  obtain ⟨n, hn⟩ := Value.exists_number.mpr h
  exact ⟨n.normal, congrArg (Option.map Number.normal) hn⟩

theorem numbers_ne_nil (h : Seen values .integer ∨ Seen values .number) :
    values.filterMap Value.normal? ≠ [] := by
  rcases h with h | h
  · exact filterMap_ne_nil h fun _ ht => exists_normal (Or.inl ht)
  · exact filterMap_ne_nil h fun _ ht => exists_normal (Or.inr ht)

theorem exists_seen (hne : values ≠ []) (hr : ∀ v ∈ values, v.Regular) :
    ∃ tag, Seen values tag := by
  obtain ⟨v, hv⟩ := List.exists_mem_of_ne_nil _ hne
  obtain ⟨tag, ht⟩ := (hr v hv).exists_tag
  exact ⟨tag, v, hv, ht⟩

end

/-! ### formats -/

namespace Format

/-- a format is agreed on if every outcome is that format, and there is one -/
theorem agreed_ofList {outcomes : List (Option Format)} {f : Format} :
    agreed (OrdSet.ofList outcomes) = some f ↔ outcomes ≠ [] ∧ ∀ x ∈ outcomes, x = some f := by
  rw [agreed_eq_some]
  constructor
  · intro h
    have hmem : ∀ x, x ∈ outcomes ↔ x = some f := by
      intro x
      rw [← OrdSet.mem_ofList, h, List.mem_singleton]
    exact ⟨List.ne_nil_of_mem ((hmem _).mpr rfl), fun x hx => (hmem x).mp hx⟩
  · intro h
    obtain ⟨hne, hall⟩ := h
    obtain ⟨x, hx⟩ := List.exists_mem_of_ne_nil _ hne
    refine eq_of_ascending (OrdSet.ascending _) (List.pairwise_singleton _ _) fun y => ?_
    rw [OrdSet.mem_ofList, List.mem_singleton]
    constructor
    · exact hall y
    · intro hy
      rw [hy, ← hall x hx]
      exact hx

end Format

/-! ### types -/

/-- the type of values admits them -/
theorem Evidence.typeKeyword_of_mem {caps : Caps} {values : List Value} {v : Value}
    (hr : ∀ v ∈ values, v.Regular) (hv : v ∈ values) :
    (Evidence.gather caps values).typeKeyword.admits v = true := by
  obtain ⟨tag, ht⟩ := (hr v hv).exists_tag
  have hseen : Seen values tag := ⟨v, hv, ht⟩
  rw [Evidence.typeKeyword_admits hseen]
  exact ⟨tag, hseen, Tag.admits_iff.mpr (Or.inl ht)⟩

/-! ### enumerations -/

namespace Evidence
variable {caps : Caps} {values : List Value}

def candidates (values : List Value) : OrdSet Candidate :=
  OrdSet.ofList (values.filterMap Value.candidate?)

/-- whether so many candidates are both kept and enumerated -/
def fits (caps : Caps) (threshold : Nat) (size : Nat) : Bool :=
  decide ((size : Int) ≤ caps.distinct) && decide (size ≤ threshold)

theorem enumeration_gather (hd : 0 ≤ caps.distinct) (threshold : Nat) :
    (gather caps values).enumeration threshold
      = if (gather caps values).typeKeyword.isEnumerable
            && fits caps threshold (candidates values).size
        then (candidates values).toList.map Candidate.value else [] := by
  unfold enumeration
  cases (gather caps values).typeKeyword with
  | union tags => rfl
  | one tag =>
    rw [gather_distinct hd, TypeKeyword.isEnumerable, fits]
    show (if _ then _ else _) = _
    by_cases hcap : ((candidates values).size : Int) ≤ caps.distinct
    · have hcapped : Distinct.capped caps.distinct
          (OrdSet.ofList (values.filterMap Value.candidate?)) = ⟨candidates values, false⟩ :=
        Distinct.capped_of_le hcap
      rw [hcapped, decide_eq_true hcap]
      simp
    · have hcapped : Distinct.capped caps.distinct
          (OrdSet.ofList (values.filterMap Value.candidate?)) = Distinct.tooMany :=
        Distinct.capped_of_lt (Int.not_le.mp hcap)
      rw [hcapped, decide_eq_false hcap]
      simp [Distinct.tooMany]

theorem mem_candidates {c : Candidate} :
    c ∈ (candidates values).toList ↔ ∃ v ∈ values, v.candidate? = some c := by
  rw [candidates, OrdSet.mem_ofList_iff Candidate.eq_of_level_of_values, List.mem_filterMap]

/-- a scalar is the same as an enumerated one if its normal form was recorded -/
theorem sameAs_enumeration {s : Scalar} :
    (∃ x ∈ (candidates values).toList.map Candidate.value, x.sameAs s = true)
      ↔ s.normal.candidate ∈ (candidates values).toList := by
  constructor
  · intro h
    obtain ⟨x, hx, hs⟩ := h
    obtain ⟨c, hc, rfl⟩ := List.mem_map.mp hx
    obtain ⟨v, _, hv⟩ := mem_candidates.mp hc
    obtain ⟨t, _, rfl⟩ := Candidate.of_value hv
    have ht : t.normal.normal = s.normal := Scalar.normal_eq_normal hs
    rw [← ht, Scalar.normal_normal]
    exact hc
  · intro h
    exact ⟨s.normal, List.mem_map_of_mem h, Scalar.normal_sameAs s⟩

theorem candidates_append {vs ws : List Value} :
    candidates (vs ++ ws) = (candidates vs).union (candidates ws) := by
  rw [candidates, List.filterMap_append, OrdSet.ofList_append]
  rfl

theorem mem_candidates_append {vs ws : List Value} {c : Candidate} :
    c ∈ (candidates (vs ++ ws)).toList
      ↔ c ∈ (candidates vs).toList ∨ c ∈ (candidates ws).toList := by
  simp only [mem_candidates, List.mem_append, or_and_right, exists_or]

theorem fits_of_le {threshold m n : Nat} (h : fits caps threshold n = true) (hmn : m ≤ n) :
    fits caps threshold m = true := by
  rw [fits, Bool.and_eq_true, decide_eq_true_iff, decide_eq_true_iff] at h ⊢
  omega

/-- what an enumerated type admits is a string or a number -/
theorem tag_of_enumerable {v : Value}
    (h : (gather caps values).typeKeyword.isEnumerable = true)
    (hv : (gather caps values).typeKeyword.admits v = true) :
    v.tag? = some .string ∨ v.tag? = some .integer ∨ v.tag? = some .number := by
  rw [typeKeyword_gather] at h hv
  obtain ⟨hne, hall⟩ := TypeKeyword.isEnumerable_unify.mp h
  obtain ⟨tag, htag, hadm⟩ := (TypeKeyword.unify_admits hne).mp hv
  rw [Tag.admits_iff] at hadm
  rcases hadm with ht | ⟨_, ht⟩
  · rw [ht]
    rcases hall with hstr | hnum
    · exact Or.inl (congrArg some (hstr tag htag))
    · rcases hnum tag htag with h | h
      · exact Or.inr (Or.inl (congrArg some h))
      · exact Or.inr (Or.inr (congrArg some h))
  · exact Or.inr (Or.inl ht)

end Evidence

/-- a string or a number is a scalar, and a candidate -/
theorem Value.candidate?_of_tag {v : Value}
    (h : v.tag? = some .string ∨ v.tag? = some .integer ∨ v.tag? = some .number) :
    ∃ s, v.scalar? = some s ∧ v.candidate? = some s.normal.candidate := by
  cases v with
  | str x => exact ⟨.str x, rfl, rfl⟩
  | num n => exact ⟨.num n, rfl, rfl⟩
  | foreign _ => simp [tag?] at h
  | _ => simp [tag?, Tag.null, Tag.boolean, Tag.array, Tag.object, Tag.string, Tag.integer,
      Tag.number] at h

end JsonShape
