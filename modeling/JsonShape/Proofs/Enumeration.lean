import JsonShape.Proofs.Contents
import JsonShape.Proofs.Fragments

/-!
# Which values are enumerated

At a position where all values are strings, or all are numbers, the fragment enumerates them,
ascending and each one once, unless too many of them are distinct.  Whole numbers are written as
integers there, and numbers of one value are one.  Elsewhere nothing is enumerated.

That depends on the values alone: not on their order, nor on how they were spread over samples.

* `Evidence.isEnumerable_iff_kind`  the type decides, and is a matter of the kinds of the values;
* `Schema.Describes.enumerates`     values of a kind are enumerated if they fit;
* `Value.Enumerates.congr`          the members of a list decide what is enumerated of it;
* `infer_enumerates`                every fragment of an inferred schema enumerates its values.
-/

namespace JsonShape
open Value Std

/-! ### enumerating a list -/

/-- the keyword lists the members of `l` in ascending order, each once, if they are no more than the
bound, and is absent if they are more -/
def Value.Enumerates {α : Type} [LT α] (write : α → Value) (bound : Nat) (l : List α)
    (keyword : Option Value) : Prop :=
  ∃ entries : List α, entries.Pairwise (· < ·) ∧ (∀ a, a ∈ entries ↔ a ∈ l)
    ∧ keyword = if entries.length ≤ bound then some (arr (entries.map write)) else none

/-- the fragment enumerates the values, strings or numbers as they are -/
structure Value.TellsEnum (bound : Nat) (values : List Value) (fragment : Value) : Prop where
  found : values ≠ []
  strings : (∀ v ∈ values, ∃ s, v = str s) →
    Enumerates str bound (values.filterMap text?) (fragment.member? "enum")
  numbers : (∀ v ∈ values, ∃ n, v = num n) →
    Enumerates num bound (values.filterMap normal?) (fragment.member? "enum")
  others : ¬ (∀ v ∈ values, ∃ s, v = str s) → ¬ (∀ v ∈ values, ∃ n, v = num n) →
    fragment.member? "enum" = none

/-- all candidates are strings, or all are numbers -/
def Distinct.OneKind (d : Distinct) : Prop :=
  (∀ c ∈ d.values.toList, ∃ s, c.value = .str s) ∨ ∀ c ∈ d.values.toList, ∃ n, c.value = .num n

theorem Number.lt_asymm {a b : Number} (hab : a < b) : ¬ b < a := by
  intro hba
  have h : less a b = true := hab
  have h' : less b a = true := hba
  simp only [less, Bool.and_eq_true, Ordering.isLT_iff_eq_lt] at h h'
  exact OrientedCmp.not_lt_of_lt h.2 h'.2

/-- the members of a list decide what is enumerated of it -/
theorem Value.Enumerates.congr {α : Type} [LT α] {write : α → Value} {bound : Nat} {l m : List α}
    (hlt : ∀ a b : α, a < b → ¬ b < a) {x y : Option Value} (hx : Enumerates write bound l x)
    (hy : Enumerates write bound m y) (h : ∀ a, a ∈ l ↔ a ∈ m) : x = y := by
  obtain ⟨entries, hs, hmem, rfl⟩ := hx
  obtain ⟨entries', hs', hmem', rfl⟩ := hy
  have hirrefl : ∀ a : α, ¬ a < a := fun a haa => hlt a a haa haa
  have hnodup : ∀ {l : List α}, l.Pairwise (· < ·) → l.Nodup := by
    refine fun hl => hl.imp ?_
    rintro a _ haa rfl
    exact hirrefl a haa
  have hperm : entries.Perm entries' := by
    refine (List.perm_ext_iff_of_nodup (hnodup hs) (hnodup hs')).mpr fun a => ?_
    rw [hmem, hmem', h]
  rw [hperm.eq_of_pairwise (fun a b _ _ hab hba => absurd hba (hlt a b hab)) hs hs']

theorem Schema.listed_of_ne_nil {l : List Value} (h : l ≠ []) : listed l = some (arr l) := by
  cases l with
  | nil => exact absurd rfl h
  | cons v r => rfl

/-! ### kinds -/

namespace Value

theorem exists_str {v : Value} : (∃ s, v = str s) ↔ v.tag? = some .string := by
  cases v with
  | num n => cases h : n.isWhole <;> simp [tag?, h, Tag.string, Tag.integer, Tag.number]
  | _ => simp [tag?, Tag.null, Tag.boolean, Tag.string, Tag.array, Tag.object]

theorem exists_num {v : Value} :
    (∃ n, v = num n) ↔ v.tag? = some .integer ∨ v.tag? = some .number := by
  cases v with
  | num n => cases h : n.isWhole <;> simp [tag?, h]
  | _ => simp [tag?, Tag.null, Tag.boolean, Tag.string, Tag.array, Tag.object, Tag.integer,
      Tag.number]

end Value

namespace Candidate

theorem compare_str (a b : String) :
    compare (Scalar.str a).candidate (Scalar.str b).candidate = compare a b := by
  have hkind : (Scalar.str a).candidate.kind = (Scalar.str b).candidate.kind := rfl
  exact (compare_of_kind_eq hkind).trans (Scalar.compare_str a b)

theorem compare_num (a b : Number) :
    compare (Scalar.num a).candidate (Scalar.num b).candidate = compare a b := by
  have hkind : (Scalar.num a).candidate.kind = (Scalar.num b).candidate.kind := rfl
  exact (compare_of_kind_eq hkind).trans (Scalar.compare_num a b)

end Candidate

namespace Evidence
variable {caps : Caps} {values : List Value}

/-- values are enumerated if all are strings, or all are numbers -/
theorem isEnumerable_iff_kind (hne : values ≠ []) (hr : ∀ v ∈ values, v.Regular) :
    (gather caps values).typeKeyword.isEnumerable = true
      ↔ (∀ v ∈ values, ∃ s, v = str s) ∨ ∀ v ∈ values, ∃ n, v = num n := by
  rw [isEnumerable_iff, and_iff_right (exists_seen hne hr)]
  simp only [exists_str, exists_num]
  constructor
  · intro h
    refine h.imp (fun hs v hv => ?_) fun hn v hv => ?_
    · obtain ⟨tag, ht⟩ := (hr v hv).exists_tag
      rw [ht, hs tag ⟨v, hv, ht⟩]
    · obtain ⟨tag, ht⟩ := (hr v hv).exists_tag
      rw [ht]
      exact (hn tag ⟨v, hv, ht⟩).imp (congrArg some) (congrArg some)
  · intro h
    refine h.imp (fun hs tag hseen => ?_) fun hn tag hseen => ?_
    · obtain ⟨v, hv, ht⟩ := hseen
      exact Option.some.inj (ht.symm.trans (hs v hv))
    · obtain ⟨v, hv, ht⟩ := hseen
      have htag := hn v hv
      rw [ht] at htag
      exact htag.imp Option.some.inj Option.some.inj

/-- values that all have a facet are recorded as what stands for it -/
theorem filterMap_candidate? {γ : Type} {facet : Value → Option γ} {scalar : γ → Scalar}
    (h : ∀ v ∈ values, ∃ a, facet v = some a ∧ v.candidate? = some (scalar a).candidate) :
    values.filterMap Value.candidate?
      = (values.filterMap facet).map fun a => (scalar a).candidate := by
  induction values with
  | nil => rfl
  | cons v r ih =>
    obtain ⟨⟨a, ha, hc⟩, hr⟩ := List.forall_mem_cons.mp h
    rw [List.filterMap_cons_some hc, List.filterMap_cons_some ha, ih hr, List.map_cons]

theorem fits_iff {o : Options} {n : Nat} :
    fits o.caps o.enumThreshold n = true ↔ n ≤ min o.enumThreshold o.maxUniqueValues := by
  rw [fits, Bool.and_eq_true, decide_eq_true_iff, decide_eq_true_iff]
  show (n : Int) ≤ (o.maxUniqueValues : Int) ∧ _ ↔ _
  omega

end Evidence

/-! ### fragments -/

namespace Schema
variable {o : Options} {values : List Value} {s : Schema}

/-- values that are all of a kind are enumerated if they fit -/
theorem Describes.enumerates {γ : Type} [Ord γ] [TransOrd γ] [LT γ] {facet : Value → Option γ}
    {scalar : γ → Scalar} (h : s.Describes o values) (hne : values ≠ [])
    (hkind : (Evidence.gather o.caps values).typeKeyword.isEnumerable = true)
    (hfacet : ∀ v ∈ values, ∃ a, facet v = some a ∧ v.candidate? = some (scalar a).candidate)
    (hcompare : ∀ a b, compare (scalar a).candidate (scalar b).candidate = compare a b)
    (hlevel : ∀ a ∈ values.filterMap facet, ∀ b ∈ values.filterMap facet,
      compare a b = .eq → a = b)
    (hlt : ∀ a ∈ values.filterMap facet, ∀ b ∈ values.filterMap facet,
      compare a b = .lt → a < b) :
    Enumerates (fun a => (scalar a).toValue) (min o.enumThreshold o.maxUniqueValues)
      (values.filterMap facet) (s.written.member? "enum") := by
  have hmem : ∀ a, a ∈ (OrdSet.ofList (values.filterMap facet)).toList
      ↔ a ∈ values.filterMap facet := fun _ => OrdSet.mem_ofList_iff hlevel
  have hcandidates : (Evidence.candidates values).toList
      = (OrdSet.ofList (values.filterMap facet)).toList.map fun a => (scalar a).candidate := by
    rw [Evidence.candidates, Evidence.filterMap_candidate? hfacet,
      OrdSet.toList_ofList_map hcompare]
  have hentries : (OrdSet.ofList (values.filterMap facet)).toList ≠ [] := by
    obtain ⟨v, hv⟩ := List.exists_mem_of_ne_nil _ hne
    obtain ⟨a, ha, _⟩ := hfacet v hv
    exact List.ne_nil_of_mem ((hmem a).mpr (List.mem_filterMap.mpr ⟨v, hv, ha⟩))
  refine ⟨_, ?_, hmem, ?_⟩
  · exact (OrdSet.ascending _).imp_of_mem fun ha hb hab =>
      hlt _ ((hmem _).mp ha) _ ((hmem _).mp hb) hab
  · have hsize : (Evidence.candidates values).size
        = (OrdSet.ofList (values.filterMap facet)).toList.length := by
      rw [OrdSet.size, hcandidates, List.length_map]
    rw [member?_enum, h.own, Keywords.enum_eq, hkind, Bool.true_and, hsize, hcandidates]
    by_cases hfits : (OrdSet.ofList (values.filterMap facet)).toList.length
        ≤ min o.enumThreshold o.maxUniqueValues
    · rw [if_pos (Evidence.fits_iff.mpr hfits), if_pos hfits, List.map_map, List.map_map]
      exact listed_of_ne_nil fun hnil => hentries (List.map_eq_nil_iff.mp hnil)
    · rw [if_neg (fun hf => hfits (Evidence.fits_iff.mp hf)), if_neg hfits]
      rfl

/-- the schema of values that it describes enumerates them -/
theorem Describes.tellsEnum (h : s.Describes o values) (hne : values ≠ [])
    (hr : ∀ v ∈ values, v.Regular) :
    s.written.TellsEnum (min o.enumThreshold o.maxUniqueValues) values where
  found := hne
  strings hs := by
    refine h.enumerates hne ((Evidence.isEnumerable_iff_kind hne hr).mpr (Or.inl hs)) ?_
      Candidate.compare_str
      (fun _ _ _ _ => LawfulEqOrd.eq_of_compare) fun _ _ _ _ => compareOfLessAndEq_eq_lt.mp
    intro v hv
    obtain ⟨x, rfl⟩ := hs v hv
    exact ⟨x, rfl, rfl⟩
  numbers hn := by
    have hnan := Evidence.normal?_not_nan hr
    refine h.enumerates hne ((Evidence.isEnumerable_iff_kind hne hr).mpr (Or.inr hn)) ?_
      Candidate.compare_num ?_
      fun a ha b hb => (Number.lt_iff_compare (hnan a ha) (hnan b hb)).mpr
    · intro v hv
      obtain ⟨n, rfl⟩ := hn v hv
      exact ⟨n.normal, rfl, rfl⟩
    · intro a ha b hb hab
      obtain ⟨v, _, hva⟩ := List.mem_filterMap.mp ha
      obtain ⟨w, _, hwb⟩ := List.mem_filterMap.mp hb
      obtain ⟨m, _, rfl⟩ := Option.map_eq_some_iff.mp hva
      obtain ⟨n, _, rfl⟩ := Option.map_eq_some_iff.mp hwb
      have heq := Number.normal_eq_normal hab
      rwa [Number.normal_normal, Number.normal_normal] at heq
  others hs hn := by
    have hkind : (Evidence.gather o.caps values).typeKeyword.isEnumerable = false := by
      rw [← Bool.not_eq_true, Evidence.isEnumerable_iff_kind hne hr]
      exact fun h => h.elim hs hn
    rw [member?_enum, h.own, Keywords.enum_eq, hkind]
    rfl

end Schema

/-- values at two positions, the same ones, are enumerated alike -/
theorem Value.TellsEnum.congr {bound : Nat} {vs ws : List Value} {f f' : Value}
    (h : f.TellsEnum bound vs) (h' : f'.TellsEnum bound ws) (hsame : ∀ v, v ∈ vs ↔ v ∈ ws) :
    f.member? "enum" = f'.member? "enum" := by
  have hall : ∀ P : Value → Prop, (∀ v ∈ vs, P v) ↔ ∀ v ∈ ws, P v := fun P => by simp only [hsame]
  have hfacet : ∀ {γ : Type} (facet : Value → Option γ) (a : γ),
      a ∈ vs.filterMap facet ↔ a ∈ ws.filterMap facet := by
    intro γ facet a
    simp only [List.mem_filterMap, hsame]
  by_cases hs : ∀ v ∈ vs, ∃ s, v = str s
  · exact (h.strings hs).congr (fun _ _ => String.lt_asymm) (h'.strings ((hall _).mp hs))
      (hfacet text?)
  · by_cases hn : ∀ v ∈ vs, ∃ n, v = num n
    · exact (h.numbers hn).congr (fun _ _ => Number.lt_asymm) (h'.numbers ((hall _).mp hn))
        (hfacet normal?)
    · rw [h.others hs hn, h'.others (hs ∘ (hall _).mpr) (hn ∘ (hall _).mpr)]

/-! ### samples -/

/-- where values are enumerated, candidates of one kind are sorted -/
theorem Evidence.oneKind_of_enumerable {caps : Caps} (hd : 0 ≤ caps.distinct) {values : List Value}
    (hne : values ≠ []) (hr : ∀ v ∈ values, v.Regular)
    (h : (gather caps values).typeKeyword.isEnumerable = true) :
    (gather caps values).distinct.OneKind := by
  have hmem : ∀ c ∈ (gather caps values).distinct.values.toList,
      ∃ v ∈ values, v.candidate? = some c := by
    intro c hc
    rw [gather_distinct hd] at hc
    have hcounted := ((Distinct.capped_counts Candidate.eq_of_level_of_values).values c).mp hc
    exact List.mem_filterMap.mp hcounted.2
  refine ((isEnumerable_iff_kind hne hr).mp h).imp (fun hs c hc => ?_) fun hn c hc => ?_
  · obtain ⟨v, hv, hvc⟩ := hmem c hc
    obtain ⟨x, rfl⟩ := hs v hv
    cases hvc
    exact ⟨x, rfl⟩
  · obtain ⟨v, hv, hvc⟩ := hmem c hc
    obtain ⟨n, rfl⟩ := hn v hv
    cases hvc
    exact ⟨n.normal, rfl⟩

theorem Inference.returns_tellsEnum (m : Machine) {o : Options} {samples : List Value}
    (hne : samples ≠ []) (hs : ∀ v ∈ samples, v.Sample o.maxDepth) :
    (infer m o samples).Returns m o fun schema => ∀ p fragment,
      schema.withoutHeading.fragment? p = some fragment →
        fragment.TellsEnum (min o.enumThreshold o.maxUniqueValues) (valuesAt p samples) := by
  have hr : ∀ v ∈ samples, v.Regular := fun v hv => (hs v hv).regular
  exact returns_fragments (gathered_kept o) hne hr (fun v hv => (hs v hv).followed)
    fun p _ hd hfound =>
      Schema.Describes.tellsEnum hd hfound (forall_valuesAt Value.Regular.follow p hr)

/-- at each position of the tree, only candidates of one kind are sorted -/
theorem Tree.Reflects.oneKind {caps : Caps} (hd : 0 ≤ caps.distinct) {values : List Value}
    {t u : Tree} (h : t.Records caps values) (hne : values ≠ [])
    (hr : ∀ v ∈ values, v.Regular) {p : Position} (hu : t.at? p = some u)
    (hkind : u.here.typeKeyword.isEnumerable = true) : u.here.distinct.OneKind := by
  obtain ⟨hrec, hfound⟩ := h.at? hne hu
  rw [Records.here hrec] at hkind ⊢
  exact Evidence.oneKind_of_enumerable hd hfound (forall_valuesAt Value.Regular.follow p hr) hkind

/-- every fragment of an inferred schema enumerates the values at its position, if they are few and
of one kind; so the same values are enumerated alike, and no string is sorted among numbers -/
theorem infer_enumerates (m : Machine) {o : Options} {samples : List Value} (hne : samples ≠ [])
    (hs : ∀ v ∈ samples, v.Sample o.maxDepth) :
    ((infer m o samples).Returns m o fun schema => ∀ p fragment,
        schema.withoutHeading.fragment? p = some fragment →
          fragment.TellsEnum (min o.enumThreshold o.maxUniqueValues) (valuesAt p samples)
            ∧ ∀ others other q f, others ≠ [] → (∀ v ∈ others, v.Sample o.maxDepth) →
              (infer m o others).answer = .ok other → other.withoutHeading.fragment? q = some f →
              (∀ v, v ∈ valuesAt p samples ↔ v ∈ valuesAt q others) →
                f.member? "enum" = fragment.member? "enum")
      ∧ ∃ t, m.fold o.caps o.maxDepth samples = .ok (some t) ∧ ∀ p u,
        t.at? p = some u → u.here.typeKeyword.isEnumerable = true → u.here.distinct.OneKind := by
  constructor
  · have htells := Inference.returns_tellsEnum m hne hs
    rcases htells with ⟨schema, ha, hschema⟩ | hout
    · refine Or.inl ⟨schema, ha, fun p fragment hf => ⟨hschema p fragment hf, ?_⟩⟩
      intro others other q f hne' hs' ha' hf' hsame
      have hother := (Inference.returns_tellsEnum m hne' hs').of_answer ha' q f hf'
      exact ((hschema p fragment hf).congr hother hsame).symm
    · exact Or.inr hout
  · have hd : 0 ≤ o.caps.distinct := Int.natCast_nonneg _
    have hr : ∀ v ∈ samples, v.Regular := fun v hv => (hs v hv).regular
    obtain ⟨t, hfold, ht, _⟩ := Tree.records_fold (Inference.assured_le m o) hd
      (Int.natCast_nonneg o.maxExamples) hne hs
    exact ⟨t, Machine.fold_of_ok hfold, fun p u hu => ht.oneKind hd hne hr hu⟩

/-- two, written as a double and as an integer, and one and a half, under a key -/
def sizes : List Value :=
  [.obj [("size", .num (.ofBits 0x4000000000000000 0))], .obj [("size", .num Tree.threeHalves)],
    .obj [("size", .int 2)]]

theorem infer_enumerates_sizes : ∃ schema fragment,
    (infer .least .default sizes).answer = .ok schema
      ∧ schema.withoutHeading.fragment? [.key "size"] = some fragment
      ∧ fragment.member? "enum" = some (.arr [.num Tree.threeHalves, .int 2]) := by
  have hne : sizes ≠ [] := List.cons_ne_nil _ _
  have hs : ∀ v ∈ sizes, v.Sample Options.default.maxDepth := by decide
  obtain ⟨schema, ha, hschema⟩ := (infer_enumerates .least hne hs).1.exists_of_le (by decide)
  have hfragment : ((infer .least .default sizes).answer.toOption.map fun schema =>
      (schema.withoutHeading.fragment? [.key "size"]).isSome) = some true := by decide +kernel
  rw [ha] at hfragment
  obtain ⟨fragment, hf⟩ := Option.isSome_iff_exists.mp (Option.some.inj hfragment)
  have hnumbers : ∀ v ∈ valuesAt [.key "size"] sizes, ∃ n, v = num n := by
    have hseen : ∀ v ∈ valuesAt [.key "size"] sizes, v.number?.isSome = true := by decide
    intro v hv
    cases v with
    | num n => exact ⟨n, rfl⟩
    | _ => exact absurd (hseen _ hv) Bool.false_ne_true
  have hnormal : (valuesAt [.key "size"] sizes).filterMap normal?
      = [.int 2, Tree.threeHalves, .int 2] := by decide +kernel
  have hexpected : Enumerates num 8 ((valuesAt [.key "size"] sizes).filterMap normal?)
      (some (.arr [.num Tree.threeHalves, .int 2])) := by
    refine ⟨[Tree.threeHalves, .int 2], by decide +kernel, fun a => ?_, rfl⟩
    rw [hnormal]
    grind
  exact ⟨schema, fragment, ha, hf,
    ((hschema _ _ hf).1.numbers hnumbers).congr (fun _ _ => Number.lt_asymm) hexpected
      fun _ => Iff.rfl⟩

end JsonShape
