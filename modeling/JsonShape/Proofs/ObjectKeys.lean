import JsonShape.Proofs.Fragments

/-!
# What is said of keys

At a position where there are objects and no arrays, the fragment has a schema for each of their
keys, and for no other.  Which of these it requires is up to the policy: none, those that every
value there has, or all of them.  It does not matter whether the position is the root, a key, or
shared by the elements of many arrays, nor what else was found there beside the objects.

* `Schema.Rendered.tellsKeys`  a schema that is rendered for values tells their keys;
* `Value.TellsKeys.subset`     a stronger policy requires no fewer keys;
* `infer_tellsKeys`            so do all fragments of an inferred schema.
-/

namespace JsonShape
open Value

/-! ### reading keys -/

namespace Value

/-- the keys that a fragment has a schema for -/
def propertyNames (fragment : Value) : List String :=
  (fragment.member? "properties").elim [] keys

/-- the keys that a fragment requires -/
def requiredNames (fragment : Value) : List String :=
  match fragment.member? "required" with
  | some (arr names) => names.filterMap text?
  | _ => []

end Value

namespace Policy

/-- whether a policy asks for a key: for none, for those of every value, for all that are described
-/
def AsksAmong (policy : Policy) (described : List String) (values : List Value) (key : String) :
    Prop :=
  match policy with
  | loose => False
  | observed => ∀ v ∈ values, key ∈ v.keys
  | strict => key ∈ described

/-- how much a policy asks for -/
def rank : Policy → Nat
  | loose => 0
  | observed => 1
  | strict => 2

end Policy

/-- the fragment tells the keys of the values: it has a schema for those of their objects, and
requires those that the policy asks for -/
structure Value.TellsKeys (policy : Policy) (values : List Value) (fragment : Value) : Prop where
  found : values ≠ []
  described : (fragment.member? "properties").isSome = true
    ↔ Seen values .object ∧ ¬ Seen values .array
  ascending : fragment.propertyNames.Pairwise (· < ·)
  keys : (fragment.member? "properties").isSome = true →
    ∀ k, k ∈ fragment.propertyNames ↔ ∃ v ∈ values, k ∈ v.keys
  written : fragment.member? "required" = listed (fragment.requiredNames.map str)
  requiredAscending : fragment.requiredNames.Pairwise (· < ·)
  required : ∀ k, k ∈ fragment.requiredNames ↔ policy.AsksAmong fragment.propertyNames values k

/-! ### the keys of values -/

theorem Value.tag?_of_mem_keys {v : Value} {k : String} (h : k ∈ v.keys) :
    v.tag? = some .object := by
  cases v with
  | obj _ => rfl
  | _ => cases h

/-- values that all have a key are objects -/
theorem seen_object_of_common_key {values : List Value} (hne : values ≠ []) {k : String}
    (h : ∀ v ∈ values, k ∈ v.keys) : Seen values .object ∧ ¬ Seen values .array := by
  constructor
  · obtain ⟨v, hv⟩ := List.exists_mem_of_ne_nil _ hne
    exact ⟨v, hv, tag?_of_mem_keys (h v hv)⟩
  · rintro ⟨v, hv, htag⟩
    rw [tag?_of_mem_keys (h v hv)] at htag
    exact absurd (Option.some.inj htag) (by decide)

theorem listed_map_str (names : List String) :
    (match listed (names.map str) with
      | some (arr l) => l.filterMap text?
      | _ => []) = names := by
  have htext : (names.map str).filterMap text? = names := by
    rw [List.filterMap_map]
    exact List.filterMap_some
  cases names with
  | nil => rfl
  | cons name r => exact htext

namespace Schema
variable {A : Account} {o : Options} {values : List Value} {s : Schema}

theorem requiredNames_written : s.written.requiredNames = s.own.object.elim [] (·.required) := by
  rw [requiredNames, member?_required]
  cases s.own.object with
  | none => rfl
  | some k => exact listed_map_str k.required

/-- where objects are described, those of their keys are -/
theorem Rendered.mem_propertyNames (h : s.Rendered A o values) (k : String) :
    k ∈ s.written.propertyNames ↔ (Evidence.gather o.caps values).describesObjects = true
      ∧ ∃ v ∈ values, k ∈ v.keys := by
  have hnames : k ∈ s.written.propertyNames ↔ k ∈ s.properties.map Prod.fst := by
    rw [propertyNames, member?_properties]
    cases ho : s.own.object with
    | none =>
      rw [h.properties_eq_nil ho]
      rfl
    | some _ =>
      have hperm := (sortByKey_perm (s.properties.map fun p => (p.1, p.2.written))).map Prod.fst
      show k ∈ (sortByKey _).map Prod.fst ↔ _
      rw [hperm.mem_iff, List.map_map]
      rfl
  rw [hnames, h.keys]
  cases (Evidence.gather o.caps values).describesObjects with
  | false => simp
  | true => simp [keysAmong, List.mem_eraseDups]

theorem Rendered.propertyNames_ascending (h : s.Rendered A o values) :
    s.written.propertyNames.Pairwise (· < ·) := by
  rw [propertyNames, member?_properties]
  cases s.own.object with
  | none => exact List.Pairwise.nil
  | some _ =>
    have hnodup : ((s.properties.map fun p => (p.1, p.2.written)).map Prod.fst).Nodup := by
      rw [List.map_map]
      exact h.keys_nodup
    have hle := List.pairwise_map.mpr (sortByKey_pairwise (s.properties.map fun p =>
      (p.1, p.2.written)))
    have hne := sortByKey_keys_nodup hnodup
    exact (hle.and hne).imp fun hab => Std.lt_of_le_of_ne hab.1 hab.2

/-- the keys that are required are those that the policy asks for, where objects are described -/
theorem Rendered.mem_requiredNames (h : s.Rendered A o values) (k : String) :
    k ∈ s.written.requiredNames ↔ (Evidence.gather o.caps values).describesObjects = true
      ∧ o.requiredPolicy.Asks values k := by
  rw [requiredNames_written, h.object]
  cases (Evidence.gather o.caps values).describesObjects with
  | false => simp
  | true =>
    show k ∈ o.requiredPolicy.keysOf values ↔ _
    rw [Policy.mem_keysOf]
    simp

/-- a schema that is rendered for values tells their keys -/
theorem Rendered.tellsKeys (h : s.Rendered A o values) (hne : values ≠ []) :
    s.written.TellsKeys o.requiredPolicy values := by
  have hdescribed : (s.written.member? "properties").isSome = true
      ↔ (Evidence.gather o.caps values).describesObjects = true := by
    rw [member?_properties, ← h.describesObjects]
    cases s.own.object <;> rfl
  refine ⟨hne, hdescribed.trans Evidence.describesObjects_iff, h.propertyNames_ascending,
    fun hproperties k => ?_, ?_, ?_, fun k => ?_⟩
  · rw [h.mem_propertyNames]
    exact and_iff_right (hdescribed.mp hproperties)
  · rw [requiredNames_written, member?_required]
    cases s.own.object <;> rfl
  · rw [requiredNames_written, h.object]
    split
    · exact (OrdSet.ascending _).imp fun hab => compareOfLessAndEq_eq_lt.mp hab
    · exact List.Pairwise.nil
  · rw [h.mem_requiredNames]
    cases o.requiredPolicy with
    | loose => exact iff_of_eq (and_false _)
    | observed =>
      show _ ∧ values ≠ [] ∧ (∀ v ∈ values, v.follow (.key k) ≠ []) ↔ ∀ v ∈ values, k ∈ v.keys
      simp only [← mem_keys]
      constructor
      · exact fun hall => hall.2.2
      · intro hall
        exact ⟨Evidence.describesObjects_iff.mpr (seen_object_of_common_key hne hall), hne, hall⟩
    | strict =>
      show _ ∧ (∃ v ∈ values, v.follow (.key k) ≠ []) ↔ k ∈ s.written.propertyNames
      simp only [← mem_keys]
      exact (h.mem_propertyNames k).symm

/-- whether there is a schema at a position is a matter of the values alone -/
theorem Rendered.at?_isSome {o' : Options} {t : Schema} (hs : s.Rendered A o values)
    (ht : t.Rendered A o' values) (p : Position) : (s.at? p).isSome = (t.at? p).isSome := by
  induction p generalizing values s t with
  | nil => rfl
  | cons x p ih =>
    have hd : (Evidence.gather o.caps values).describes x = true
        ↔ (Evidence.gather o'.caps values).describes x = true := by
      rw [Evidence.describes_iff, Evidence.describes_iff]
    rw [at?_cons, at?_cons]
    rcases hs.step? x with ⟨u, hu, hdu, hne, hur⟩ | ⟨hnone, hnil⟩
    · rcases ht.step? x with ⟨w, hw, _, _, hwr⟩ | ⟨_, hnil'⟩
      · rw [hu, hw]
        exact ih hur hwr
      · exact absurd (hnil' (hd.mp hdu)) hne
    · rcases ht.step? x with ⟨_, _, hdw, hne', _⟩ | ⟨hnone', _⟩
      · exact absurd (hnil (hd.mpr hdw)) hne'
      · rw [hnone, hnone']

end Schema

theorem Value.isSome_of_mem_propertyNames {f : Value} {k : String} (h : k ∈ f.propertyNames) :
    (f.member? "properties").isSome = true := by
  rw [propertyNames] at h
  cases hp : f.member? "properties" with
  | none =>
    rw [hp] at h
    cases h
  | some _ => rfl

/-- a stronger policy requires no fewer keys -/
theorem Value.TellsKeys.subset {weak strong : Policy} (hrank : weak.rank ≤ strong.rank)
    {values : List Value} {f f' : Value} (h : f.TellsKeys weak values)
    (h' : f'.TellsKeys strong values) : f.requiredNames ⊆ f'.requiredNames := by
  intro k hk
  rw [h'.required]
  have hasked := (h.required k).mp hk
  cases weak with
  | loose => exact absurd hasked id
  | observed =>
    cases strong with
    | loose => exact absurd hrank (by decide)
    | observed => exact hasked
    | strict =>
      obtain ⟨v, hv⟩ := List.exists_mem_of_ne_nil _ h.found
      have hdescribed := h'.described.mpr (seen_object_of_common_key h.found hasked)
      exact (h'.keys hdescribed k).mpr ⟨v, hv, hasked v hv⟩
  | strict =>
    cases strong with
    | loose => exact absurd hrank (by decide)
    | observed => exact absurd hrank (by decide)
    | strict =>
      have hproperties := isSome_of_mem_propertyNames hasked
      have hdescribed := h'.described.mpr (h.described.mp hproperties)
      exact (h'.keys hdescribed k).mpr ((h.keys hproperties k).mp hasked)

/-! ### inferring keys -/

/-- under a stronger policy the same fragments require no fewer keys -/
theorem Inference.requiredNames_subset {m : Machine} {o o' : Options} {samples : List Value}
    (hne : samples ≠ []) (hs : ∀ v ∈ samples, v.Followed o.maxDepth)
    (hs' : ∀ v ∈ samples, v.Followed o'.maxDepth)
    (hrank : o.requiredPolicy.rank ≤ o'.requiredPolicy.rank) {schema schema' : Value}
    (ha : (infer m o samples).answer = .ok schema) (ha' : (infer m o' samples).answer = .ok schema')
    {p : Position} {f : Value} (hf : schema.withoutHeading.fragment? p = some f) :
    ∃ f', schema'.withoutHeading.fragment? p = some f' ∧ f.requiredNames ⊆ f'.requiredNames := by
  have hjson : ∀ v ∈ samples, v.Json := fun v hv => (hs v hv).json
  obtain ⟨s, hr, rfl⟩ := rendered_of_answer (Account.outline_kept o.caps) hne hjson hs ha
  obtain ⟨t, hr', rfl⟩ := rendered_of_answer (Account.outline_kept o'.caps) hne hjson hs' ha'
  rw [Schema.withoutHeading_writtenAfter o.heading_names, hr.fragment?_written] at hf
  rw [Schema.withoutHeading_writtenAfter o'.heading_names, hr'.fragment?_written]
  obtain ⟨u, hu, rfl⟩ := Option.map_eq_some_iff.mp hf
  have hsome := hr.at?_isSome hr' p
  rw [hu] at hsome
  obtain ⟨w, hw⟩ := Option.isSome_iff_exists.mp hsome.symm
  obtain ⟨hur, hfound⟩ := hr.at? hne hu
  obtain ⟨hwr, _⟩ := hr'.at? hne hw
  rw [hw]
  exact ⟨w.written, rfl, (hur.tellsKeys hfound).subset hrank (hwr.tellsKeys hfound)⟩

/-- every fragment of an inferred schema tells the keys of the values at its position; the stronger
the policy, the more of them are required -/
theorem infer_tellsKeys (m : Machine) {o : Options} {samples : List Value} (hne : samples ≠ [])
    (hs : ∀ v ∈ samples, v.Followed o.maxDepth) :
    ((infer m o samples).Returns m o fun schema => ∀ p fragment,
        schema.withoutHeading.fragment? p = some fragment →
          fragment.TellsKeys o.requiredPolicy (valuesAt p samples))
      ∧ ∀ o' schema schema', (∀ v ∈ samples, v.Followed o'.maxDepth) →
        o.requiredPolicy.rank ≤ o'.requiredPolicy.rank →
        (infer m o samples).answer = .ok schema → (infer m o' samples).answer = .ok schema' →
        ∀ p f, schema.withoutHeading.fragment? p = some f →
          ∃ f', schema'.withoutHeading.fragment? p = some f'
            ∧ f.requiredNames ⊆ f'.requiredNames :=
  ⟨Inference.returns_fragments (Account.outline_kept o.caps) hne (fun v hv => (hs v hv).json) hs
      fun _ _ hrendered hfound => hrendered.tellsKeys hfound,
    fun _ _ _ hs' hrank ha ha' _ _ hf =>
      Inference.requiredNames_subset hne hs hs' hrank ha ha' hf⟩

/-- a list of objects with one key in common, one of which holds a nan, and no list beside it -/
def rows : List Value :=
  [.obj [("rows", .arr [.obj [("x", .null), ("id", .num (.nan 0))]])], .obj [("rows", .null)],
    .obj [("rows", .arr [.obj [("id", .int 1)]]), ("more", .bool true)]]

/-- options under which every key that is seen is required -/
def Options.strictKeys : Options := { Options.default with requiredPolicy := .strict }

theorem infer_tellsKeys_rows : ∃ schema strict fragment fragment',
    (infer .least .default rows).answer = .ok schema
      ∧ (infer .least .strictKeys rows).answer = .ok strict
      ∧ schema.withoutHeading.fragment? [.key "rows", .element] = some fragment
      ∧ strict.withoutHeading.fragment? [.key "rows", .element] = some fragment'
      ∧ (∀ k, k ∈ fragment.requiredNames ↔ k = "id") ∧ "id" ∈ fragment'.requiredNames := by
  have hne : rows ≠ [] := List.cons_ne_nil _ _
  have hs : ∀ v ∈ rows, v.Followed Options.default.maxDepth := by decide
  have hs' : ∀ v ∈ rows, v.Followed Options.strictKeys.maxDepth := by decide
  obtain ⟨hreturns, hpolicies⟩ := infer_tellsKeys .least hne hs
  obtain ⟨schema, ha, hfragments⟩ := hreturns.exists_of_le (by decide)
  obtain ⟨strict, ha', _⟩ := (infer_tellsKeys .least hne hs').1.exists_of_le (by decide)
  have hfragment : ((infer .least .default rows).answer.toOption.map fun schema =>
      (schema.withoutHeading.fragment? [.key "rows", .element]).isSome) = some true := by decide
  rw [ha] at hfragment
  obtain ⟨fragment, hf⟩ := Option.isSome_iff_exists.mp (Option.some.inj hfragment)
  obtain ⟨fragment', hf', hsub⟩ :=
    hpolicies .strictKeys schema strict hs' (by decide) ha ha' _ _ hf
  have hrequired : ∀ k, k ∈ fragment.requiredNames ↔ k = "id" := by
    intro k
    rw [(hfragments _ _ hf).required]
    constructor
    · intro h
      exact List.mem_singleton.mp
        (h (.obj [("id", .int 1)]) (List.mem_cons_of_mem _ List.mem_cons_self))
    · rintro rfl
      show ∀ v ∈ valuesAt [.key "rows", .element] rows, "id" ∈ keys v
      decide
  exact ⟨schema, strict, fragment, fragment', ha, ha', hf, hf', hrequired,
    hsub ((hrequired "id").mpr rfl)⟩

end JsonShape
