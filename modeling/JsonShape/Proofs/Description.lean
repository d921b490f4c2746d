import JsonShape.Proofs.Keywords
import JsonShape.Proofs.Written

/-!
# Schemas that describe values

A schema describes a list of values if it is rendered from a tree that records them.  The tree can
then be forgotten: what the schema says of the position is a function of the values, and one step
down it describes the values found there, if it describes their kind and there are any.

Rendered from a tree that reflects the values in part only, a schema still has the keys of their
objects, and a schema for each; and the same can be said of it one step down.

* `Schema.Rendered.step?`           one step down, a schema is rendered for the values there;
* `Schema.Rendered.at?`             and so at every position;
* `Schema.Rendered.object`          what is said of keys depends on those of the values;
* `Schema.Describes.own`            the keywords are those of the values;
* `Schema.Describes.unique`         no two schemas describe the same values;
* `Schema.Describes.validates_iff`  a value is valid if the keywords of the values admit it, and all
                                    that lies below it is valid there.
-/

namespace JsonShape

/-! ### keywords as a function of values -/

theorem mem_keysAmong {values : List Value} {k : String} :
    k ∈ keysAmong values ↔ valuesBelow (.key k) values ≠ [] := by
  rw [keysAmong, List.mem_flatMap, valuesBelow_ne_nil]
  simp only [Value.mem_keys]

/-- the keys that a policy asks for, ascending -/
def Policy.keysOf (policy : Policy) (values : List Value) : List String :=
  (OrdSet.ofList ((keysAmong values).filter fun k =>
    policy.requires (valuesBelow (.key k) values).length values.length)).toList

theorem Policy.mem_keysOf {policy : Policy} {values : List Value} {key : String} :
    key ∈ policy.keysOf values ↔ policy.Asks values key := by
  rw [keysOf, OrdSet.mem_ofList, List.mem_filter, mem_keysAmong, requires_iff]

theorem Policy.keysOf_eq {policy : Policy} {vs ws : List Value}
    (h : ∀ key, policy.Asks vs key ↔ policy.Asks ws key) :
    policy.keysOf vs = policy.keysOf ws := by
  refine eq_of_ascending (OrdSet.ascending _) (OrdSet.ascending _) fun key => ?_
  show key ∈ policy.keysOf vs ↔ key ∈ policy.keysOf ws
  rw [mem_keysOf, mem_keysOf, h]

/-- the keywords that are written for values -/
def Keywords.ofValues (o : Options) (values : List Value) : Keywords :=
  { Schema.keywords o values.length (Evidence.gather o.caps values) [] with
    object := if (Evidence.gather o.caps values).describesObjects then
        some ⟨o.requiredPolicy.keysOf values, o.additionalProperties⟩
      else none }

theorem Bounds.admits_of_spokenIf {α : Type} [LT α] [DecidableLT α] {b : Bounds α} {on : Bool}
    {x : α} (h : (b.spokenIf on).admits x = true) (hon : on = true) : b.admits x = true := by
  rw [hon] at h
  exact h

theorem Bounds.spokenIf_admits {α : Type} [LT α] [DecidableLT α] {b : Bounds α} {on : Bool} {x : α}
    (h : on = true → b.admits x = true) : (b.spokenIf on).admits x = true := by
  cases on with
  | true => exact h rfl
  | false => rfl

theorem Keywords.spoken_eq_some {format : Option Format} {f : Format} :
    spoken format = some f ↔ format = some f ∧ f.name ≠ "" := by
  cases format with
  | none => simp [spoken]
  | some g =>
    rw [spoken]
    split
    · rename_i hg
      constructor
      · intro h
        cases h
      · intro h
        obtain ⟨hfg, hf⟩ := h
        cases hfg
        exact absurd hg hf
    · rename_i hg
      constructor
      · intro h
        cases h
        exact ⟨rfl, hg⟩
      · exact And.left

theorem Bounds.admits_normal (b : Bounds Number) (n : Number) :
    b.admits n.normal = b.admits n := by
  rw [Bool.eq_iff_iff, admits_iff, admits_iff]
  simp only [Number.normal_lt, Number.lt_normal]

/-- a policy that does not ask for every key seen asks for those that all values have -/
theorem Policy.Asks.follow_ne_nil {policy : Policy} {values : List Value} {key : String}
    (h : policy.Asks values key) (hp : policy ≠ .strict) :
    ∀ v ∈ values, v.follow (.key key) ≠ [] := by
  cases policy with
  | loose => exact absurd h id
  | observed => exact h.2
  | strict => exact absurd rfl hp

namespace Keywords
variable {o : Options} {values : List Value}

theorem mem_object_ofValues {k : ObjectKeywords} : k ∈ (ofValues o values).object
    ↔ (Evidence.gather o.caps values).describesObjects = true
      ∧ k = ⟨o.requiredPolicy.keysOf values, o.additionalProperties⟩ := by
  show (if (Evidence.gather o.caps values).describesObjects then
      some ⟨o.requiredPolicy.keysOf values, o.additionalProperties⟩ else none) = some k ↔ _
  cases (Evidence.gather o.caps values).describesObjects with
  | false => simp
  | true => simp [eq_comm]

/-- the format that is written is that of every string, if there is one -/
theorem mem_format_ofValues {f : Format} : f ∈ spoken (ofValues o values).format
    ↔ o.detectFormats.isTruthy = true ∧ f.name ≠ "" ∧ values.filterMap Value.outcome? ≠ []
      ∧ ∀ outcome ∈ values.filterMap Value.outcome?, outcome = some f := by
  have hseen : values.filterMap Value.outcome? ≠ [] → Seen values .string := by
    intro hne
    obtain ⟨x, hx⟩ := List.exists_mem_of_ne_nil _ hne
    obtain ⟨v, hv, hvx⟩ := List.mem_filterMap.mp hx
    exact ⟨v, hv, Value.exists_outcome.mp ⟨x, hvx⟩⟩
  have hformat : (ofValues o values).format
      = if (Evidence.gather o.caps values).types.contains .string && o.detectFormats.isTruthy
        then Format.agreed (Evidence.gather o.caps values).formats else none := rfl
  rw [Option.mem_def, spoken_eq_some, hformat, Evidence.gather_formats]
  constructor
  · intro h
    obtain ⟨hif, hname⟩ := h
    split at hif
    · rename_i hon
      exact ⟨(Bool.and_eq_true_iff.mp hon).2, hname, Format.agreed_ofList.mp hif⟩
    · cases hif
  · intro h
    obtain ⟨hon, hname, hne, hall⟩ := h
    rw [Evidence.contains_types.mpr (hseen hne), hon]
    exact ⟨Format.agreed_ofList.mpr ⟨hne, hall⟩, hname⟩

theorem enum_eq : (ofValues o values).enum
    = if (Evidence.gather o.caps values).typeKeyword.isEnumerable
          && Evidence.fits o.caps o.enumThreshold (Evidence.candidates values).size
      then (Evidence.candidates values).toList.map Candidate.value else [] :=
  Evidence.enumeration_gather (Int.natCast_nonneg _) o.enumThreshold

/-- values of an enumerated type are enumerated if they fit -/
theorem enum_of_enumerable (hne : values ≠ []) (hr : ∀ v ∈ values, v.Regular)
    (htype : (Evidence.gather o.caps values).typeKeyword.isEnumerable = true)
    (hfits : Evidence.fits o.caps o.enumThreshold (Evidence.candidates values).size = true) :
    (ofValues o values).enum ≠ []
      ∧ (ofValues o values).enum
        = (Evidence.candidates values).toList.map Candidate.value := by
  have heq : (ofValues o values).enum
      = (Evidence.candidates values).toList.map Candidate.value := by
    rw [enum_eq, htype, hfits]
    rfl
  obtain ⟨v, hv⟩ := List.exists_mem_of_ne_nil _ hne
  have htag := Evidence.tag_of_enumerable htype (Evidence.typeKeyword_of_mem hr hv)
  obtain ⟨_, _, hc⟩ := Value.candidate?_of_tag htag
  have hmem := Evidence.mem_candidates.mpr ⟨v, hv, hc⟩
  rw [heq]
  exact ⟨List.ne_nil_of_mem (List.mem_map_of_mem hmem), rfl⟩

/-- what is enumerated for values, if anything is -/
theorem enum_ofValues (hne : (ofValues o values).enum ≠ []) :
    (Evidence.gather o.caps values).typeKeyword.isEnumerable = true
      ∧ Evidence.fits o.caps o.enumThreshold (Evidence.candidates values).size = true
      ∧ (ofValues o values).enum
        = (Evidence.candidates values).toList.map Candidate.value := by
  rw [enum_eq] at hne ⊢
  split at hne
  · rename_i h
    obtain ⟨htype, hfits⟩ := Bool.and_eq_true_iff.mp h
    rw [if_pos h]
    exact ⟨htype, hfits, rfl⟩
  · exact absurd rfl hne

end Keywords

/-- whether the keywords that are written for values admit one -/
def Admitted (o : Options) (ρ : Reading) (values : List Value) (v : Value) : Prop :=
  (Keywords.ofValues o values).Admits ρ (keysAmong values) v

theorem Value.others_eq_nil {known : List String} {v : Value} :
    Value.others known v = [] ↔ ∀ k ∈ v.keys, k ∈ known := by
  cases v with
  | obj members => simp [others, keys, List.filter_eq_nil_iff]
  | _ => simp [others, keys]

/-- the tag of the values that have something this step down -/
def Step.tag : Step → Tag
  | .key _ => .object
  | .element => .array

/-- the tag that keeps what lies this step down from being described -/
def Step.rival : Step → Tag
  | .key _ => .array
  | .element => .object

theorem Value.tag?_of_mem_follow {x : Step} {v w : Value} (h : w ∈ v.follow x) :
    v.tag? = some x.tag := by
  rcases mem_follow h with ⟨items, rfl | rfl, rfl, _⟩ | ⟨members, k, rfl, rfl, _⟩
  · rfl
  · rfl
  · rfl

theorem Value.tag?_of_mem_others {known : List String} {v w : Value} (h : w ∈ others known v) :
    v.tag? = some .object := by
  cases v with
  | obj _ => rfl
  | _ => cases h

/-- whether what lies one step down is described: objects and arrays are, unless both were seen -/
def Evidence.describes (e : Evidence) : Step → Bool
  | .key _ => e.describesObjects
  | .element => e.describesArrays

theorem Evidence.describes_iff {caps : Caps} {values : List Value} {x : Step} :
    (gather caps values).describes x = true ↔ Seen values x.tag ∧ ¬ Seen values x.rival := by
  cases x with
  | key _ => exact describesObjects_iff
  | element => exact describesArrays_iff

namespace Schema

/-! ### describing values -/

variable {A : Account} {o : Options} {values : List Value} {s : Schema} {ρ : Reading}

/-- the schema is rendered from a tree that reflects the values -/
def Rendered (A : Account) (o : Options) (values : List Value) (s : Schema) : Prop :=
  ∃ t : Tree, t.Reflects A values ∧ s = ofTree o values.length t

/-- the schema is rendered from a tree that records the values -/
abbrev Describes (o : Options) (values : List Value) (s : Schema) : Prop :=
  s.Rendered (.gathered o.caps) o values

theorem requiredKeys_eq (policy : Policy) {t : Tree} (ht : t.Reflects A values) :
    requiredKeys policy values.length t.properties = policy.keysOf values := by
  refine eq_of_ascending (OrdSet.ascending _) (OrdSet.ascending _) fun key => ?_
  show key ∈ requiredKeys policy values.length t.properties ↔ key ∈ policy.keysOf values
  rw [mem_requiredKeys ht, Policy.mem_keysOf]

/-- the types alone decide what is described -/
theorem describes_eq (caps : Caps) {t : Tree} (ht : t.Reflects A values) (x : Step) :
    t.here.describes x = (Evidence.gather caps values).describes x := by
  have htypes : t.here.types = (Evidence.gather caps values).types :=
    ht.outlines.types.trans (Evidence.gather_types values).symm
  cases x <;> simp only [Evidence.describes, Evidence.describesObjects, Evidence.describesArrays,
    htypes]

theorem step?_ofTree {t : Tree} (ht : t.Reflects A values) (x : Step) :
    (ofTree o values.length t).step? x = if (Evidence.gather o.caps values).describes x then
      (t.step? x).map (ofTree o (valuesBelow x values).length) else none := by
  have hin := ht.inner x
  have hcount := ht.outlines.itemCount
  rw [← describes_eq o.caps ht]
  obtain ⟨here, properties, items⟩ := t
  cases x with
  | key k =>
    show (if here.describesObjects then ofProperties o properties else []).lookup k
      = if here.describesObjects then (properties.lookup k).map _ else none
    split
    · rw [ofProperties_eq_map, lookup_map fun u : Tree => ofTree o u.here.presence u]
      cases hl : properties.lookup k with
      | none => rfl
      | some u =>
        have hs : Tree.step? ⟨here, properties, items⟩ (.key k) = some u := hl
        rw [hs] at hin
        rw [Option.map_some, Option.map_some, hin.2.1]
        rfl
    · rfl
  | element =>
    show (if here.describesArrays then ofItems o here.itemCount items else none)
      = if here.describesArrays then items.map _ else none
    rw [ofItems_eq_map, hcount]

namespace Rendered

/-- where objects are described, it is said which keys are required -/
theorem object (h : s.Rendered A o values) : s.own.object
    = if (Evidence.gather o.caps values).describesObjects then
        some ⟨o.requiredPolicy.keysOf values, o.additionalProperties⟩
      else none := by
  obtain ⟨t, ht, rfl⟩ := h
  have hd : t.here.describesObjects = (Evidence.gather o.caps values).describesObjects :=
    describes_eq o.caps ht (.key "")
  rw [own_ofTree, ← hd, ← requiredKeys_eq o.requiredPolicy ht]
  rfl

/-- one step down a schema is rendered for the values there; or none is, their kind not being
described or there being none -/
theorem step? (h : s.Rendered A o values) (x : Step) :
    (∃ u, s.step? x = some u ∧ (Evidence.gather o.caps values).describes x = true
        ∧ valuesBelow x values ≠ [] ∧ u.Rendered A o (valuesBelow x values))
      ∨ s.step? x = none ∧ ((Evidence.gather o.caps values).describes x = true →
          valuesBelow x values = []) := by
  obtain ⟨t, ht, rfl⟩ := h
  have hin := ht.inner x
  rw [step?_ofTree ht]
  cases hd : (Evidence.gather o.caps values).describes x with
  | false => exact Or.inr ⟨rfl, fun h => absurd h Bool.false_ne_true⟩
  | true =>
    rw [if_pos rfl]
    cases hx : t.step? x with
    | none =>
      rw [hx] at hin
      exact Or.inr ⟨rfl, fun _ => hin⟩
    | some u =>
      rw [hx] at hin
      exact Or.inl ⟨_, rfl, rfl, hin.1, u, hin.2.2, rfl⟩

/-- where objects are described, the keys stand in the order in which the values have them first -/
theorem keys (h : s.Rendered A o values) : s.properties.map Prod.fst
    = if (Evidence.gather o.caps values).describesObjects then (keysAmong values).eraseDups
      else [] := by
  obtain ⟨t, ht, rfl⟩ := h
  have hk := ht.keys
  have hd : t.here.describesObjects = (Evidence.gather o.caps values).describesObjects :=
    describes_eq o.caps ht (.key "")
  rw [← hd, ← hk]
  obtain ⟨here, properties, items⟩ := t
  show (if here.describesObjects then ofProperties o properties else []).map Prod.fst = _
  split
  · rw [ofProperties_eq_map, List.map_map]
    rfl
  · rfl

theorem keys_nodup (h : s.Rendered A o values) : (s.properties.map Prod.fst).Nodup := by
  rw [h.keys]
  split
  · exact nodup_eraseDups _
  · exact List.nodup_nil

theorem describesObjects (h : s.Rendered A o values) :
    s.own.object.isSome = (Evidence.gather o.caps values).describesObjects := by
  rw [h.object]
  cases (Evidence.gather o.caps values).describesObjects <;> rfl

theorem properties_eq_nil (h : s.Rendered A o values) (ho : s.own.object = none) :
    s.properties = [] := by
  have hd := h.describesObjects
  rw [ho] at hd
  have hkeys := h.keys
  rw [← hd] at hkeys
  exact List.map_eq_nil_iff.mp hkeys

/-- where objects are described, the keys with a schema are those of the values -/
theorem mem_properties (h : s.Rendered A o values) (ho : s.own.object.isSome = true)
    (key : String) : key ∈ s.properties.map Prod.fst ↔ key ∈ keysAmong values := by
  rw [h.keys, ← h.describesObjects, ho, if_pos rfl, List.mem_eraseDups]

/-- at a position of the schema one is rendered for the values there -/
theorem at? {p : Position} {u : Schema} (hs : s.Rendered A o values) (hne : values ≠ [])
    (hu : s.at? p = some u) : u.Rendered A o (valuesAt p values) ∧ valuesAt p values ≠ [] := by
  induction p generalizing values s with
  | nil =>
    cases hu
    exact ⟨hs, hne⟩
  | cons x p ih =>
    rcases hs.step? x with ⟨w, hw, _, hsome, hdw⟩ | ⟨hnone, _⟩
    · rw [at?_cons, hw] at hu
      exact ih hdw hsome hu
    · rw [at?_cons, hnone] at hu
      cases hu

end Rendered

namespace Describes

theorem own (h : s.Describes o values) : s.own = Keywords.ofValues o values := by
  obtain ⟨t, ht, rfl⟩ := h
  rw [own_ofTree, Tree.Records.here ht]
  show keywords o values.length (Evidence.gather o.caps values) t.properties = _
  rw [keywords, requiredKeys_eq o.requiredPolicy ht]
  rfl

/-- a schema after a heading is read in terms of the values that it describes -/
theorem validates_iff (h : s.Describes o values) {v : Value} {heading : List (String × Value)}
    (hh : (heading.map Prod.fst).Sublist headings) :
    (s.writtenAfter heading).validates ρ v = true
      ↔ Admitted o ρ values v
        ∧ ∀ x u, s.step? x = some u → ∀ w ∈ v.follow x, u.written.validates ρ w = true := by
  rw [validates_writtenAfter hh h.keys_nodup h.properties_eq_nil, Admitted, ← h.own]
  have hkeys := h.mem_properties
  constructor
  · intro hv
    exact ⟨hv.1.congr_known hkeys, hv.2⟩
  · intro hv
    exact ⟨hv.1.congr_known fun ho key => (hkeys ho key).symm, hv.2⟩

/-- induction on a schema that describes values, from the schemas one step down -/
theorem induction {P : (values : List Value) → (s : Schema) → s.Describes o values → Prop}
    (h : ∀ values s (hs : s.Describes o values), (∀ x u, s.step? x = some u →
      ∀ hu : u.Describes o (valuesBelow x values), P (valuesBelow x values) u hu) → P values s hs)
    (values : List Value) (s : Schema) (hs : s.Describes o values) : P values s hs := by
  obtain ⟨t, ht, rfl⟩ := id hs
  induction ht with
  | @intro values t here keys absent present counted below ih =>
    have ht : t.Records o.caps values := .intro here keys absent present counted below
    refine h values _ hs fun x u hu hdu => ?_
    rw [step?_ofTree ht] at hu
    split at hu
    · obtain ⟨t', ht', rfl⟩ := Option.map_eq_some_iff.mp hu
      exact ih x t' ht' hdu
    · cases hu

/-- values are described by one schema only -/
theorem unique {t : Schema} (hs : s.Describes o values) (ht : t.Describes o values) : s = t := by
  induction values, s, hs using Describes.induction generalizing t with
  | h values s hs ih =>
    -- the values alone decide whether anything is described one step down
    have hstep : ∀ x, s.step? x = t.step? x := by
      intro x
      rcases hs.step? x with ⟨u, hu, hd, hne, hdu⟩ | ⟨hnone, hnil⟩
      · rcases ht.step? x with ⟨u', hu', _, _, hdu'⟩ | ⟨_, hnil'⟩
        · rw [hu, hu', ih x u hu hdu hdu']
        · exact absurd (hnil' hd) hne
      · rcases ht.step? x with ⟨u', _, hd', hne', _⟩ | ⟨hnone', _⟩
        · exact absurd (hnil hd') hne'
        · rw [hnone, hnone']
    have hown : s.own = t.own := hs.own.trans ht.own.symm
    have hproperties : s.properties = t.properties :=
      eq_of_lookup (hs.keys.trans ht.keys.symm) hs.keys_nodup fun k => hstep (.key k)
    have hitems : s.items = t.items := hstep .element
    obtain ⟨own, properties, items⟩ := s
    obtain ⟨own', properties', items'⟩ := t
    cases hown
    cases hproperties
    cases hitems
    rfl

end Describes
end Schema
end JsonShape
