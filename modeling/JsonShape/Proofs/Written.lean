import JsonShape.Proofs.Keys
import JsonShape.Proofs.Numbers
import JsonShape.Schema.Document
import JsonShape.Schema.Validate

/-!
# Reading a written schema

A schema is written as an object with sorted keys.  Read back as a JSON Schema, it validates what
the keywords of its position admit, if what lies one step below is validated by the schemas there.
The heading of a document says nothing about values.
-/

namespace JsonShape
open Value

/-! ### one keyword -/

namespace Keywords

/-- what the keywords of a position ask of a value; `known` are the keys that have a schema -/
structure Admits (k : Keywords) (ρ : Reading) (known : List String) (v : Value) : Prop where
  type : k.type.admits v = true
  required : ∀ o ∈ k.object, ∀ members, v = obj members → ∀ key ∈ o.required,
    (members.lookup key).isSome = true
  others : ∀ o ∈ k.object, ∀ w ∈ others known v, admitted ρ o.additional.sortKeys w = true
  sizes : ∀ n ∈ v.size?, k.sizes.admits n = true
  lengths : ∀ n ∈ v.length?, k.lengths.admits n = true
  format : ∀ f ∈ spoken k.format, ∀ outcome ∈ v.outcome?, outcome = some f
  numbers : ∀ n ∈ v.number?, k.numbers.admits n = true
  enum : k.enum ≠ [] → ∃ s ∈ k.enum, ∃ t ∈ v.scalar?, s.sameAs t = true

variable {ρ : Reading} {known : List String} {v : Value}

theorem all_optional {α : Type} {name : String} {f : α → Value} {x : Option α}
    {P : String × Value → Bool} :
    (optional name (x.map f)).all P = true ↔ ∀ a ∈ x, P (name, f a) = true := by
  cases x <;> simp [optional]

theorem all_nonempty {name : String} {l : List Value} {P : String × Value → Bool} :
    (nonempty name l).all P = true ↔ (l ≠ [] → P (name, .arr l) = true) := by
  cases l <;> simp [nonempty]

theorem ofType_toValue (type : TypeKeyword) : ofType type.toValue.sortKeys v = type.admits v := by
  cases type with
  | one tag => rfl
  | union tags =>
    show ofType (arr (sortItems (tags.map fun tag => str tag.name))) v = _
    rw [sortItems_eq_map, List.map_map]
    show (tags.map _).any _ = tags.any _
    rw [List.any_map]
    rfl

theorem holdsKeys_iff {keys : List String} :
    holdsKeys (arr (keys.map str)).sortKeys v = true
      ↔ ∀ members, v = obj members → ∀ key ∈ keys, (members.lookup key).isSome = true := by
  have hsort : (arr (keys.map str)).sortKeys = arr (keys.map str) := by
    show arr (sortItems (keys.map str)) = _
    rw [sortItems_eq_map, List.map_map]
    rfl
  rw [hsort]
  cases v with
  | obj members => simp [holdsKeys]
  | _ => simp [holdsKeys]

theorem bounds_iff {α : Type} [LT α] [DecidableLT α] {f : α → Number}
    (hf : ∀ a b, f a < f b ↔ a < b) (b : Bounds α) (quantity : Option α) :
    ((∀ l ∈ b.least, atLeast (num (f l)) (quantity.map f) = true)
        ∧ ∀ g ∈ b.greatest, atMost (num (f g)) (quantity.map f) = true)
      ↔ ∀ n ∈ quantity, b.admits n = true := by
  obtain ⟨l, g⟩ := b
  cases quantity with
  | none => simp [atLeast, atMost]
  | some n => cases l <;> cases g <;> simp [atLeast, atMost, Bounds.admits, hf]

theorem ofFormat_iff {f : Format} :
    ofFormat (str f.name) v = true ↔ ∀ outcome ∈ v.outcome?, outcome = some f := by
  cases v <;> simp [ofFormat, outcome?]

theorem enumerated_iff {given : List Scalar} :
    enumerated (arr (given.map Scalar.toValue)).sortKeys v = true
      ↔ ∃ s ∈ given, ∃ t ∈ v.scalar?, s.sameAs t = true := by
  have hsort : (arr (given.map Scalar.toValue)).sortKeys = arr (given.map Scalar.toValue) := by
    show arr (sortItems (given.map Scalar.toValue)) = _
    rw [sortItems_eq_map, List.map_map]
    congr 2
    funext s
    cases s <;> rfl
  rw [hsort]
  show (given.map Scalar.toValue).any _ = true ↔ _
  rw [List.any_map, List.any_eq_true]
  simp only [Function.comp_apply, scalar?_toValue]
  cases v.scalar? <;> simp

/-- what is said of objects, as keywords -/
def objectMembers : Option ObjectKeywords → List (String × Value)
  | some o => nonempty "required" (o.required.map .str) ++ [("additionalProperties", o.additional)]
  | none => []

theorem members_eq (k : Keywords) : k.members = [("type", k.type.toValue)] ++ objectMembers k.object
    ++ optional "minItems" (k.sizes.least.map .int)
    ++ optional "maxItems" (k.sizes.greatest.map .int)
    ++ optional "minLength" (k.lengths.least.map .int)
    ++ optional "maxLength" (k.lengths.greatest.map .int)
    ++ optional "format" ((spoken k.format).map fun f => .str f.name)
    ++ optional "minimum" (k.numbers.least.map .num)
    ++ optional "maximum" (k.numbers.greatest.map .num)
    ++ nonempty "enum" (k.enum.map Scalar.toValue)
    ++ nonempty "examples" k.examples := by
  rw [members]
  cases k.object <;> rfl

theorem objectMembers_hold {object : Option ObjectKeywords} :
    ((objectMembers object).all fun m => keywordHolds ρ known m.1 m.2.sortKeys v) = true
      ↔ (∀ o ∈ object, ∀ members, v = obj members → ∀ key ∈ o.required,
          (members.lookup key).isSome = true)
        ∧ ∀ o ∈ object, ∀ w ∈ others known v, admitted ρ o.additional.sortKeys w = true := by
  cases object with
  | none => simp [objectMembers]
  | some o =>
    rw [objectMembers, List.all_append, Bool.and_eq_true, all_nonempty, List.all_cons, List.all_nil,
      Bool.and_true]
    have hreq : (o.required.map str ≠ [] →
        keywordHolds ρ known "required" (arr (o.required.map str)).sortKeys v = true)
        ↔ ∀ members, v = obj members → ∀ key ∈ o.required,
          (members.lookup key).isSome = true := by
      show (_ → holdsKeys (arr (o.required.map str)).sortKeys v = true) ↔ _
      rw [holdsKeys_iff]
      cases o.required <;> simp
    have hadd : keywordHolds ρ known "additionalProperties" o.additional.sortKeys v = true
        ↔ ∀ w ∈ others known v, admitted ρ o.additional.sortKeys w = true := by
      show ((others known v).all _) = true ↔ _
      rw [List.all_eq_true]
    rw [hreq, hadd]
    simp

/-- the keywords of a position, sorted and read back, hold as they are meant -/
theorem admits_iff {k : Keywords} :
    (k.members.all fun m => keywordHolds ρ known m.1 m.2.sortKeys v) = true
      ↔ k.Admits ρ known v := by
  have hsizes := bounds_iff Number.int_lt_int k.sizes v.size?
  have hlengths := bounds_iff Number.int_lt_int k.lengths v.length?
  have hnumbers : (∀ l ∈ k.numbers.least, atLeast (num l) v.number? = true)
      ∧ (∀ g ∈ k.numbers.greatest, atMost (num g) v.number? = true)
      ↔ ∀ n ∈ v.number?, k.numbers.admits n = true := by
    have h := bounds_iff (f := fun n => n) (fun _ _ => Iff.rfl) k.numbers v.number?
    rwa [Option.map_id'] at h
  have hformat : (∀ f ∈ spoken k.format, ofFormat (str f.name) v = true)
      ↔ ∀ f ∈ spoken k.format, ∀ outcome ∈ v.outcome?, outcome = some f :=
    forall₂_congr fun _ _ => ofFormat_iff
  have henum : (k.enum.map Scalar.toValue ≠ [] →
      enumerated (arr (k.enum.map Scalar.toValue)).sortKeys v = true)
      ↔ (k.enum ≠ [] → ∃ s ∈ k.enum, ∃ t ∈ v.scalar?, s.sameAs t = true) := by
    rw [enumerated_iff, ne_eq, List.map_eq_nil_iff]
  rw [members_eq]
  simp only [List.all_append, Bool.and_eq_true, all_optional, all_nonempty, objectMembers_hold,
    List.all_cons, List.all_nil, Bool.and_true]
  rw [and_assoc, and_assoc, and_assoc, and_assoc, and_assoc, and_assoc, and_assoc, and_assoc,
    and_assoc]
  constructor
  · intro h
    obtain ⟨type, ⟨required, others⟩, minItems, maxItems, minLength, maxLength, format, minimum,
      maximum, enum, _⟩ := h
    have htype : ofType k.type.toValue.sortKeys v = true := type
    rw [ofType_toValue] at htype
    exact ⟨htype, required, others, hsizes.mp ⟨minItems, maxItems⟩,
      hlengths.mp ⟨minLength, maxLength⟩, hformat.mp format, hnumbers.mp ⟨minimum, maximum⟩,
      henum.mp enum⟩
  · intro h
    obtain ⟨minItems, maxItems⟩ := hsizes.mpr h.sizes
    obtain ⟨minLength, maxLength⟩ := hlengths.mpr h.lengths
    obtain ⟨minimum, maximum⟩ := hnumbers.mpr h.numbers
    have htype : ofType k.type.toValue.sortKeys v = true := by
      rw [ofType_toValue]
      exact h.type
    exact ⟨htype, ⟨h.required, h.others⟩, minItems, maxItems, minLength, maxLength,
      hformat.mpr h.format, minimum, maximum, henum.mpr h.enum, fun _ => rfl⟩

/-- only which keys are known matters, and only where objects are described -/
theorem Admits.congr_known {k : Keywords} {known' : List String} (h : k.Admits ρ known v)
    (hk : k.object.isSome = true → ∀ key, key ∈ known ↔ key ∈ known') : k.Admits ρ known' v where
  type := h.type
  required := h.required
  others o ho w hw := by
    have hsome : k.object.isSome = true := by
      rw [Option.mem_def.mp ho]
      rfl
    have heq : Value.others known' v = Value.others known v := by
      cases v with
      | obj members =>
        simp only [Value.others]
        congr 2
        funext m
        rw [Bool.eq_iff_iff]
        simp [hk hsome]
      | _ => rfl
    rw [heq] at hw
    exact h.others o ho w hw
  sizes := h.sizes
  lengths := h.lengths
  format := h.format
  numbers := h.numbers
  enum := h.enum

end Keywords

/-! ### a whole schema -/

namespace Schema

/-- the schema as an object with sorted keys -/
def written (s : Schema) : Value := s.toValue.sortKeys

/-- the schemas of object keys, as a keyword -/
def propertiesMembers (s : Schema) : List (String × Value) :=
  if s.own.object.isSome then
    [("properties", .obj (s.properties.map fun p => (p.1, p.2.toValue)))]
  else []

theorem members_eq (s : Schema) : s.members = s.own.members ++ s.propertiesMembers
    ++ Keywords.optional "items" (s.items.map toValue) := by
  obtain ⟨own, properties, items⟩ := s
  rw [members, propertyValues_eq_map, itemsValue_eq_map]
  rfl

/-- the names of all keywords of a schema, in the order in which they are written -/
def words : List String :=
  ["type", "required", "additionalProperties", "minItems", "maxItems", "minLength", "maxLength",
    "format", "minimum", "maximum", "enum", "examples", "properties", "items"]

/-- the names of those that speak of the position itself -/
def ownWords : List String :=
  ["type", "required", "additionalProperties", "minItems", "maxItems", "minLength", "maxLength",
    "format", "minimum", "maximum", "enum", "examples"]

theorem optional_names (name : String) (x : Option Value) :
    ((Keywords.optional name x).map Prod.fst).Sublist [name] := by
  cases x with
  | none => exact List.nil_sublist _
  | some _ => exact List.Sublist.refl _

theorem nonempty_names (name : String) (l : List Value) :
    ((Keywords.nonempty name l).map Prod.fst).Sublist [name] := by
  cases l with
  | nil => exact List.nil_sublist _
  | cons _ _ => exact List.Sublist.refl _

theorem own_members_names (k : Keywords) : (k.members.map Prod.fst).Sublist ownWords := by
  have hobject : ((Keywords.objectMembers k.object).map Prod.fst).Sublist
      (["required"] ++ ["additionalProperties"]) := by
    cases k.object with
    | none => exact List.nil_sublist _
    | some o =>
      rw [Keywords.objectMembers, List.map_append]
      exact (nonempty_names _ _).append (List.Sublist.refl _)
  rw [Keywords.members_eq]
  simp only [List.map_append]
  exact ((((((((((List.Sublist.refl ["type"]).append hobject).append (optional_names _ _)).append
    (optional_names _ _)).append (optional_names _ _)).append (optional_names _ _)).append
    (optional_names _ _)).append (optional_names _ _)).append (optional_names _ _)).append
    (nonempty_names _ _)).append (nonempty_names _ _)

theorem propertiesMembers_names (s : Schema) :
    (s.propertiesMembers.map Prod.fst).Sublist ["properties"] := by
  rw [propertiesMembers]
  split
  · exact List.Sublist.refl _
  · exact List.nil_sublist _

theorem members_names (s : Schema) : (s.members.map Prod.fst).Sublist words := by
  rw [members_eq, List.map_append, List.map_append]
  exact ((own_members_names s.own).append s.propertiesMembers_names).append (optional_names _ _)

/-- the names in the heading of a document -/
def headings : List String := ["$schema", "$id", "title"]

/-- the schema after a heading, with sorted keys -/
def writtenAfter (heading : List (String × Value)) (s : Schema) : Value :=
  (obj (heading ++ s.members)).sortKeys

variable {heading : List (String × Value)} {s : Schema} {ρ : Reading} {v : Value}

theorem writtenAfter_eq : s.writtenAfter heading
    = obj (sortByKey ((heading ++ s.members).map fun m => (m.1, m.2.sortKeys))) := by
  rw [← sortMembers_eq_map]
  rfl

/-- a heading, then the keywords: no name occurs twice -/
theorem nodup_names (hh : (heading.map Prod.fst).Sublist headings) :
    ((heading ++ s.members).map Prod.fst).Nodup := by
  rw [List.map_append]
  refine List.Nodup.sublist (hh.append s.members_names) ?_
  decide

theorem sortKeys_properties (properties : List (String × Schema)) :
    (obj (properties.map fun p => (p.1, p.2.toValue))).sortKeys
      = obj (sortByKey (properties.map fun p => (p.1, p.2.written))) := by
  show obj (sortByKey (sortMembers _)) = _
  rw [sortMembers_eq_map, List.map_map]
  rfl

theorem knownKeys_written (hh : (heading.map Prod.fst).Sublist headings)
    (ho : s.own.object.isSome = true) (key : String) :
    key ∈ knownKeys (sortByKey ((heading ++ s.members).map fun m => (m.1, m.2.sortKeys)))
      ↔ key ∈ s.properties.map Prod.fst := by
  have hnames : ((sortByKey ((heading ++ s.members).map
      fun m => (m.1, m.2.sortKeys))).map Prod.fst).Nodup := by
    apply sortByKey_keys_nodup
    rw [List.map_map]
    exact nodup_names hh
  have hmem : ("properties", obj (s.properties.map fun p => (p.1, p.2.toValue)))
      ∈ heading ++ s.members := by
    rw [members_eq, propertiesMembers, if_pos ho]
    simp
  have hfound := (lookup_iff_mem hnames).mpr
    ((sortByKey_perm _).mem_iff.mpr (List.mem_map_of_mem hmem))
  have hkeys := (sortByKey_perm (s.properties.map fun p => (p.1, p.2.written))).map Prod.fst
  rw [sortKeys_properties] at hfound
  rw [knownKeys, hfound]
  show key ∈ (sortByKey _).map Prod.fst ↔ _
  rw [hkeys.mem_iff, List.map_map]
  rfl

/-- what the schemas of object keys ask, one step down -/
theorem properties_hold (hk : (s.properties.map Prod.fst).Nodup)
    (ho : s.own.object = none → s.properties = []) {known : List String} :
    (s.propertiesMembers.all fun m => keywordHolds ρ known m.1 m.2.sortKeys v) = true
      ↔ ∀ key u, s.step? (.key key) = some u → ∀ w ∈ v.follow (.key key),
          u.written.validates ρ w = true := by
  rw [propertiesMembers]
  cases hobj : s.own.object with
  | none =>
    have hnil := ho hobj
    simp [step?, hnil]
  | some o =>
    rw [Option.isSome_some, if_pos rfl, List.all_cons, List.all_nil, Bool.and_true,
      sortKeys_properties]
    show membersHold ρ (sortByKey _) v = true ↔ _
    rw [membersHold_eq_all, (sortByKey_perm _).all_eq, List.all_map]
    simp only [List.all_eq_true, Function.comp_apply]
    constructor
    · intro h key u hu
      exact h (key, u) (mem_of_lookup hu)
    · intro h p hp
      exact h p.1 p.2 ((lookup_iff_mem hk).mpr hp)

/-- what the schema of elements asks, one step down -/
theorem items_hold {known : List String} :
    ((Keywords.optional "items" (s.items.map toValue)).all
      fun m => keywordHolds ρ known m.1 m.2.sortKeys v) = true
      ↔ ∀ u, s.step? .element = some u → ∀ w ∈ v.follow .element,
          u.written.validates ρ w = true := by
  rw [Keywords.all_optional]
  apply forall₂_congr
  intro u _
  show ((v.follow .element).all fun w => u.written.validates ρ w) = true ↔ _
  rw [List.all_eq_true]

theorem heading_holds (hh : (heading.map Prod.fst).Sublist headings) {known : List String} :
    (heading.all fun m => keywordHolds ρ known m.1 m.2.sortKeys v) = true := by
  rw [List.all_eq_true]
  intro m hm
  have hname : m.1 ∈ headings := hh.subset (List.mem_map_of_mem hm)
  generalize m.1 = name at hname ⊢
  simp only [headings, List.mem_cons, List.not_mem_nil, or_false] at hname
  rcases hname with rfl | rfl | rfl
  · rfl
  · rfl
  · rfl

/-- a written schema is read as what its keywords and the schemas below say -/
theorem validates_writtenAfter (hh : (heading.map Prod.fst).Sublist headings)
    (hk : (s.properties.map Prod.fst).Nodup) (ho : s.own.object = none → s.properties = []) :
    (s.writtenAfter heading).validates ρ v = true
      ↔ s.own.Admits ρ (s.properties.map Prod.fst) v
        ∧ ∀ x u, s.step? x = some u → ∀ w ∈ v.follow x, u.written.validates ρ w = true := by
  have hknown := fun hsome => knownKeys_written (s := s) hh hsome
  rw [writtenAfter_eq, validates_obj, (sortByKey_perm _).all_eq, List.all_map]
  generalize knownKeys (sortByKey _) = known at hknown ⊢
  show ((heading ++ s.members).all fun m => keywordHolds ρ known m.1 m.2.sortKeys v) = true ↔ _
  rw [List.all_append, heading_holds hh, Bool.true_and, members_eq, List.all_append,
    List.all_append, Bool.and_eq_true, Bool.and_eq_true, Keywords.admits_iff,
    properties_hold hk ho, items_hold]
  constructor
  · intro h
    obtain ⟨⟨hown, hkeys⟩, hitems⟩ := h
    refine ⟨hown.congr_known hknown, fun x => ?_⟩
    cases x with
    | key key => exact hkeys key
    | element => exact hitems
  · intro h
    obtain ⟨hown, hbelow⟩ := h
    exact ⟨⟨hown.congr_known fun hsome key => (hknown hsome key).symm,
      fun key => hbelow (.key key)⟩, hbelow .element⟩

/-! ### equal texts -/

theorem map_sortKeys_propertiesMembers (s : Schema) :
    s.propertiesMembers.map (fun m => (m.1, m.2.sortKeys)) = if s.own.object.isSome then
      [("properties", obj (sortByKey (s.properties.map fun p => (p.1, p.2.written))))] else [] := by
  rw [propertiesMembers]
  split
  · rw [List.map_cons, sortKeys_properties, List.map_nil]
  · rfl

theorem map_sortKeys_itemsMembers (items : Option Schema) :
    (Keywords.optional "items" (items.map toValue)).map (fun m => (m.1, m.2.sortKeys))
      = Keywords.optional "items" (items.map written) := by
  cases items <;> rfl

/-- schemas with the same keywords, and schemas written alike below them, are written alike -/
theorem writtenAfter_congr {t : Schema} (hown : s.own = t.own)
    (hs : (s.properties.map Prod.fst).Nodup) (ht : (t.properties.map Prod.fst).Nodup)
    (h : ∀ x, (s.step? x).map written = (t.step? x).map written)
    (heading : List (String × Value)) : s.writtenAfter heading = t.writtenAfter heading := by
  have hitems : s.items.map written = t.items.map written := h .element
  have hrow := sortByKey_map_eq hs ht fun key => h (.key key)
  rw [writtenAfter_eq, writtenAfter_eq]
  simp only [members_eq, List.map_append, map_sortKeys_propertiesMembers,
    map_sortKeys_itemsMembers, hown, hitems, hrow]

end Schema

/-! ### documents -/

namespace Document

/-- what a document says before its schema -/
def heading (d : Document) : List (String × Value) :=
  [("$schema", .str d.draftUri)] ++ Keywords.optional "$id" d.id
    ++ Keywords.optional "title" d.title

theorem heading_names (d : Document) : (d.heading.map Prod.fst).Sublist Schema.headings := by
  rw [heading, List.map_append, List.map_append]
  exact ((List.Sublist.refl ["$schema"]).append (Schema.optional_names _ _)).append
    (Schema.optional_names _ _)

theorem unsorted_eq (d : Document) :
    d.unsorted = .obj (d.heading ++ d.schema.elim [] Schema.members) := by
  rw [unsorted, heading]
  cases d.schema <;> rfl

theorem toValue_eq {d : Document} {s : Schema} (h : d.schema = some s) :
    d.toValue = s.writtenAfter d.heading := by
  rw [toValue, unsorted_eq, h]
  rfl

end Document
end JsonShape
