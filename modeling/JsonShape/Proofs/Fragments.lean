import JsonShape.Proofs.Answer

/-!
# Fragments of a schema

An inferred schema holds a schema for each key of objects and one for the elements of arrays, and so
on below: its fragments.  The fragment at a position is what is inferred from the values found there
when these are given as samples themselves.  It does not matter which objects and arrays they were
found in.  What a fragment says of its own position is read off it by name.

* `Schema.withoutHeading_writtenAfter`    without its heading a document is its schema;
* `Schema.member?_own`                    under a name stands the keyword of the position;
* `Schema.Rendered.fragment?_written`     the fragments are the schemas below, written alike;
* `Inference.returns_fragments`           what holds of every schema for values holds of fragments;
* `infer_fragments`                       a fragment is inferred from the values at its position.
-/

namespace JsonShape
open Value

/-! ### reading fragments -/

namespace Value

/-- the string that it is -/
def text? : Value → Option String
  | str s => some s
  | _ => none

/-- what stands under a name, in an object -/
def member? (name : String) : Value → Option Value
  | obj members => members.lookup name
  | _ => none

/-- the schema one step down, in a written schema -/
def subschema? : Step → Value → Option Value
  | .key name, schema => (schema.member? "properties").bind (member? name)
  | .element, schema => schema.member? "items"

/-- the fragment at a position of a written schema -/
def fragment? : Position → Value → Option Value
  | [], schema => some schema
  | x :: p, schema => (schema.subschema? x).bind (fragment? p)

/-- a list of values, unless it is empty -/
def listed : List Value → Option Value
  | [] => none
  | v :: r => some (arr (v :: r))

/-- a written schema without the heading of its document -/
def withoutHeading : Value → Value
  | obj members => obj (members.filter fun m => m.1 ∉ Schema.headings)
  | v => v

end Value

namespace Schema
variable {s : Schema} {heading : List (String × Value)}

theorem written_eq :
    s.written = obj (sortByKey (s.members.map fun m => (m.1, m.2.sortKeys))) := by
  rw [← sortMembers_eq_map]
  rfl

theorem withoutHeading_writtenAfter (hh : (heading.map Prod.fst).Sublist headings) :
    (s.writtenAfter heading).withoutHeading = s.written := by
  have hnames : (((heading ++ s.members).map fun m => (m.1, m.2.sortKeys)).map Prod.fst).Nodup := by
    rw [List.map_map]
    exact nodup_names hh
  have hout : (heading.map fun m => (m.1, m.2.sortKeys)).filter (fun m => m.1 ∉ headings) = [] := by
    rw [List.filter_eq_nil_iff]
    intro m hm
    obtain ⟨n, hn, rfl⟩ := List.mem_map.mp hm
    have hname : n.1 ∈ headings := hh.subset (List.mem_map_of_mem hn)
    simp [hname]
  have hleft : (s.members.map fun m => (m.1, m.2.sortKeys)).filter (fun m => m.1 ∉ headings)
      = s.members.map fun m => (m.1, m.2.sortKeys) := by
    have hapart : ∀ name ∈ words, name ∉ headings := by decide
    rw [List.filter_eq_self]
    intro m hm
    obtain ⟨n, hn, rfl⟩ := List.mem_map.mp hm
    exact decide_eq_true (hapart n.1 (s.members_names.subset (List.mem_map_of_mem hn)))
  rw [writtenAfter_eq, withoutHeading, filter_sortByKey hnames, List.map_append,
    List.filter_append, hout, hleft, written_eq]
  rfl

theorem member?_written (name : String) :
    s.written.member? name = (s.members.lookup name).map sortKeys := by
  have hnames : ((s.members.map fun m => (m.1, m.2.sortKeys)).map Prod.fst).Nodup := by
    rw [List.map_map]
    exact List.Nodup.sublist s.members_names (by decide)
  rw [written_eq, member?, lookup_sortByKey hnames, lookup_map]

/-- only some keywords hold schemas -/
theorem lookup_members {name : String} (h : name ∉ ownWords) : s.members.lookup name
    = (s.propertiesMembers ++ Keywords.optional "items" (s.items.map toValue)).lookup name := by
  have hnone : s.own.members.lookup name = none :=
    lookup_eq_none.mpr fun hmem => h ((own_members_names s.own).subset hmem)
  rw [members_eq, List.append_assoc, List.lookup_append, hnone]
  rfl

theorem member?_properties : s.written.member? "properties" = if s.own.object.isSome then
    some (obj (sortByKey (s.properties.map fun p => (p.1, p.2.written)))) else none := by
  rw [member?_written, lookup_members (by decide), propertiesMembers]
  cases s.own.object with
  | none => cases s.items <;> rfl
  | some _ => exact congrArg some (sortKeys_properties s.properties)

theorem member?_items : s.written.member? "items" = s.items.map written := by
  rw [member?_written, lookup_members (by decide), propertiesMembers]
  cases s.own.object <;> cases s.items <;> rfl

theorem subschema?_written (hk : (s.properties.map Prod.fst).Nodup)
    (ho : s.own.object = none → s.properties = []) (x : Step) :
    s.written.subschema? x = (s.step? x).map written := by
  cases x with
  | key name =>
    show (s.written.member? "properties").bind (member? name) = (s.properties.lookup name).map _
    rw [member?_properties]
    cases hobject : s.own.object with
    | none =>
      rw [ho hobject]
      rfl
    | some _ =>
      have hnames : ((s.properties.map fun p => (p.1, p.2.written)).map Prod.fst).Nodup := by
        rw [List.map_map]
        exact hk
      show (sortByKey _).lookup name = _
      rw [lookup_sortByKey hnames, lookup_map]
  | element => exact member?_items

/-! ### reading keywords -/

theorem listed_sorted {l : List Value} (h : ∀ v ∈ l, v.sortKeys = v) :
    (listed l).map sortKeys = listed l := by
  cases l with
  | nil => rfl
  | cons v r =>
    show some (arr (sortItems (v :: r))) = some (arr (v :: r))
    rw [sortItems_eq_map, List.map_congr_left h, List.map_id']

theorem lookup_optional (name k : String) (x : Option Value) :
    (Keywords.optional name x).lookup k = if k = name then x else none := by
  cases x with
  | none => simp [Keywords.optional]
  | some v => by_cases h : k = name <;> simp [Keywords.optional, h]

theorem lookup_nonempty (name k : String) (l : List Value) :
    (Keywords.nonempty name l).lookup k = if k = name then listed l else none := by
  cases l with
  | nil => simp [Keywords.nonempty, listed]
  | cons v r => by_cases h : k = name <;> simp [Keywords.nonempty, listed, h]

/-- what stands under the name of a keyword of the position itself -/
theorem member?_own {name : String} (h : name ∈ ownWords) :
    s.written.member? name = (s.own.members.lookup name).map sortKeys := by
  have hother : (s.propertiesMembers
      ++ Keywords.optional "items" (s.items.map toValue)).lookup name = none := by
    have hnames := s.propertiesMembers_names.append (optional_names "items" (s.items.map toValue))
    rw [← List.map_append] at hnames
    have hapart : ∀ word ∈ ownWords, word ∉ ["properties"] ++ ["items"] := by decide
    exact lookup_eq_none.mpr fun hmem => hapart name h (hnames.subset hmem)
  rw [member?_written, members_eq, List.append_assoc, List.lookup_append, hother, Option.or_none]

theorem lookup_type (k : String) (type : TypeKeyword) :
    [("type", type.toValue)].lookup k = if k = "type" then some type.toValue else none :=
  lookup_optional "type" k (some type.toValue)

theorem lookup_objectMembers (name : String) (object : Option ObjectKeywords) :
    (Keywords.objectMembers object).lookup name = object.bind fun k =>
      (if name = "required" then listed (k.required.map .str) else none).or
        (if name = "additionalProperties" then some k.additional else none) := by
  cases object with
  | none => rfl
  | some k =>
    rw [Keywords.objectMembers, List.lookup_append, lookup_nonempty, Option.bind_some]
    exact congrArg _ (lookup_optional "additionalProperties" name (some k.additional))

theorem member?_required : s.written.member? "required"
    = s.own.object.bind fun k => listed (k.required.map .str) := by
  have hlookup : s.own.members.lookup "required"
      = s.own.object.bind fun k => listed (k.required.map .str) := by
    rw [Keywords.members_eq]
    simp only [List.lookup_append, lookup_type, lookup_objectMembers, lookup_optional,
      lookup_nonempty]
    simp
  rw [member?_own (by decide), hlookup]
  cases s.own.object with
  | none => rfl
  | some k =>
    refine listed_sorted fun v hv => ?_
    obtain ⟨name, _, rfl⟩ := List.mem_map.mp hv
    rfl

theorem member?_enum :
    s.written.member? "enum" = listed (s.own.enum.map Scalar.toValue) := by
  have hlookup : s.own.members.lookup "enum" = listed (s.own.enum.map Scalar.toValue) := by
    rw [Keywords.members_eq]
    simp only [List.lookup_append, lookup_type, lookup_objectMembers, lookup_optional,
      lookup_nonempty]
    simp
  rw [member?_own (by decide), hlookup]
  refine listed_sorted fun v hv => ?_
  obtain ⟨scalar, _, rfl⟩ := List.mem_map.mp hv
  cases scalar <;> rfl

/-- the fragments of a written schema are the schemas below it, written -/
theorem Rendered.fragment?_written {A : Account} {o : Options} {values : List Value}
    (h : s.Rendered A o values) (p : Position) :
    s.written.fragment? p = (s.at? p).map written := by
  induction p generalizing values s with
  | nil => rfl
  | cons x p ih =>
    rw [fragment?, subschema?_written h.keys_nodup h.properties_eq_nil, at?_cons]
    rcases h.step? x with ⟨u, hu, _, _, hdu⟩ | ⟨hnone, _⟩
    · rw [hu]
      exact ih hdu
    · rw [hnone]
      rfl

end Schema

/-- what holds of every schema that is rendered for the values at a position holds of the fragment
there -/
theorem Inference.returns_fragments {A : Account} {P : Value → Prop} {m : Machine} {o : Options}
    {samples : List Value} (hA : A.Kept o.caps P) (hne : samples ≠ [])
    (hs : ∀ v ∈ samples, P v) (hf : ∀ v ∈ samples, v.Followed o.maxDepth)
    {Q : Position → Value → Prop} (h : ∀ p (s : Schema), s.Rendered A o (valuesAt p samples) →
      valuesAt p samples ≠ [] → Q p s.written) :
    (infer m o samples).Returns m o fun schema =>
      ∀ p fragment, schema.withoutHeading.fragment? p = some fragment → Q p fragment := by
  refine returns_rendered hA hne hs hf fun s hrendered p fragment hfragment => ?_
  rw [Schema.withoutHeading_writtenAfter o.heading_names, hrendered.fragment?_written] at hfragment
  obtain ⟨u, hu, rfl⟩ := Option.map_eq_some_iff.mp hfragment
  obtain ⟨hdu, hfound⟩ := hrendered.at? hne hu
  exact h p u hdu hfound

/-! ### inferring fragments -/

/-- the schema at a position lies within the whole -/
theorem Schema.Rendered.sortDepth_at?_le {A : Account} {o : Options} {values : List Value}
    {s u : Schema} (h : s.Rendered A o values) {p : Position} (hu : s.at? p = some u) :
    u.toValue.sortDepth ≤ s.toValue.sortDepth := by
  induction p generalizing values s with
  | nil =>
    cases hu
    exact Nat.le_refl _
  | cons x p ih =>
    rcases h.step? x with ⟨w, hw, _, _, hdw⟩ | ⟨hnone, _⟩
    · rw [at?_cons, hw] at hu
      exact Nat.le_trans (ih hdw hu) (sortDepth_step?_le h.properties_eq_nil hw)
    · rw [at?_cons, hnone] at hu
      cases hu

/-- what is inferred from the values at a position is the fragment there -/
theorem Inference.answer_valuesAt {m : Machine} {o : Options} {samples : List Value}
    (hne : samples ≠ []) (hs : ∀ v ∈ samples, v.Sample o.maxDepth) {schema : Value}
    (ha : (infer m o samples).answer = .ok schema) {p : Position} {fragment : Value}
    (hf : schema.withoutHeading.fragment? p = some fragment) :
    ∃ inner, (infer m o (valuesAt p samples)).answer = .ok inner
      ∧ inner.withoutHeading = fragment := by
  obtain ⟨s, hdesc, _, has⟩ := answer_infer (m := m) hne hs
  rw [ha] at has
  obtain ⟨hroom, hschema⟩ := Machine.answer_eq_ok.mp has.symm
  rw [← hschema, Schema.withoutHeading_writtenAfter o.heading_names,
    hdesc.fragment?_written] at hf
  obtain ⟨u, hu, rfl⟩ := Option.map_eq_some_iff.mp hf
  obtain ⟨hdu, hfound⟩ := hdesc.at? hne hu
  have hbelow := forall_valuesAt Value.Sample.follow p hs
  obtain ⟨t, hdt, _, hat⟩ := answer_infer (m := m) hfound hbelow
  have htu : t = u := hdt.unique hdu
  subst htu
  -- after the same heading, the fragment is no deeper than the whole
  have hwithin := hdesc.sortDepth_at?_le hu
  rw [Schema.sortDepth_writtenAfter] at hroom
  rw [Machine.answer_of_le (by rw [Schema.sortDepth_writtenAfter]; omega)] at hat
  exact ⟨_, hat, Schema.withoutHeading_writtenAfter o.heading_names⟩

/-- the fragment at a position of an inferred schema is what is inferred from the values found
there; so samples in which the same values are found there have the same fragment -/
theorem infer_fragments (m : Machine) {o : Options} {samples : List Value} (hne : samples ≠ [])
    (hs : ∀ v ∈ samples, v.Sample o.maxDepth) : (infer m o samples).Returns m o fun schema =>
      ∀ p fragment, schema.withoutHeading.fragment? p = some fragment →
        (∃ inner, (infer m o (valuesAt p samples)).answer = .ok inner
          ∧ inner.withoutHeading = fragment)
        ∧ ∀ others other f, others ≠ [] → (∀ v ∈ others, v.Sample o.maxDepth) →
          (infer m o others).answer = .ok other → valuesAt p others = valuesAt p samples →
            other.withoutHeading.fragment? p = some f → f = fragment := by
  rcases Inference.returns_of (m := m) hne hs (P := fun _ => True) fun _ _ => trivial with
    ⟨schema, ha, _⟩ | hout
  · refine Or.inl ⟨schema, ha, fun p fragment hf => ?_⟩
    obtain ⟨inner, hinner, heq⟩ := Inference.answer_valuesAt hne hs ha hf
    refine ⟨⟨inner, hinner, heq⟩, fun others other f hne' hs' ha' hsame hf' => ?_⟩
    obtain ⟨inner', hinner', heq'⟩ := Inference.answer_valuesAt hne' hs' ha' hf'
    rw [hsame, hinner] at hinner'
    rw [← heq, ← heq', Except.ok.inj hinner']
  · exact Or.inr hout

/-- objects whose lists hold three elements in all -/
def together : List Value :=
  [.obj [("a", .arr [.int 1, .str "x"]), ("b", .null)], .obj [("a", .arr [.arr [.int 2]])]]

/-- the same elements in other lists -/
def apart : List Value :=
  [.obj [("a", .arr [])], .obj [("a", .arr [.int 1]), ("c", .bool true)],
    .obj [("a", .arr [.str "x", .arr [.int 2]])]]

theorem infer_fragments_together : ∃ schema other inner,
    (infer .least .default together).answer = .ok schema
      ∧ (infer .least .default apart).answer = .ok other
      ∧ (infer .least .default [.int 1, .str "x", .arr [.int 2]]).answer = .ok inner
      ∧ schema.withoutHeading.fragment? [.key "a", .element] = some inner.withoutHeading
      ∧ other.withoutHeading.fragment? [.key "a", .element] = some inner.withoutHeading := by
  have hne : together ≠ [] := List.cons_ne_nil _ _
  have hne' : apart ≠ [] := List.cons_ne_nil _ _
  have hs : ∀ v ∈ together, v.Sample Options.default.maxDepth := by decide
  have hs' : ∀ v ∈ apart, v.Sample Options.default.maxDepth := by decide
  have hdescribed : ∀ samples ∈ [together, apart],
      ((infer .least .default samples).answer.toOption.map fun schema =>
        (schema.withoutHeading.fragment? [.key "a", .element]).isSome) = some true := by decide
  have hd := hdescribed together List.mem_cons_self
  have hd' := hdescribed apart (List.mem_cons_of_mem _ List.mem_cons_self)
  obtain ⟨schema, ha, h⟩ := (infer_fragments .least hne hs).exists_of_le (by decide)
  obtain ⟨other, ha', _⟩ := (infer_fragments .least hne' hs').exists_of_le (by decide)
  rw [ha] at hd
  rw [ha'] at hd'
  obtain ⟨fragment, hf⟩ := Option.isSome_iff_exists.mp (Option.some.inj hd)
  obtain ⟨f, hf'⟩ := Option.isSome_iff_exists.mp (Option.some.inj hd')
  obtain ⟨⟨inner, hinner, heq⟩, hsplit⟩ := h _ _ hf
  have hsame : f = fragment := hsplit apart other f hne' hs' ha' rfl hf'
  refine ⟨schema, other, inner, ha, ha', hinner, ?_, ?_⟩
  · rw [hf, heq]
  · rw [hf', heq, hsame]

end JsonShape
