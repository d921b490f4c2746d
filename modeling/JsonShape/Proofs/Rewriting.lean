import JsonShape.Proofs.Fragments

/-!
# Rewriting examples

The examples are the one thing in a schema that depends on how values were written and on their
order.  To say that two schemas agree but for their examples, these are rewritten in both, wherever
there are some: at the root, and through the schemas of keys and of elements.  All other keywords
stay as they are.

That schemas come out alike is shown for lists of values that are related somehow, if the relation
is kept one step down and related values have the same keywords at one position.

* `Value.mapExamples_id`                  rewriting nothing changes nothing;
* `Value.sortDepth_mapExamples`           rewriting examples in place makes no schema deeper;
* `Value.fragment?_mapExamples`           the fragments are rewritten alike;
* `Value.member?_mapExamples`             keywords without examples in them are left as they are;
* `Schema.mapExamples_writtenAfter`       rewriting a written schema is rewriting its keywords;
* `Schema.mapExamples_writtenAfter_congr` schemas that differ in their examples only come out alike
                                          if the examples do;
* `Schema.Describes.mapExamples_eq`       so do schemas of values that no other keyword tells apart.
-/

namespace JsonShape
open Value

namespace Value

/-- each entry of a list, rewritten -/
def mapEntries (f : Value → Value) : Value → Value
  | arr entries => arr (entries.map f)
  | v => v

mutual

/-- the written schema with all examples rewritten -/
def mapExamples (f : Value → Value) : Value → Value
  | obj keywords => obj (mapKeywords f keywords)
  | v => v
termination_by structural x => x

def mapKeywords (f : Value → Value) : List (String × Value) → List (String × Value)
  | [] => []
  | (word, x) :: r =>
    (word, if word = "properties" then mapProperties f x
      else if word = "items" then mapExamples f x
      else if word = "examples" then mapEntries f x
      else x) :: mapKeywords f r
termination_by structural x => x

/-- the schemas of keys, with all examples rewritten -/
def mapProperties (f : Value → Value) : Value → Value
  | obj properties => obj (mapSchemas f properties)
  | v => v
termination_by structural x => x

def mapSchemas (f : Value → Value) : List (String × Value) → List (String × Value)
  | [] => []
  | (key, schema) :: r => (key, mapExamples f schema) :: mapSchemas f r
termination_by structural x => x

end

/-- what stands under a word, with all examples in it rewritten -/
def mapKeyword (f : Value → Value) (word : String) (x : Value) : Value :=
  if word = "properties" then mapProperties f x
  else if word = "items" then mapExamples f x
  else if word = "examples" then mapEntries f x
  else x

variable {f : Value → Value}

theorem mapKeywords_eq_map (keywords : List (String × Value)) :
    mapKeywords f keywords = keywords.map fun m => (m.1, mapKeyword f m.1 m.2) := by
  induction keywords with
  | nil => rfl
  | cons m r ih => rw [mapKeywords, ih, List.map_cons, mapKeyword]

theorem mapSchemas_eq_map (properties : List (String × Value)) :
    mapSchemas f properties = properties.map fun m => (m.1, mapExamples f m.2) := by
  induction properties with
  | nil => rfl
  | cons m r ih => rw [mapSchemas, ih, List.map_cons]

theorem mapExamples_obj (keywords : List (String × Value)) :
    mapExamples f (obj keywords) = obj (keywords.map fun m => (m.1, mapKeyword f m.1 m.2)) := by
  rw [mapExamples, mapKeywords_eq_map]

theorem mapProperties_obj (properties : List (String × Value)) :
    mapProperties f (obj properties) = obj (properties.map fun m => (m.1, mapExamples f m.2)) := by
  rw [mapProperties, mapSchemas_eq_map]

theorem mapEntries_id (v : Value) : mapEntries id v = v := by
  cases v with
  | arr entries => rw [mapEntries, List.map_id]
  | _ => rfl

/-- rewriting nothing changes nothing, in a schema and in the schemas of keys -/
theorem mapExamples_id (v : Value) : mapExamples id v = v ∧ mapProperties id v = v := by
  induction v using children_induction with
  | h v ih =>
    cases v with
    | obj members =>
      have hmember : ∀ m ∈ members, mapExamples id m.2 = m.2 ∧ mapProperties id m.2 = m.2 :=
        fun m hm => ih m.2 (List.mem_map_of_mem hm)
      have hkeyword : ∀ m ∈ members, (m.1, mapKeyword id m.1 m.2) = id m := by
        intro m hm
        obtain ⟨hschema, hproperties⟩ := hmember m hm
        rw [mapKeyword, hschema, hproperties, mapEntries_id, ite_self, ite_self, ite_self]
        rfl
      have hproperty : ∀ m ∈ members, (m.1, mapExamples id m.2) = id m := by
        intro m hm
        rw [(hmember m hm).1]
        rfl
      constructor
      · rw [mapExamples_obj, List.map_congr_left hkeyword, List.map_id]
      · rw [mapProperties_obj, List.map_congr_left hproperty, List.map_id]
    | _ => exact ⟨rfl, rfl⟩

/-- examples that stay as deep as they are leave the schema as deep, and the schemas of keys -/
theorem sortDepth_mapExamples (hf : ∀ v, (f v).sortDepth = v.sortDepth) (v : Value) :
    (mapExamples f v).sortDepth = v.sortDepth ∧ (mapProperties f v).sortDepth = v.sortDepth := by
  have hentries : ∀ v, (mapEntries f v).sortDepth = v.sortDepth := by
    intro v
    cases v with
    | arr entries => exact sortDepth_arr_map fun w _ => hf w
    | _ => rfl
  induction v using children_induction with
  | h v ih =>
    cases v with
    | obj members =>
      have hmember : ∀ m ∈ members, (mapExamples f m.2).sortDepth = m.2.sortDepth
          ∧ (mapProperties f m.2).sortDepth = m.2.sortDepth :=
        fun m hm => ih m.2 (List.mem_map_of_mem hm)
      constructor
      · rw [mapExamples_obj]
        refine sortDepth_obj_map fun m hm => ?_
        obtain ⟨hschema, hproperties⟩ := hmember m hm
        rw [mapKeyword]
        split
        · exact hproperties
        · split
          · exact hschema
          · split
            · exact hentries m.2
            · rfl
      · rw [mapProperties_obj]
        exact sortDepth_obj_map fun m hm => (hmember m hm).1
    | _ => exact ⟨rfl, rfl⟩

/-! ### reading what was rewritten -/

theorem member?_mapKeyword (v : Value) (word : String) :
    (v.mapExamples f).member? word = (v.member? word).map (mapKeyword f word) := by
  cases v with
  | obj keywords =>
    rw [mapExamples_obj, member?, member?]
    induction keywords with
    | nil => rfl
    | cons m r ih =>
      rw [List.map_cons, List.lookup_cons, List.lookup_cons, ih]
      cases h : word == m.1 with
      | true =>
        rw [beq_iff_eq.mp h]
        rfl
      | false => rfl
  | _ => rfl

/-- keywords without examples in them are left as they are -/
theorem member?_mapExamples {word : String} (h : word ∉ ["properties", "items", "examples"])
    (v : Value) : (v.mapExamples f).member? word = v.member? word := by
  simp only [List.mem_cons, List.not_mem_nil, or_false, not_or] at h
  obtain ⟨hproperties, hitems, hexamples⟩ := h
  have hkeyword : mapKeyword f word = id := by
    funext x
    rw [mapKeyword, if_neg hproperties, if_neg hitems, if_neg hexamples]
    rfl
  rw [member?_mapKeyword, hkeyword, Option.map_id]
  rfl

theorem member?_mapProperties (v : Value) (key : String) :
    (v.mapProperties f).member? key = (v.member? key).map (mapExamples f) := by
  cases v with
  | obj properties =>
    rw [mapProperties_obj]
    exact lookup_map (mapExamples f) properties key
  | _ => rfl

theorem subschema?_mapExamples (v : Value) (x : Step) :
    (v.mapExamples f).subschema? x = (v.subschema? x).map (mapExamples f) := by
  cases x with
  | element => exact member?_mapKeyword v "items"
  | key name =>
    show ((v.mapExamples f).member? "properties").bind (member? name)
      = ((v.member? "properties").bind (member? name)).map (mapExamples f)
    rw [member?_mapKeyword]
    cases v.member? "properties" with
    | none => rfl
    | some x => exact member?_mapProperties x name

/-- the fragments are rewritten alike -/
theorem fragment?_mapExamples (v : Value) (p : Position) :
    (v.mapExamples f).fragment? p = (v.fragment? p).map (mapExamples f) := by
  induction p generalizing v with
  | nil => rfl
  | cons x p ih =>
    rw [fragment?, fragment?, subschema?_mapExamples]
    cases v.subschema? x with
    | none => rfl
    | some u => exact ih u

/-- what comes out alike has the same keywords without examples in them, at every position -/
theorem keyword_eq_of_mapExamples {v w : Value} (h : v.mapExamples f = w.mapExamples f)
    (p : Position) {word : String} (hword : word ∉ ["properties", "items", "examples"]) :
    (v.fragment? p).bind (member? word) = (w.fragment? p).bind (member? word) := by
  have hread : ∀ u : Value, (u.fragment? p).bind (member? word)
      = ((u.mapExamples f).fragment? p).bind (member? word) := by
    intro u
    rw [fragment?_mapExamples]
    cases u.fragment? p with
    | none => rfl
    | some x => exact (member?_mapExamples hword x).symm
  rw [hread v, hread w, h]

end Value

/-! ### written schemas -/

namespace Schema
variable {f : Value → Value} {s t : Schema}

/-- keywords as they are written, sorted and with all examples rewritten -/
def rewritten (f : Value → Value) (members : List (String × Value)) : List (String × Value) :=
  members.map fun m => (m.1, mapKeyword f m.1 m.2.sortKeys)

theorem rewritten_append (l m : List (String × Value)) :
    rewritten f (l ++ m) = rewritten f l ++ rewritten f m := List.map_append

/-- rewriting a written schema is rewriting its keywords -/
theorem mapExamples_writtenAfter (heading : List (String × Value)) :
    (s.writtenAfter heading).mapExamples f
      = obj (sortByKey (rewritten f (heading ++ s.members))) := by
  rw [writtenAfter_eq, mapExamples_obj, map_sortByKey (mapKeyword f), List.map_map]
  rfl

theorem rewritten_examples (l : List Value) : rewritten f (Keywords.nonempty "examples" l)
    = Keywords.nonempty "examples" (l.map fun v => f v.sortKeys) := by
  cases l with
  | nil => rfl
  | cons v r =>
    show [("examples", arr ((sortItems (v :: r)).map f))] = _
    rw [sortItems_eq_map, List.map_map]
    rfl

theorem rewritten_properties (s : Schema) : rewritten f s.propertiesMembers
    = if s.own.object.isSome then [("properties", obj (sortByKey
        (s.properties.map fun p => (p.1, p.2.written.mapExamples f))))] else [] := by
  rw [propertiesMembers]
  split
  · show [("properties", mapProperties f (obj _).sortKeys)] = _
    rw [sortKeys_properties, mapProperties_obj,
      map_sortByKey (fun _ => mapExamples f) (s.properties.map fun p => (p.1, p.2.written)),
      List.map_map]
    rfl
  · rfl

theorem rewritten_items (items : Option Schema) :
    rewritten f (Keywords.optional "items" (items.map toValue))
      = Keywords.optional "items" (items.map fun u => u.written.mapExamples f) := by
  cases items <;> rfl

/-- the examples come last among the keywords of a position, and no other keyword depends on them -/
theorem members_withExamples (k : Keywords) (l : List Value) :
    ({ k with examples := l } : Keywords).members
      = ({ k with examples := [] } : Keywords).members ++ Keywords.nonempty "examples" l := by
  rw [Keywords.members_eq, Keywords.members_eq]
  exact congrArg (· ++ _) (List.append_nil _).symm

/-- schemas that differ in their examples only, and have such schemas below them, come out alike if
the examples at each position do -/
theorem mapExamples_writtenAfter_congr (hown : s.own = { t.own with examples := s.own.examples })
    (hexamples : s.own.examples.map (fun v => f v.sortKeys)
      = t.own.examples.map fun v => f v.sortKeys)
    (hs : (s.properties.map Prod.fst).Nodup) (ht : (t.properties.map Prod.fst).Nodup)
    (h : ∀ x, (s.step? x).map (fun u => u.written.mapExamples f)
      = (t.step? x).map fun u => u.written.mapExamples f)
    (heading : List (String × Value)) :
    (s.writtenAfter heading).mapExamples f = (t.writtenAfter heading).mapExamples f := by
  have hkeywords : rewritten f s.own.members = rewritten f t.own.members := by
    rw [hown, members_withExamples, members_withExamples t.own t.own.examples, rewritten_append,
      rewritten_append, rewritten_examples, rewritten_examples, hexamples]
  have hobject : s.own.object = t.own.object := by rw [hown]
  have hrow := sortByKey_map_eq hs ht fun key => h (.key key)
  have hitems : s.items.map (fun u => u.written.mapExamples f)
      = t.items.map fun u => u.written.mapExamples f := h .element
  rw [mapExamples_writtenAfter, mapExamples_writtenAfter]
  simp only [members_eq, rewritten_append, hkeywords, rewritten_properties, hobject, hrow,
    rewritten_items, hitems]

end Schema

/-! ### values that schemas do not tell apart -/

/-- values related by `R` have the same keywords but for their examples, these come out alike once
`f` has rewritten them, and the values one step down are related as well -/
structure Indistinct (o : Options) (f : Value → Value) (R : List Value → List Value → Prop) :
    Prop where
  below : ∀ {vs ws}, R vs ws → ∀ x, R (valuesBelow x vs) (valuesBelow x ws)
  empty : ∀ {vs ws}, R vs ws → (vs = [] ↔ ws = [])
  describes : ∀ {vs ws}, R vs ws → ∀ x,
    (Evidence.gather o.caps vs).describes x = (Evidence.gather o.caps ws).describes x
  own : ∀ {vs ws}, R vs ws → Keywords.ofValues o vs
    = { Keywords.ofValues o ws with examples := (Keywords.ofValues o vs).examples }
  examples : ∀ {vs ws}, R vs ws → (Keywords.ofValues o vs).examples.map (fun v => f v.sortKeys)
    = (Keywords.ofValues o ws).examples.map fun v => f v.sortKeys

namespace Schema.Describes
variable {o : Options} {f : Value → Value} {R : List Value → List Value → Prop}
  {vs ws : List Value} {s t : Schema}

/-- the schemas of such values go down together -/
theorem step?_pair (hR : Indistinct o f R) (hs : s.Describes o vs) (ht : t.Describes o ws)
    (h : R vs ws) (x : Step) : (s.step? x = none ∧ t.step? x = none)
      ∨ ∃ u u', s.step? x = some u ∧ t.step? x = some u'
        ∧ u.Describes o (valuesBelow x vs) ∧ u'.Describes o (valuesBelow x ws) := by
  have hempty := hR.empty (hR.below h x)
  have hdescribes := hR.describes h x
  rcases hs.step? x with ⟨u, hu, hd, hsome, hdu⟩ | ⟨hnone, hnil⟩
  · rcases ht.step? x with ⟨u', hu', _, _, hdu'⟩ | ⟨_, hnil'⟩
    · exact Or.inr ⟨u, u', hu, hu', hdu, hdu'⟩
    · exact absurd (hempty.mpr (hnil' (hdescribes ▸ hd))) hsome
  · rcases ht.step? x with ⟨_, _, hd', hsome', _⟩ | ⟨hnone', _⟩
    · exact absurd (hempty.mp (hnil (hdescribes ▸ hd'))) hsome'
    · exact Or.inl ⟨hnone, hnone'⟩

/-- the schemas of such values come out alike -/
theorem mapExamples_eq (hR : Indistinct o f R) (hs : s.Describes o vs) (ht : t.Describes o ws)
    (h : R vs ws) (heading : List (String × Value)) :
    (s.writtenAfter heading).mapExamples f = (t.writtenAfter heading).mapExamples f := by
  induction vs, s, hs using Describes.induction generalizing ws t heading with
  | h vs s hs ih =>
    have hown : s.own = { t.own with examples := s.own.examples } := by
      rw [hs.own, ht.own]
      exact hR.own h
    refine mapExamples_writtenAfter_congr hown ?_ hs.keys_nodup ht.keys_nodup (fun x => ?_) heading
    · rw [hs.own, ht.own]
      exact hR.examples h
    · rcases hs.step?_pair hR ht h x with ⟨hnone, hnone'⟩ | ⟨u, u', hu, hu', hdu, hdu'⟩
      · rw [hnone, hnone']
      · rw [hu, hu']
        exact congrArg some (ih x u hu hdu hdu' (hR.below h x) [])

/-- so they are as deep as each other, if rewriting leaves examples as deep as they are -/
theorem sortDepth_eq (hf : ∀ v, (f v).sortDepth = v.sortDepth) (hR : Indistinct o f R)
    (hs : s.Describes o vs) (ht : t.Describes o ws) (h : R vs ws)
    (heading : List (String × Value)) :
    (s.writtenAfter heading).sortDepth = (t.writtenAfter heading).sortDepth := by
  rw [← (sortDepth_mapExamples hf _).1, hs.mapExamples_eq hR ht h heading,
    (sortDepth_mapExamples hf _).1]

/-- where the examples are the same too, so is all that is written -/
theorem written_eq (hR : Indistinct o id R) (hs : s.Describes o vs) (ht : t.Describes o ws)
    (h : R vs ws) (heading : List (String × Value)) :
    s.writtenAfter heading = t.writtenAfter heading := by
  have hwritten := hs.mapExamples_eq hR ht h heading
  rwa [(mapExamples_id _).1, (mapExamples_id _).1] at hwritten

end Schema.Describes
end JsonShape
