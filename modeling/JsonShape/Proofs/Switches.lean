import JsonShape.Proofs.Parts
import JsonShape.Proofs.Written

/-!
# Switches

What a user switches off is left out, and nothing else changes.  This is said of a written schema:
the keywords of the switch are erased at its root and in the schemas of keys and of elements, but
not in what other keywords hold, such as the names of keys, enumerated values, examples, or what is
said of further keys.

* `Value.erase_obj`          what remains of the keywords of a schema;
* `Schema.erase_toValue`     erasing goes through the schemas of keys and of elements;
* `Schema.rendered_erased`   options that leave out some keywords at each position leave out these
                             everywhere, and nothing else;
* `Keywords.kept_members`    what remains of the keywords of a position are keywords again;
* `Schema.switches_erase`    the switches one by one.
-/

namespace JsonShape
open Value

/-! ### erasing keywords -/

namespace Value

mutual

/-- the written schema without the keywords that are gone, also in the schemas it holds -/
def erase (gone : String → Value → Bool) : Value → Value
  | obj keywords => obj (eraseKeywords gone keywords)
  | v => v
termination_by structural x => x

def eraseKeywords (gone : String → Value → Bool) : List (String × Value) → List (String × Value)
  | [] => []
  | (word, x) :: r =>
    if gone word x then eraseKeywords gone r
    else
      (word, if word = "properties" then eraseProperties gone x
        else if word = "items" then erase gone x
        else x) :: eraseKeywords gone r
termination_by structural x => x

/-- the schemas of keys, each without the keywords that are gone -/
def eraseProperties (gone : String → Value → Bool) : Value → Value
  | obj properties => obj (eraseSchemas gone properties)
  | v => v
termination_by structural x => x

def eraseSchemas (gone : String → Value → Bool) : List (String × Value) → List (String × Value)
  | [] => []
  | (key, schema) :: r => (key, erase gone schema) :: eraseSchemas gone r
termination_by structural x => x

end

/-- what stands under a word that stays, with the keywords that are gone erased in it -/
def eraseKeyword (gone : String → Value → Bool) (word : String) (x : Value) : Value :=
  if word = "properties" then eraseProperties gone x
  else if word = "items" then erase gone x
  else x

/-- keywords that go by their name -/
def named (words : List String) : String → Value → Bool := fun word _ => words.contains word

/-- enumerations of more than `n` values -/
def enumsOver (n : Nat) : String → Value → Bool
  | "enum", arr entries => n < entries.length
  | _, _ => false

/-- the keywords that are not gone -/
def kept (gone : String → Value → Bool) (keywords : List (String × Value)) :
    List (String × Value) :=
  keywords.filter fun m => !gone m.1 m.2

variable {gone : String → Value → Bool}

theorem kept_cons_of_gone {m : String × Value} (h : gone m.1 m.2 = true)
    (r : List (String × Value)) : kept gone (m :: r) = kept gone r :=
  List.filter_cons_of_neg (by simp [h])

theorem kept_cons_of_stays {m : String × Value} (h : gone m.1 m.2 = false)
    (r : List (String × Value)) : kept gone (m :: r) = m :: kept gone r :=
  List.filter_cons_of_pos (by simp [h])

theorem kept_append (l m : List (String × Value)) :
    kept gone (l ++ m) = kept gone l ++ kept gone m := List.filter_append l m

theorem eraseKeywords_eq_map (keywords : List (String × Value)) :
    eraseKeywords gone keywords
      = (kept gone keywords).map fun m => (m.1, eraseKeyword gone m.1 m.2) := by
  induction keywords with
  | nil => rfl
  | cons m r ih =>
    rw [eraseKeywords, ih]
    cases h : gone m.1 m.2 with
    | true => rw [if_pos rfl, kept_cons_of_gone h]
    | false =>
      rw [if_neg Bool.false_ne_true, kept_cons_of_stays h, List.map_cons, eraseKeyword]

theorem eraseSchemas_eq_map (properties : List (String × Value)) :
    eraseSchemas gone properties = properties.map fun m => (m.1, erase gone m.2) := by
  induction properties with
  | nil => rfl
  | cons m r ih => rw [eraseSchemas, ih, List.map_cons]

theorem erase_obj (keywords : List (String × Value)) : (obj keywords).erase gone
    = obj ((kept gone keywords).map fun m => (m.1, eraseKeyword gone m.1 m.2)) := by
  rw [erase, eraseKeywords_eq_map]

theorem eraseKeyword_properties (properties : List (String × Value)) :
    eraseKeyword gone "properties" (obj properties)
      = obj (properties.map fun m => (m.1, erase gone m.2)) := by
  rw [eraseKeyword, if_pos rfl, eraseProperties, eraseSchemas_eq_map]

theorem eraseKeyword_items (x : Value) : eraseKeyword gone "items" x = erase gone x := by
  rw [eraseKeyword, if_neg (by decide), if_pos rfl]

/-- a keyword that speaks of the position itself is erased as a whole or not at all -/
theorem eraseKeyword_own {word : String} (h : word ∈ Schema.ownWords) (x : Value) :
    eraseKeyword gone word x = x := by
  have hproperties : word ≠ "properties" := by
    rintro rfl
    exact absurd h (by decide)
  have hitems : word ≠ "items" := by
    rintro rfl
    exact absurd h (by decide)
  rw [eraseKeyword, if_neg hproperties, if_neg hitems]

theorem kept_optional {α : Type} (name : String) (f : α → Value) (x : Option α) :
    kept gone (Keywords.optional name (x.map f))
      = Keywords.optional name ((x.filter fun a => !gone name (f a)).map f) := by
  cases x with
  | none => rfl
  | some a =>
    rw [Option.filter_some]
    cases h : gone name (f a) with
    | true => exact kept_cons_of_gone h []
    | false => exact kept_cons_of_stays h []

theorem kept_nonempty {α : Type} (name : String) (f : α → Value) (l : List α) :
    kept gone (Keywords.nonempty name (l.map f)) = Keywords.nonempty name
      ((if gone name (.arr (l.map f)) then [] else l).map f) := by
  cases l with
  | nil => rw [ite_self]; rfl
  | cons a r =>
    cases h : gone name (.arr ((a :: r).map f)) with
    | true => exact kept_cons_of_gone h []
    | false => exact kept_cons_of_stays h []

end Value

/-! ### a written schema -/

namespace Schema
variable {gone : String → Value → Bool}

/-- the type, what is said of further keys, and the schemas that are held always stay -/
structure Spares (gone : String → Value → Bool) : Prop where
  type : ∀ x, gone "type" x = false
  additional : ∀ x, gone "additionalProperties" x = false
  properties : ∀ x, gone "properties" x = false
  items : ∀ x, gone "items" x = false

theorem erase_own (k : Keywords) : (kept gone k.members).map
    (fun m => (m.1, eraseKeyword gone m.1 m.2)) = kept gone k.members := by
  refine (List.map_congr_left fun m hm => ?_).trans (List.map_id _)
  have hword : m.1 ∈ ownWords :=
    (own_members_names k).subset (List.mem_map_of_mem (List.mem_filter.mp hm).1)
  rw [eraseKeyword_own hword]
  rfl

theorem erase_propertiesMembers (h : Spares gone) (s : Schema) :
    (kept gone s.propertiesMembers).map (fun m => (m.1, eraseKeyword gone m.1 m.2))
      = if s.own.object.isSome then
          [("properties", .obj (s.properties.map fun p => (p.1, p.2.toValue.erase gone)))]
        else [] := by
  rw [propertiesMembers]
  split
  · rw [kept_cons_of_stays (h.properties _), kept, List.filter_nil, List.map_cons, List.map_nil,
      eraseKeyword_properties, List.map_map]
    rfl
  · rfl

theorem erase_itemsMember (h : Spares gone) (items : Option Schema) :
    (kept gone (Keywords.optional "items" (items.map toValue))).map
        (fun m => (m.1, eraseKeyword gone m.1 m.2))
      = Keywords.optional "items" (items.map fun u => u.toValue.erase gone) := by
  cases items with
  | none => rfl
  | some u =>
    show (kept gone [("items", u.toValue)]).map _ = [("items", _)]
    rw [kept_cons_of_stays (h.items _), kept, List.filter_nil, List.map_cons, List.map_nil,
      eraseKeyword_items]

/-- erasing goes through the schemas of keys and of elements -/
theorem erase_toValue (h : Spares gone) (s : Schema) : s.toValue.erase gone
    = .obj (kept gone s.own.members
      ++ (if s.own.object.isSome then
          [("properties", .obj (s.properties.map fun p => (p.1, p.2.toValue.erase gone)))]
        else [])
      ++ Keywords.optional "items" (s.items.map fun u => u.toValue.erase gone)) := by
  rw [toValue, members_eq, erase_obj, kept_append, kept_append, List.map_append, List.map_append,
    erase_own, erase_propertiesMembers h, erase_itemsMember h]

/-- a schema comes out as another one with keywords erased if its own keywords do, and the schemas
that it holds -/
theorem toValue_eq_erase (h : Spares gone) {s s' : Schema}
    (hown : s'.own.members = kept gone s.own.members)
    (hobject : s'.own.object.isSome = s.own.object.isSome)
    (hproperties : s'.properties.map (fun p => (p.1, p.2.toValue))
      = s.properties.map fun p => (p.1, p.2.toValue.erase gone))
    (hitems : s'.items.map toValue = s.items.map fun u => u.toValue.erase gone) :
    s'.toValue = s.toValue.erase gone := by
  rw [erase_toValue h, toValue, members_eq, propertiesMembers, hown, hobject, hproperties, hitems]

/-! ### options that leave keywords out -/

/-- what the evidence at a position and below is written as -/
def rendered (o : Options) (instances : Int) (t : Tree) : Value := (ofTree o instances t).toValue

/-- at each position `o'` writes what `o` does, without the keywords that are gone -/
def LeavesOut (gone : String → Value → Bool) (o o' : Options) : Prop :=
  ∀ instances e properties, (keywords o' instances e properties).members
    = kept gone (keywords o instances e properties).members

variable {o o' : Options}

/-- whether objects are described is no option -/
theorem object_keywords (o o' : Options) (instances : Int) (e : Evidence)
    (properties : List (String × Tree)) :
    (keywords o' instances e properties).object.isSome
      = (keywords o instances e properties).object.isSome := by
  rw [keywords, keywords]
  cases e.describesObjects <;> rfl

mutual

/-- options that leave out some keywords at each position leave out these everywhere -/
theorem rendered_erased (hg : Spares gone) (h : LeavesOut gone o o') (instances : Int)
    (t : Tree) : rendered o' instances t = (rendered o instances t).erase gone := by
  cases t with
  | mk here properties items =>
    rw [rendered, rendered, ofTree, ofTree]
    -- the options have no say in whether there are schemas below, only in what these are
    refine toValue_eq_erase hg (h ..) (object_keywords ..) ?_ ?_
    · cases here.describesObjects with
      | true => exact properties_erased hg h properties
      | false => rfl
    · cases here.describesArrays with
      | true => exact items_erased hg h here.itemCount items
      | false => rfl

theorem properties_erased (hg : Spares gone) (h : LeavesOut gone o o')
    (properties : List (String × Tree)) :
    (ofProperties o' properties).map (fun p => (p.1, p.2.toValue))
      = (ofProperties o properties).map fun p => (p.1, p.2.toValue.erase gone) := by
  cases properties with
  | nil => rfl
  | cons p r =>
    have hfirst := rendered_erased hg h p.2.here.presence p.2
    rw [rendered, rendered] at hfirst
    rw [ofProperties, ofProperties, List.map_cons, List.map_cons, hfirst, properties_erased hg h r]

theorem items_erased (hg : Spares gone) (h : LeavesOut gone o o') (count : Int)
    (items : Option Tree) : (ofItems o' count items).map toValue
      = (ofItems o count items).map fun u => u.toValue.erase gone := by
  cases items with
  | none => rfl
  | some t => exact congrArg some (rendered_erased hg h count t)

end

end Schema

/-! ### the keywords of a position -/

namespace Keywords
variable {gone : String → Value → Bool}

/-- the keywords that are not gone; the type and what is said of further keys stay -/
def without (gone : String → Value → Bool) (k : Keywords) : Keywords where
  type := k.type
  object := k.object.map fun o =>
    ⟨if gone "required" (.arr (o.required.map .str)) then [] else o.required, o.additional⟩
  sizes := ⟨k.sizes.least.filter fun n => !gone "minItems" (.int n),
    k.sizes.greatest.filter fun n => !gone "maxItems" (.int n)⟩
  lengths := ⟨k.lengths.least.filter fun n => !gone "minLength" (.int n),
    k.lengths.greatest.filter fun n => !gone "maxLength" (.int n)⟩
  format := k.format.filter fun f => !gone "format" (.str f.name)
  numbers := ⟨k.numbers.least.filter fun n => !gone "minimum" (.num n),
    k.numbers.greatest.filter fun n => !gone "maximum" (.num n)⟩
  enum := if gone "enum" (.arr (k.enum.map Scalar.toValue)) then [] else k.enum
  examples := if gone "examples" (.arr k.examples) then [] else k.examples

theorem spoken_filter (p : Format → Bool) (f : Option Format) :
    spoken (f.filter p) = (spoken f).filter p := by
  cases f with
  | none => rfl
  | some f =>
    by_cases hname : f.name = ""
    · have hsilent : spoken (some f) = none := if_pos hname
      rw [hsilent, Option.filter_some]
      cases p f with
      | true => exact hsilent
      | false => rfl
    · have hspoken : spoken (some f) = some f := if_neg hname
      rw [hspoken, Option.filter_some]
      cases p f with
      | true => exact hspoken
      | false => rfl

theorem kept_objectMembers (h : Schema.Spares gone) (object : Option ObjectKeywords) :
    kept gone (objectMembers object) = objectMembers (object.map fun o =>
      ⟨if gone "required" (.arr (o.required.map .str)) then [] else o.required, o.additional⟩) := by
  cases object with
  | none => rfl
  | some o =>
    rw [objectMembers, kept_append, kept_nonempty, kept_cons_of_stays (h.additional _)]
    rfl

/-- what remains of the keywords of a position, one by one -/
theorem kept_members (h : Schema.Spares gone) (k : Keywords) :
    kept gone k.members = (k.without gone).members := by
  have htype : kept gone [("type", k.type.toValue)] = [("type", k.type.toValue)] :=
    kept_cons_of_stays (h.type _) []
  have hexamples : kept gone (nonempty "examples" k.examples)
      = nonempty "examples" (if gone "examples" (.arr k.examples) then [] else k.examples) := by
    have hid : kept gone (nonempty "examples" (k.examples.map id)) = _ :=
      kept_nonempty "examples" id k.examples
    rwa [List.map_id, List.map_id] at hid
  simp only [members_eq, kept_append, kept_optional, kept_nonempty, kept_objectMembers h, htype,
    hexamples, ← spoken_filter]
  rfl

end Keywords

/-! ### the switches -/

namespace Schema

/-- the keywords that bound numbers, lengths and sizes -/
def boundWords : List String :=
  ["minimum", "maximum", "minLength", "maxLength", "minItems", "maxItems"]

theorem spares_named {words : List String}
    (h : ∀ word ∈ ["type", "additionalProperties", "properties", "items"], word ∉ words) :
    Spares (named words) := by
  simp only [List.forall_mem_cons, List.not_mem_nil, false_implies, implies_true, and_true] at h
  obtain ⟨htype, hadditional, hproperties, hitems⟩ := h
  exact ⟨fun _ => by simpa [named] using htype, fun _ => by simpa [named] using hadditional,
    fun _ => by simpa [named] using hproperties, fun _ => by simpa [named] using hitems⟩

theorem spares_enumsOver (n : Nat) : Spares (enumsOver n) :=
  ⟨fun _ => rfl, fun _ => rfl, fun _ => rfl, fun _ => rfl⟩

/-- options leave keywords out if what they say of each position is what remains of it -/
theorem leavesOut_of_keywords {gone : String → Value → Bool} {o o' : Options} (h : Spares gone)
    (hk : ∀ instances e properties, keywords o' instances e properties
      = (keywords o instances e properties).without gone) : LeavesOut gone o o' := by
  intro instances e properties
  rw [Keywords.kept_members h, hk]

@[simp] theorem filter_true {α : Type} (x : Option α) : (x.filter fun _ => true) = x := by
  cases x <;> rfl

@[simp] theorem filter_false {α : Type} (x : Option α) : (x.filter fun _ => false) = none := by
  cases x <;> rfl

@[simp] theorem bounds_empty {α : Type} : (∅ : Bounds α) = ⟨none, none⟩ := rfl

theorem minmax_leavesOut (o : Options) {off : Value} (hoff : off.isTruthy = false) (on : Value) :
    LeavesOut (named boundWords) { o with minmax := on } { o with minmax := off } := by
  refine leavesOut_of_keywords (spares_named (by decide)) fun instances e properties => ?_
  simp [keywords, Keywords.without, named, boundWords, Bounds.spokenIf, hoff]

theorem detectFormats_leavesOut (o : Options) {off : Value} (hoff : off.isTruthy = false)
    (on : Value) : LeavesOut (named ["format"]) { o with detectFormats := on }
      { o with detectFormats := off } := by
  refine leavesOut_of_keywords (spares_named (by decide)) fun instances e properties => ?_
  simp [keywords, Keywords.without, named, hoff]

theorem examples_leavesOut (o : Options) {off : Value} (hoff : off.isTruthy = false) (on : Value) :
    LeavesOut (named ["examples"]) { o with examples := on } { o with examples := off } := by
  refine leavesOut_of_keywords (spares_named (by decide)) fun instances e properties => ?_
  simp [keywords, Keywords.without, named, hoff]

/-- where nothing is required there are no required keys -/
theorem requiredKeys_loose (instances : Int) (properties : List (String × Tree)) :
    requiredKeys .loose instances properties = [] := by
  have hnone : properties.filter
      (fun p => Policy.loose.requires p.2.here.presence instances) = [] :=
    List.filter_eq_nil_iff.mpr fun _ _ => Bool.false_ne_true
  rw [requiredKeys, hnone]
  rfl

theorem loose_leavesOut (o : Options) (policy : Policy) :
    LeavesOut (named ["required"]) { o with requiredPolicy := policy }
      { o with requiredPolicy := .loose } := by
  refine leavesOut_of_keywords (spares_named (by decide)) fun instances e properties => ?_
  simp [keywords, Keywords.without, named, requiredKeys_loose]

/-- a list that is given up where it is too long, under two thresholds -/
theorem shortEnough_of_le {α : Type} {s s' : Nat} (h : s ≤ s') (asked : Bool) (l : List α) :
    (if asked && l.length ≤ s then l else [])
      = if s < (if asked && l.length ≤ s' then l else []).length then []
        else if asked && l.length ≤ s' then l else [] := by
  cases asked with
  | false => exact (ite_self _).symm
  | true =>
    simp only [Bool.true_and, decide_eq_true_eq]
    by_cases hfew : l.length ≤ s
    · rw [if_pos hfew, if_pos (Nat.le_trans hfew h), if_neg (Nat.not_lt.mpr hfew)]
    · by_cases hlonger : l.length ≤ s'
      · rw [if_neg hfew, if_pos hlonger, if_pos (Nat.not_le.mp hfew)]
      · rw [if_neg hfew, if_neg hlonger, ite_self]

/-- of the enumerations under a greater threshold those stay that are short enough -/
theorem enumeration_of_le {s s' : Nat} (h : s ≤ s') (e : Evidence) : e.enumeration s
    = if s < (e.enumeration s').length then [] else e.enumeration s' := by
  rw [Evidence.enumeration, Evidence.enumeration]
  cases e.typeKeyword with
  | union _ => rw [ite_self]
  | one tag =>
    have hsize : e.distinct.values.size = (e.distinct.values.toList.map Candidate.value).length :=
      (List.length_map _).symm
    rw [hsize]
    exact shortEnough_of_le h _ _

theorem enumThreshold_leavesOut (o : Options) {s s' : Nat} (h : s ≤ s') :
    LeavesOut (enumsOver s) { o with enumThreshold := s' } { o with enumThreshold := s } := by
  refine leavesOut_of_keywords (spares_enumsOver s) fun instances e properties => ?_
  simp [keywords, Keywords.without, enumsOver, ← enumeration_of_le h]

/-- what is switched off is erased from what is written, and nothing else changes: the bounds, the
formats, the examples, the required keys, and the enumerations that a lesser threshold leaves out -/
theorem switches_erase (o : Options) (instances : Int) (t : Tree) :
    (∀ off on : Value, off.isTruthy = false →
        rendered { o with minmax := off } instances t
            = (rendered { o with minmax := on } instances t).erase (named boundWords)
          ∧ rendered { o with detectFormats := off } instances t
            = (rendered { o with detectFormats := on } instances t).erase (named ["format"])
          ∧ rendered { o with examples := off } instances t
            = (rendered { o with examples := on } instances t).erase (named ["examples"]))
      ∧ (∀ policy, rendered { o with requiredPolicy := .loose } instances t
          = (rendered { o with requiredPolicy := policy } instances t).erase (named ["required"]))
      ∧ ∀ s s' : Nat, s ≤ s' → rendered { o with enumThreshold := s } instances t
          = (rendered { o with enumThreshold := s' } instances t).erase (enumsOver s) := by
  refine ⟨fun off on hoff => ⟨?_, ?_, ?_⟩, fun policy => ?_, fun s s' h => ?_⟩
  · exact rendered_erased (spares_named (by decide)) (minmax_leavesOut o hoff on) instances t
  · exact rendered_erased (spares_named (by decide)) (detectFormats_leavesOut o hoff on) instances t
  · exact rendered_erased (spares_named (by decide)) (examples_leavesOut o hoff on) instances t
  · exact rendered_erased (spares_named (by decide)) (loose_leavesOut o policy) instances t
  · exact rendered_erased (spares_enumsOver s) (enumThreshold_leavesOut o h) instances t

/-- what is seen of an object whose keys are called like keywords -/
def misleading : Tree :=
  let v : Value := .obj [("minimum", .int 1), ("items", .arr [.int 2, .int 3])]
  (Tree.observe .default 9 0 v .fresh).tree

/-- all keys in a written schema, those of the schemas that it holds after its own -/
def wordsWithin (v : Value) : List String := v.parts.flatMap fun p => p.2.keys

theorem switches_erase_misleading :
    rendered { Options.default with minmax := .null } 1 misleading
        = (rendered .default 1 misleading).erase (named boundWords)
      ∧ rendered { Options.default with enumThreshold := 1 } 1 misleading
        = (rendered .default 1 misleading).erase (enumsOver 1)
      ∧ wordsWithin ((rendered .default 1 misleading).erase (named boundWords))
        = ["type", "required", "additionalProperties", "properties", "minimum", "items",
          "type", "enum", "examples", "type", "items", "type", "enum", "examples"]
      ∧ wordsWithin ((rendered .default 1 misleading).erase (enumsOver 1))
        = ["type", "required", "additionalProperties", "properties", "minimum", "items",
          "type", "minimum", "maximum", "enum", "examples",
          "type", "minItems", "maxItems", "items", "type", "minimum", "maximum", "examples"] := by
  obtain ⟨hswitch, _, hthreshold⟩ := switches_erase .default 1 misleading
  obtain ⟨hminmax, _, _⟩ := hswitch .null (.bool true) rfl
  exact ⟨hminmax, hthreshold 1 8 (by decide), by decide, by decide⟩

end Schema
end JsonShape
