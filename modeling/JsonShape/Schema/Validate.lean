import JsonShape.Position
import JsonShape.Value.Facets

/-!
# Validation

`Value.validates` reads a value as a JSON Schema and asks whether another value is as it says.  It
knows the keywords that schemas are written with here; the other ones only inform.  A keyword speaks
of its own kind of value and is silent about all else: the keys of objects, the elements of arrays,
tuples being arrays, the length of strings in code points, the exact value of numbers.  A number is
the same as an enumerated one by value.  A format is the one that is detected.

What is said of keys without a schema may be any value.  A truth value is a schema that all or no
values are valid for; other values are left to the reader, who has to give them a meaning.

* `Value.keywordsHold_eq_all`, `Value.membersHold_eq_all`  keywords and properties hold one by one.
-/

namespace JsonShape

/-- what a reader takes a value for that stands in the place of a schema: which values are valid -/
abbrev Reading := Value → Value → Bool

namespace Value

/-! ### keywords without a schema in them -/

/-- `type`: one of the types named -/
def ofType : Value → Value → Bool
  | str name, v => Tag.admits ⟨name⟩ v
  | arr names, v => names.any fun name =>
      match name with
      | str name => Tag.admits ⟨name⟩ v
      | _ => false
  | _, _ => true

/-- `required`: an object has all these keys -/
def holdsKeys : Value → Value → Bool
  | arr names, obj members => names.all fun name =>
      match name with
      | str name => (members.lookup name).isSome
      | _ => true
  | _, _ => true

/-- a quantity, where there is one, is not less than the number given -/
def atLeast (bound : Value) (quantity : Option Number) : Bool :=
  match bound, quantity with
  | num l, some n => !decide (n < l)
  | _, _ => true

/-- a quantity, where there is one, is not greater than the number given -/
def atMost (bound : Value) (quantity : Option Number) : Bool :=
  match bound, quantity with
  | num g, some n => !decide (g < n)
  | _, _ => true

/-- `format`: a string is of the format named -/
def ofFormat (name v : Value) : Bool :=
  match name, v.outcome? with
  | str name, some outcome => outcome == some ⟨name⟩
  | _, _ => true

/-- `enum`: the same scalar is given -/
def enumerated (given v : Value) : Bool :=
  match given with
  | arr given => given.any fun x =>
      match x.scalar?, v.scalar? with
      | some s, some t => s.sameAs t
      | _, _ => false
  | _ => true

/-- the keywords without a schema in them, and when they hold -/
def plainKeywords : List (String × (Value → Value → Bool)) :=
  [("type", ofType), ("required", holdsKeys),
    ("minItems", fun x v => atLeast x (v.size?.map .int)),
    ("maxItems", fun x v => atMost x (v.size?.map .int)),
    ("minLength", fun x v => atLeast x (v.length?.map .int)),
    ("maxLength", fun x v => atMost x (v.length?.map .int)),
    ("format", ofFormat),
    ("minimum", fun x v => atLeast x v.number?), ("maximum", fun x v => atMost x v.number?),
    ("enum", enumerated)]

/-- whether a keyword without a schema in it holds; unknown ones do -/
def plainHolds (word : String) (x v : Value) : Bool :=
  match plainKeywords.lookup word with
  | some holds => holds x v
  | none => true

/-! ### keywords with schemas in them -/

/-- the keys that have a schema among the keywords -/
def knownKeys (keywords : List (String × Value)) : List String :=
  match keywords.lookup "properties" with
  | some (obj properties) => properties.map Prod.fst
  | _ => []

/-- the members of an object whose keys are not known -/
def others (known : List String) : Value → List Value
  | obj members => (members.filter fun m => !known.contains m.1).map Prod.snd
  | _ => []

/-- a truth value holds of all values or of none; what else there is is for the reader -/
def admitted (ρ : Reading) : Value → Value → Bool
  | bool b, _ => b
  | schema, v => ρ schema v

mutual

/-- whether `v` is as the schema says -/
def validates (ρ : Reading) : Value → Value → Bool
  | obj keywords, v => keywordsHold ρ (knownKeys keywords) keywords v
  | schema, v => admitted ρ schema v
termination_by structural x => x

/-- whether every keyword holds; `known` are the keys that have a schema -/
def keywordsHold (ρ : Reading) (known : List String) : List (String × Value) → Value → Bool
  | [], _ => true
  | (word, x) :: r, v =>
    (if word = "properties" then propertiesHold ρ x v
      else if word = "items" then (v.follow .element).all fun w => validates ρ x w
      else if word = "additionalProperties" then (others known v).all (admitted ρ x)
      else plainHolds word x v) && keywordsHold ρ known r v
termination_by structural x => x

/-- `properties`: every member that has a schema is as it says -/
def propertiesHold (ρ : Reading) : Value → Value → Bool
  | obj properties, v => membersHold ρ properties v
  | _, _ => true
termination_by structural x => x

/-- whether every member with one of these schemas is as it says -/
def membersHold (ρ : Reading) : List (String × Value) → Value → Bool
  | [], _ => true
  | (key, schema) :: r, v =>
    (v.follow (.key key)).all (fun w => validates ρ schema w) && membersHold ρ r v
termination_by structural x => x

end

/-- whether one keyword holds -/
def keywordHolds (ρ : Reading) (known : List String) (word : String) (x v : Value) : Bool :=
  if word = "properties" then propertiesHold ρ x v
  else if word = "items" then (v.follow .element).all fun w => validates ρ x w
  else if word = "additionalProperties" then (others known v).all (admitted ρ x)
  else plainHolds word x v

theorem keywordsHold_eq_all (ρ : Reading) (known : List String) (keywords : List (String × Value))
    (v : Value) : keywordsHold ρ known keywords v
      = keywords.all fun m => keywordHolds ρ known m.1 m.2 v := by
  induction keywords with
  | nil => rfl
  | cons m r ih => rw [keywordsHold, ih, List.all_cons, keywordHolds]

theorem membersHold_eq_all (ρ : Reading) (properties : List (String × Value)) (v : Value) :
    membersHold ρ properties v = properties.all fun m =>
      (v.follow (.key m.1)).all fun w => validates ρ m.2 w := by
  induction properties with
  | nil => rfl
  | cons m r ih => rw [membersHold, ih, List.all_cons]

theorem validates_obj (ρ : Reading) (keywords : List (String × Value)) (v : Value) :
    validates ρ (obj keywords) v
      = keywords.all fun m => keywordHolds ρ (knownKeys keywords) m.1 m.2 v := by
  rw [validates, keywordsHold_eq_all]

end Value
end JsonShape
