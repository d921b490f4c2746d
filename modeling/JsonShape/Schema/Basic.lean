import JsonShape.Evidence.Basic
import JsonShape.Position

/-!
# Schemas

A `Schema` describes the values at one position: the keywords that speak of the position itself, a
schema per object key, and one for the elements of arrays.

`Schema.toValue` writes it as an object.  What is not said has no keyword: an absent bound, an empty
list of required keys, of enumerated values or of examples.

* `Schema.propertyValues_eq_map`, `Schema.itemsValue_eq_map`  the schemas below are written the same
                                                              way;
* `Schema.at?_cons`  a position is reached step by step.
-/

namespace JsonShape

/-- what a schema says about the keys of objects, beside their schemas -/
structure ObjectKeywords where
  required : List String
  additional : Value

/-- what a schema says about a position itself; a format with the empty name says nothing -/
@[ext] structure Keywords where
  type : TypeKeyword
  object : Option ObjectKeywords
  sizes : Bounds Int
  lengths : Bounds Int
  format : Option Format
  numbers : Bounds Number
  enum : List Scalar
  examples : List Value

/-- a description of the values at a position and below; the schemas of object keys are written only
where objects are described -/
structure Schema where
  own : Keywords
  properties : List (String × Schema)
  items : Option Schema

def TypeKeyword.toValue : TypeKeyword → Value
  | one tag => .str tag.name
  | union tags => .arr (tags.map fun tag => .str tag.name)

namespace Keywords

/-- a keyword that is written if there is a value for it -/
def optional (name : String) : Option Value → List (String × Value)
  | some v => [(name, v)]
  | none => []

/-- a keyword that is written if its list is not empty -/
def nonempty (name : String) : List Value → List (String × Value)
  | [] => []
  | v :: r => [(name, .arr (v :: r))]

/-- a format that says something -/
def spoken : Option Format → Option Format
  | some f => if f.name = "" then none else some f
  | none => none

/-- the keywords of a position, apart from those that hold schemas -/
def members (k : Keywords) : List (String × Value) :=
  [("type", k.type.toValue)]
    ++ (match k.object with
      | some o => nonempty "required" (o.required.map .str)
          ++ [("additionalProperties", o.additional)]
      | none => [])
    ++ optional "minItems" (k.sizes.least.map .int)
    ++ optional "maxItems" (k.sizes.greatest.map .int)
    ++ optional "minLength" (k.lengths.least.map .int)
    ++ optional "maxLength" (k.lengths.greatest.map .int)
    ++ optional "format" ((spoken k.format).map fun f => .str f.name)
    ++ optional "minimum" (k.numbers.least.map .num)
    ++ optional "maximum" (k.numbers.greatest.map .num)
    ++ nonempty "enum" (k.enum.map Scalar.toValue)
    ++ nonempty "examples" k.examples

end Keywords

namespace Schema

mutual

def members : Schema → List (String × Value)
  | ⟨own, properties, items⟩ =>
    own.members
      ++ (if own.object.isSome then [("properties", .obj (propertyValues properties))] else [])
      ++ Keywords.optional "items" (itemsValue items)

/-- the schemas of object keys, each as an object -/
def propertyValues : List (String × Schema) → List (String × Value)
  | [] => []
  | (key, s) :: r => (key, .obj (members s)) :: propertyValues r

/-- the schema of the elements as an object -/
def itemsValue : Option Schema → Option Value
  | none => none
  | some s => some (.obj (members s))

end

def toValue (s : Schema) : Value := .obj s.members

theorem propertyValues_eq_map (properties : List (String × Schema)) :
    propertyValues properties = properties.map fun p => (p.1, p.2.toValue) := by
  induction properties with
  | nil => rfl
  | cons p r ih => rw [propertyValues, ih, List.map_cons, toValue]

theorem itemsValue_eq_map (items : Option Schema) : itemsValue items = items.map toValue := by
  cases items <;> rfl

/-- the schema one step down -/
def step? (s : Schema) : Step → Option Schema
  | .key name => s.properties.lookup name
  | .element => s.items

/-- the schema at a position -/
def at? (s : Schema) : Position → Option Schema
  | [] => some s
  | x :: p =>
    match s.step? x with
    | some inner => inner.at? p
    | none => none

theorem at?_cons (s : Schema) (x : Step) (p : Position) :
    s.at? (x :: p) = (s.step? x).bind fun inner => inner.at? p := by
  rw [at?]
  cases s.step? x with
  | none => rfl
  | some inner => rfl

end Schema
end JsonShape
