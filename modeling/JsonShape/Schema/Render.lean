import JsonShape.Options.Basic
import JsonShape.Schema.Basic
import JsonShape.Tree.Basic

/-!
# From evidence to a schema

`Schema.ofTree` states what the evidence supports, under the options.  Where both objects and arrays
were seen, neither is described beyond its type.  A key is judged by how many of the objects at its
position held it, the elements of arrays by how many there were.

* `Schema.own_ofTree`  what a schema says of a position depends on the evidence there and on the
                       presence of its keys.
-/

namespace JsonShape

/-! ### single keywords -/

namespace Evidence

/-- whether objects are described: they were seen, and no arrays -/
def describesObjects (e : Evidence) : Bool :=
  e.types.contains .object && !e.types.contains .array

/-- whether arrays are described: they were seen, and no objects -/
def describesArrays (e : Evidence) : Bool :=
  e.types.contains .array && !e.types.contains .object

/-- whether numbers were seen -/
def hasNumbers (e : Evidence) : Bool :=
  e.types.contains .integer || e.types.contains .number

/-- the type; a single one is that of whole numbers if numbers were seen, all of them whole -/
def typeKeyword (e : Evidence) : TypeKeyword :=
  match TypeKeyword.unify e.types with
  | .one tag => .one (if e.hasNumbers && e.integerOnly then .integer else tag)
  | .union tags => .union tags

/-- the single types whose values may be enumerated -/
def enumerable : List Tag := [.string, .number, .integer]

/-- the distinct values, ascending, where there is one type and they are few enough -/
def enumeration (threshold : Nat) (e : Evidence) : List Scalar :=
  match e.typeKeyword with
  | .one tag =>
    if enumerable.contains tag && !e.distinct.overflow && e.distinct.values.size ≤ threshold then
      e.distinct.values.toList.map Candidate.value
    else []
  | .union _ => []

end Evidence

/-- something that is said only if it is switched on and there is reason to -/
def Bounds.spokenIf {α : Type} (on : Bool) (b : Bounds α) : Bounds α := if on then b else ∅

namespace Schema

/-- the keys that are required among the properties of `instances` objects, ascending -/
def requiredKeys (policy : Policy) (instances : Int) (properties : List (String × Tree)) :
    List String :=
  let required := properties.filter fun p => policy.requires p.2.here.presence instances
  (OrdSet.ofList (required.map Prod.fst)).toList

/-- what a schema says of the position itself -/
def keywords (o : Options) (instances : Int) (e : Evidence) (properties : List (String × Tree)) :
    Keywords where
  type := e.typeKeyword
  object :=
    if e.describesObjects then
      some ⟨requiredKeys o.requiredPolicy instances properties, o.additionalProperties⟩
    else none
  sizes := e.sizes.spokenIf (e.describesArrays && o.minmax.isTruthy)
  lengths := e.lengths.spokenIf (e.types.contains .string && o.minmax.isTruthy)
  format :=
    if e.types.contains .string && o.detectFormats.isTruthy then Format.agreed e.formats else none
  numbers := e.numbers.spokenIf (e.hasNumbers && o.minmax.isTruthy)
  enum := e.enumeration o.enumThreshold
  examples := if o.examples.isTruthy then e.examples else []

mutual

/-- the schema of a tree whose root was seen `instances` times -/
def ofTree (o : Options) (instances : Int) : Tree → Schema
  | ⟨here, properties, items⟩ =>
    ⟨keywords o instances here properties,
      if here.describesObjects then ofProperties o properties else [],
      if here.describesArrays then ofItems o here.itemCount items else none⟩

/-- the schemas of object keys, each seen as often as it was present -/
def ofProperties (o : Options) : List (String × Tree) → List (String × Schema)
  | [] => []
  | (key, t) :: r => (key, ofTree o t.here.presence t) :: ofProperties o r

/-- the schema of the elements of arrays -/
def ofItems (o : Options) (count : Int) : Option Tree → Option Schema
  | none => none
  | some t => some (ofTree o count t)

end

theorem ofProperties_eq_map (o : Options) (properties : List (String × Tree)) :
    ofProperties o properties
      = properties.map fun p => (p.1, ofTree o p.2.here.presence p.2) := by
  induction properties with
  | nil => rfl
  | cons p r ih => rw [ofProperties, ih, List.map_cons]

theorem ofItems_eq_map (o : Options) (count : Int) (items : Option Tree) :
    ofItems o count items = items.map (ofTree o count) := by
  cases items <;> rfl

theorem own_ofTree (o : Options) (instances : Int) (t : Tree) :
    (ofTree o instances t).own = keywords o instances t.here t.properties := by
  cases t
  rfl

end Schema
end JsonShape
