import JsonShape.Evidence.Scalar
import JsonShape.Format.Detect
import JsonShape.Tag

/-!
# What is read off a value

Keywords and evidence both speak of the facets of a value: its tag, its number, the length of a
string, the size of an array, the format of a string.  A facet that a value does not have is absent.

* `Tag.admits_iff`  a tag admits what has it, and that of all numbers also whole ones.
-/

namespace JsonShape
namespace Value

/-- the tag of its type; a whole number is an integer however it is written -/
def tag? : Value → Option Tag
  | null => some .null
  | bool _ => some .boolean
  | num n => some (if n.isWhole then .integer else .number)
  | str _ => some .string
  | arr _ => some .array
  | tuple _ => some .array
  | obj _ => some .object
  | foreign _ => none

def number? : Value → Option Number
  | num n => some n
  | _ => none

/-- the length of a string, in code points -/
def length? : Value → Option Int
  | str s => some s.length
  | _ => none

def size? : Value → Option Int
  | arr items => some items.length
  | tuple items => some items.length
  | _ => none

/-- the outcome of looking for the format of a string -/
def outcome? : Value → Option (Option Format)
  | str s => some (Format.detect s)
  | _ => none

/-! ### which facets go with which tags -/

theorem exists_number {v : Value} :
    (∃ n, v.number? = some n) ↔ v.tag? = some .integer ∨ v.tag? = some .number := by
  cases v with
  | num n => cases h : n.isWhole <;> simp [number?, tag?, h]
  | _ => simp [number?, tag?, Tag.null, Tag.boolean, Tag.string, Tag.array, Tag.object, Tag.integer,
      Tag.number]

theorem exists_length {v : Value} : (∃ n, v.length? = some n) ↔ v.tag? = some .string := by
  cases v with
  | num n => cases h : n.isWhole <;> simp [length?, tag?, h, Tag.string, Tag.integer, Tag.number]
  | _ => simp [length?, tag?, Tag.null, Tag.boolean, Tag.string, Tag.array, Tag.object]

theorem exists_outcome {v : Value} : (∃ x, v.outcome? = some x) ↔ v.tag? = some .string := by
  cases v with
  | num n => cases h : n.isWhole <;> simp [outcome?, tag?, h, Tag.string, Tag.integer, Tag.number]
  | _ => simp [outcome?, tag?, Tag.null, Tag.boolean, Tag.string, Tag.array, Tag.object]

theorem exists_size {v : Value} : (∃ n, v.size? = some n) ↔ v.tag? = some .array := by
  cases v with
  | num n => cases h : n.isWhole <;> simp [size?, tag?, h, Tag.array, Tag.integer, Tag.number]
  | _ => simp [size?, tag?, Tag.null, Tag.boolean, Tag.string, Tag.array, Tag.object]

theorem exists_members {v : Value} : (∃ members, v = obj members) ↔ v.tag? = some .object := by
  cases v with
  | num n => cases h : n.isWhole <;> simp [tag?, h, Tag.object, Tag.integer, Tag.number]
  | _ => simp [tag?, Tag.null, Tag.boolean, Tag.string, Tag.array, Tag.object]

end Value

namespace Tag

/-- whether a value is of the type of a tag -/
def admits (tag : Tag) (v : Value) : Bool :=
  v.tag? == some tag || tag == .number && v.tag? == some .integer

theorem admits_iff {tag : Tag} {v : Value} :
    tag.admits v = true ↔ v.tag? = some tag ∨ tag = .number ∧ v.tag? = some .integer := by
  simp [admits]

end Tag

/-- whether a value is of one of the types -/
def TypeKeyword.admits (type : TypeKeyword) (v : Value) : Bool :=
  match type with
  | one tag => tag.admits v
  | union tags => tags.any fun tag => tag.admits v

end JsonShape
