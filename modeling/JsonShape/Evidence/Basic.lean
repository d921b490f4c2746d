import JsonShape.Evidence.Bounds
import JsonShape.Evidence.Distinct
import JsonShape.Format.Detect
import JsonShape.Tag

/-!
# Evidence

What is known about the values at one position: their types, the bounds of their numbers, string
lengths and array sizes, the candidates for an enumeration, the formats of their strings, some
examples, and how often they occurred.

* `Evidence.merge`    the evidence of two sets of values seen apart;
* `Evidence.sameAs`   equality, which leaves out the examples.
-/

namespace JsonShape

/-- how many distinct values and how many examples are kept; less than none if negative -/
structure Caps where
  distinct : Int
  examples : Int

/-- fifty distinct values and three examples -/
def Caps.default : Caps := ⟨50, 3⟩

/-- what is known about the values at one position; lengths are in code points, `itemCount` counts
the elements of all arrays, `formats` has none for a string without one, and `presence` is how many
objects held the key of this position -/
@[ext] structure Evidence where
  types : OrdSet Tag
  integerOnly : Bool
  numbers : Bounds Number
  lengths : Bounds Int
  sizes : Bounds Int
  itemCount : Int
  distinct : Distinct
  formats : OrdSet (Option Format)
  examples : List Value
  presence : Int

namespace Evidence

def empty : Evidence := ⟨∅, true, ∅, ∅, ∅, 0, ∅, ∅, [], 0⟩

instance : EmptyCollection Evidence := ⟨empty⟩

instance : Inhabited Evidence := ⟨empty⟩

/-! ### seeing one value -/

/-- the value was of this type -/
def seeTag (e : Evidence) (tag : Tag) : Evidence := { e with types := e.types.insert tag }

/-- count a scalar among the distinct ones, and keep the value as an example if there is room -/
def record (caps : Caps) (e : Evidence) (s : Scalar) (v : Value) : Evidence :=
  { e with
    distinct := e.distinct.record caps.distinct s.candidate
    examples := if (e.examples.length : Int) < caps.examples then e.examples ++ [v]
      else e.examples }

def seeBool (caps : Caps) (e : Evidence) (b : Bool) : Evidence :=
  (e.seeTag .boolean).record caps (.bool b) (.bool b)

/-- a number was seen; the example keeps how it was written, all else its normal form -/
def seeNumber (caps : Caps) (e : Evidence) (n : Number) : Evidence :=
  let tagged :=
    if n.isWhole then e.seeTag .integer
    else { e.seeTag .number with integerOnly := false }
  { tagged with numbers := e.numbers.observe n.normal }.record caps (.num n.normal) (.num n)

def seeString (caps : Caps) (e : Evidence) (s : String) : Evidence :=
  { e.seeTag .string with
    lengths := e.lengths.observe s.length
    formats := e.formats.insert (Format.detect s) }.record caps (.str s) (.str s)

/-- an array of so many elements was seen -/
def seeArray (e : Evidence) (size : Nat) : Evidence :=
  { e.seeTag .array with
    sizes := e.sizes.observe size
    itemCount := e.itemCount + size }

/-- an object held the key of this position -/
def bePresent (e : Evidence) : Evidence := { e with presence := e.presence + 1 }

/-! ### two sides -/

/-- the first `n` of a list; for a negative `n` all but the last `-n` -/
def upTo {α : Type} (n : Int) (l : List α) : List α :=
  if 0 ≤ n then l.take n.toNat else l.take (l.length - n.natAbs)

/-- the evidence of the values of both sides -/
def merge (caps : Caps) (a b : Evidence) : Evidence where
  types := a.types.union b.types
  integerOnly := a.integerOnly && b.integerOnly
  numbers := a.numbers.merge b.numbers
  lengths := a.lengths.merge b.lengths
  sizes := a.sizes.merge b.sizes
  itemCount := a.itemCount + b.itemCount
  distinct := a.distinct.merge caps.distinct b.distinct
  formats := a.formats.union b.formats
  examples := upTo caps.examples (a.examples ++ b.examples)
  presence := a.presence + b.presence

/-- whether two bounds are level, or both absent -/
def sameBound : Option Number → Option Number → Bool
  | none, none => true
  | some x, some y => compare x y == .eq
  | _, _ => false

/-- whether the evidence is the same but for the examples, numbers taken by value -/
def sameAs (a b : Evidence) : Bool :=
  a.types.sameAs b.types && a.integerOnly == b.integerOnly
    && sameBound a.numbers.least b.numbers.least
    && sameBound a.numbers.greatest b.numbers.greatest
    && a.lengths.least == b.lengths.least && a.lengths.greatest == b.lengths.greatest
    && a.sizes.least == b.sizes.least && a.sizes.greatest == b.sizes.greatest
    && a.itemCount == b.itemCount && a.distinct.sameAs b.distinct
    && a.formats.sameAs b.formats && a.presence == b.presence

end Evidence
end JsonShape
