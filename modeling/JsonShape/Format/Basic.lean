import JsonShape.OrdSet

/-!
# String formats

A `Format` is the name of a class of strings.  Six names are given a meaning by their recognisers
(`JsonShape.Format.Detect`); others may occur and mean nothing.

The strings at one position have a set of outcomes, one per string: a format or none.  They agree on
a format if it is the only outcome; a string of no format is an outcome too, and vetoes.

* `Format.agreed_eq_some`  the strings agree on a format exactly if it is their only outcome.
-/

namespace JsonShape
open Std

/-- the name of a class of strings -/
structure Format where
  name : String
deriving DecidableEq

namespace Format

def dateTime : Format := ⟨"date-time"⟩
def email : Format := ⟨"email"⟩
def uuid : Format := ⟨"uuid"⟩
def uri : Format := ⟨"uri"⟩
def ipv4 : Format := ⟨"ipv4"⟩
def ipv6 : Format := ⟨"ipv6"⟩

instance : Ord Format := ⟨compareOn name⟩

instance : TransOrd Format := inferInstanceAs <| TransCmp (compareOn name)

instance : LawfulEqOrd Format where
  compare_self := ReflOrd.compare_self (α := String)
  eq_of_compare {a b} h := by
    cases a with
    | mk x =>
      cases b with
      | mk y => exact congrArg mk (LawfulEqOrd.eq_of_compare h)

/-- the format that all outcomes agree on, if any -/
def agreed (outcomes : OrdSet (Option Format)) : Option Format :=
  match outcomes.toList with
  | [outcome] => outcome
  | _ => none

theorem agreed_eq_some {outcomes : OrdSet (Option Format)} {f : Format} :
    agreed outcomes = some f ↔ outcomes.toList = [some f] := by
  unfold agreed
  split
  · rename_i o h
    rw [h]
    simp
  · rename_i h
    constructor
    · intro hn
      exact absurd hn (by simp)
    · intro hs
      exact absurd hs (h (some f))

end Format
end JsonShape
