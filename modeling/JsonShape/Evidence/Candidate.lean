import JsonShape.Evidence.Scalar

/-!
# Candidates

A `Candidate` for an enumeration is a scalar with the name of the kind that it was seen as.  One
value seen as two kinds makes two candidates: true and the number one are told apart.

Candidates are ordered by value, and by kind where the values are level.

* `Candidate.compare_of_kind_eq`  candidates of one kind are ordered as their values;
* `Candidate.value_isLE`          ascending candidates have ascending values.
-/

namespace JsonShape
open Std

/-- a scalar and the name of the kind that it was seen as -/
structure Candidate where
  value : Scalar
  kind : String
deriving DecidableEq

/-- the scalar, seen as what it is -/
def Scalar.candidate (s : Scalar) : Candidate := ⟨s, s.kind.name⟩

namespace Candidate

instance : Ord Candidate := ⟨compareLex (compareOn value) (compareOn kind)⟩

instance : TransOrd Candidate := inferInstanceAs <| TransCmp (compareLex _ _)

theorem compare_eq (a b : Candidate) :
    compare a b = (compare a.value b.value).then (compare a.kind b.kind) := rfl

theorem compare_of_kind_eq {a b : Candidate} (h : a.kind = b.kind) :
    compare a b = compare a.value b.value := by
  rw [compare_eq, h, ReflOrd.compare_self]
  exact Ordering.then_eq

theorem value_isLE {a b : Candidate} (h : compare a b = .lt) :
    (compare a.value b.value).isLE = true := by
  rw [compare_eq] at h
  cases hv : compare a.value b.value with
  | lt => rfl
  | eq => rfl
  | gt =>
    rw [hv] at h
    exact absurd (show Ordering.gt = .lt from h) (by decide)

end Candidate
end JsonShape
