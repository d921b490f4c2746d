import JsonShape.Evidence.Candidate
import JsonShape.OrdSet

/-!
# Distinct values

The distinct candidates for an enumeration seen at one position, up to a cap.  One more than the cap
empties the set for good: from then on it is only known that there were too many.

* `record_of_overflow`  nothing is recorded any more after the overflow;
* `merge_overflow`      an overflow on either side stays.
-/

namespace JsonShape

/-- the distinct candidates, or that there were too many -/
structure Distinct where
  values : OrdSet Candidate
  overflow : Bool

namespace Distinct

def empty : Distinct := ⟨∅, false⟩

instance : EmptyCollection Distinct := ⟨empty⟩

def tooMany : Distinct := ⟨∅, true⟩

/-- one more candidate -/
def record (cap : Int) (d : Distinct) (c : Candidate) : Distinct :=
  if d.overflow then d
  else if d.values.contains c then d
  else if cap ≤ d.values.size then tooMany
  else ⟨d.values.insert c, false⟩

theorem record_of_overflow {cap : Int} {d : Distinct} (h : d.overflow = true)
    (c : Candidate) : d.record cap c = d := by
  simp only [record, h, if_true]

/-- the candidates of both sides -/
def merge (cap : Int) (a b : Distinct) : Distinct :=
  if a.overflow || b.overflow then tooMany
  else if cap < (a.values.union b.values).size then tooMany
  else ⟨a.values.union b.values, false⟩

theorem merge_overflow {cap : Int} {a b : Distinct} (h : (a.overflow || b.overflow) = true) :
    merge cap a b = tooMany := by
  simp only [merge, h, if_true]

/-- whether two counts are the same, numbers taken by value -/
def sameAs (a b : Distinct) : Bool :=
  a.overflow == b.overflow && a.values.sameAs b.values

end Distinct
end JsonShape
