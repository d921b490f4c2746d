import JsonShape.Number.Binary64

/-!
# Numbers

A number is an integer of any size or a double.  Numbers are ordered by exact value, an integer and
a double of one value being level; the infinities lie outside, and the nans above all else.

A nan carries a label: two nans are the same only if one is a copy of the other.  `<` is false as
soon as a nan takes part.

* `Number.compare_of_units`  finite numbers are ordered by their exact values;
* `Number.units?_normal`     the normal form of a number has its value;
* `Number.lt_irrefl`, `Number.not_lt_nan`, `Number.not_nan_lt`   what `<` refuses.
-/

namespace JsonShape
open Std

/-- an integer or a double -/
inductive Number where
  | int (value : Int)
  | float (value : Binary64)
  | inf (negative : Bool)
  | nan (label : Nat)
deriving DecidableEq

namespace Number

/-- a truth value as a number: zero or one -/
def ofBool : Bool → Number
  | false => int 0
  | true => int 1

/-- the number that 64 bits stand for; a nan gets the label -/
def ofBits (bits label : Nat) : Number :=
  match Binary64.ofBits? bits with
  | some f => float f
  | none =>
    if bits % 0x10000000000000 == 0 then inf (bits / 0x8000000000000000 % 2 == 1) else nan label

/-! ### order -/

/-- the four layers of the order: minus infinity, the finite numbers, infinity, the nans -/
def layer : Number → Nat
  | inf true => 0
  | int _ => 1
  | float _ => 1
  | inf false => 2
  | nan _ => 3

/-- the greatest integer that is not greater, or the label of a nan -/
def floor : Number → Int
  | int n => n
  | float f => f.floor
  | inf _ => 0
  | nan label => label

/-- what is left above the floor, in units of `2 ^ -1074` -/
def rest : Number → Int
  | int _ => 0
  | float f => f.rest
  | inf _ => 0
  | nan _ => 0

instance : Ord Number :=
  ⟨compareLex (compareOn layer) (compareLex (compareOn floor) (compareOn rest))⟩

instance : TransOrd Number := inferInstanceAs <| TransCmp (compareLex _ _)

/-- the exact value of a finite number, in units of `2 ^ -1074` -/
def units? : Number → Option Int
  | int n => some (n * Binary64.one)
  | float f => some f.units
  | inf _ => none
  | nan _ => none

theorem layer_of_units {x : Number} {a : Int} (h : x.units? = some a) : x.layer = 1 := by
  cases x with
  | int _ => rfl
  | float _ => rfl
  | inf _ => exact absurd h (by simp [units?])
  | nan _ => exact absurd h (by simp [units?])

/-- a finite number is its floor and a rest of less than one -/
theorem floor_rest_of_units {x : Number} {a : Int} (h : x.units? = some a) :
    x.floor * Binary64.one + x.rest = a ∧ 0 ≤ x.rest ∧ x.rest < Binary64.one := by
  cases x with
  | int n =>
    refine ⟨?_, Int.le_refl 0, Int.ofNat_lt.mpr Binary64.one_pos⟩
    rw [← Option.some.inj h]
    exact Int.add_zero _
  | float f =>
    rw [← Option.some.inj h]
    exact ⟨f.floor_rest, f.rest_nonneg, f.rest_lt⟩
  | inf _ => exact absurd h (by simp [units?])
  | nan _ => exact absurd h (by simp [units?])

/-- comparing quotients, then remainders, is comparing the numbers divided -/
theorem compare_quotient_then {d p q r s : Int} (hr : 0 ≤ r) (hrd : r < d) (hs : 0 ≤ s)
    (hsd : s < d) :
    (compare p q).then (compare r s) = compare (p * d + r) (q * d + s) := by
  have step : ∀ {u v : Int}, u < v → u * d + d ≤ v * d := by
    intro u v huv
    have h := Int.mul_le_mul_of_nonneg_right (Int.add_one_le_of_lt huv)
      (Int.le_of_lt (Int.lt_of_le_of_lt hr hrd))
    rw [Int.add_mul, Int.one_mul] at h
    exact h
  cases hc : compare p q with
  | lt =>
    have h := step (Int.compare_eq_lt.mp hc)
    exact (Int.compare_eq_lt.mpr (by omega)).symm
  | gt =>
    have h := step (Int.compare_eq_gt.mp hc)
    exact (Int.compare_eq_gt.mpr (by omega)).symm
  | eq =>
    rw [Int.compare_eq_eq.mp hc, Ordering.eq_then]
    cases hrs : compare r s with
    | lt =>
      have h := Int.compare_eq_lt.mp hrs
      exact (Int.compare_eq_lt.mpr (by omega)).symm
    | gt =>
      have h := Int.compare_eq_gt.mp hrs
      exact (Int.compare_eq_gt.mpr (by omega)).symm
    | eq =>
      rw [Int.compare_eq_eq.mp hrs]
      exact (Int.compare_eq_eq.mpr rfl).symm

/-- finite numbers are ordered by their exact values -/
theorem compare_of_units {x y : Number} {a b : Int} (hx : x.units? = some a)
    (hy : y.units? = some b) : compare x y = compare a b := by
  obtain ⟨ha, hx0, hx1⟩ := floor_rest_of_units hx
  obtain ⟨hb, hy0, hy1⟩ := floor_rest_of_units hy
  have hl : compareOn layer x y = .eq := by
    rw [compareOn, layer_of_units hx, layer_of_units hy]
    rfl
  have h := compare_quotient_then (p := x.floor) (q := y.floor) hx0 hx1 hy0 hy1
  rw [ha, hb] at h
  rw [← h]
  show (compareOn layer x y).then _ = _
  rw [hl]
  rfl

def isNan : Number → Bool
  | nan _ => true
  | _ => false

/-- whether `x` has the lesser value; a nan is neither less nor greater than anything -/
def less (x y : Number) : Bool :=
  !x.isNan && !y.isNan && (compare x y).isLT

instance : LT Number := ⟨fun x y => less x y = true⟩

instance : DecidableLT Number := fun x y => inferInstanceAs (Decidable (less x y = true))

theorem lt_irrefl (x : Number) : ¬ x < x := by
  intro h
  have hc : (compare x x).isLT = true := by
    have h' : less x x = true := h
    simp only [less, Bool.and_eq_true] at h'
    exact h'.2
  rw [ReflOrd.compare_self] at hc
  exact absurd hc (by decide)

theorem not_lt_nan (x : Number) (label : Nat) : ¬ x < nan label := by
  intro h
  have h' : less x (nan label) = true := h
  simp [less, isNan] at h'

theorem not_nan_lt (x : Number) (label : Nat) : ¬ nan label < x := by
  intro h
  have h' : less (nan label) x = true := h
  simp [less, isNan] at h'

/-! ### whole numbers -/

/-- whether the value is an integer; an infinity or a nan has none -/
def isWhole : Number → Bool
  | int _ => true
  | float f => f.isWhole
  | inf _ => false
  | nan _ => false

/-- the same value, written as an integer if it is one -/
def normal : Number → Number
  | float f => if f.isWhole then int f.floor else float f
  | n => n

theorem units?_normal (n : Number) : n.normal.units? = n.units? := by
  cases n with
  | float f =>
    cases h : f.isWhole with
    | false => rw [normal, h, if_neg Bool.false_ne_true]
    | true =>
      rw [normal, h, if_pos rfl]
      exact congrArg some (Binary64.isWhole_iff.mp h)
  | int _ => rfl
  | inf _ => rfl
  | nan _ => rfl

theorem normal_of_isWhole_eq_false {n : Number} (h : n.isWhole = false) : n.normal = n := by
  cases n with
  | float f =>
    have hf : f.isWhole = false := h
    simp only [normal, hf, Bool.false_eq_true, if_false]
  | int _ => rfl
  | inf _ => rfl
  | nan _ => rfl

theorem normal_normal (n : Number) : n.normal.normal = n.normal := by
  cases n with
  | float f => cases h : f.isWhole <;> simp [normal, h]
  | int _ => rfl
  | inf _ => rfl
  | nan _ => rfl

end Number
end JsonShape
