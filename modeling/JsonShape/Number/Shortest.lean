import JsonShape.Number.Basic

/-!
# The shortest decimal of a double

`Binary64.shortest` writes the distance of a double from zero with the fewest digits that read back
as the same double.  The reals that round to it form an interval, whose ends belong to it when the
significand is even.  For one digit, then two, and so on, the two neighbours of the value on the
decimal grid of that many digits are tested; the first grid with a neighbour in the interval wins,
of two neighbours the nearer, and of two equally near the even one.

All numbers are counted in quarters of the smallest positive double, so that the interval's ends are
whole.

* `Decimal.trim_digits`  dropping trailing zeros leaves no trailing zero.
-/

namespace JsonShape

/-- a decimal `digits * 10 ^ exponent`, the digits read as a whole number -/
structure Decimal where
  digits : Nat
  exponent : Int

namespace Decimal

/-- how many decimal digits a number has; zero has one -/
def width (n : Nat) : Nat := (Nat.toDigits 10 n).length

/-- the digits without trailing zeros, first digit first -/
def trimmed (d : Decimal) : List Char :=
  ((Nat.toDigits 10 d.digits).reverse.dropWhile (· == '0')).reverse

theorem trim_digits (d : Decimal) : d.trimmed.getLast? ≠ some '0' := by
  intro h
  rw [trimmed, List.getLast?_reverse] at h
  have hn := List.head?_dropWhile_not (· == '0') (Nat.toDigits 10 d.digits).reverse
  rw [h] at hn
  exact absurd hn (by decide)

/-- the power of ten of the first digit -/
def leading (d : Decimal) : Int := width d.digits + d.exponent - 1

end Decimal

namespace Binary64

/-- one, in quarter units -/
def quarterOne : Nat := 4 * one

/-- the distance from zero, in quarter units -/
def quarters (f : Binary64) : Nat := 4 * f.magnitude

/-- the distance to the double above is four quarter steps; half of it still rounds back -/
def upperEnd (f : Binary64) : Nat := f.quarters + 2 <<< f.scale

/-- the gap below is half as wide where a new power of two begins -/
def lowerEnd (f : Binary64) : Nat :=
  if f.fraction.val = 0 ∧ 1 < f.exponent.val then f.quarters - 1 <<< f.scale
  else f.quarters - 2 <<< f.scale

/-- whether the decimal rounds to the double -/
def reads (f : Binary64) (d : Decimal) : Bool :=
  let x := d.digits * Nat.pow 10 d.exponent.toNat * quarterOne
  let lo := f.lowerEnd * Nat.pow 10 (-d.exponent).toNat
  let hi := f.upperEnd * Nat.pow 10 (-d.exponent).toNat
  if f.significand % 2 == 0 then decide (lo ≤ x) && decide (x ≤ hi)
  else decide (lo < x) && decide (x < hi)

/-- the power of ten of the first digit of the value -/
def decade (f : Binary64) : Int :=
  if quarterOne ≤ f.quarters then (Decimal.width (f.quarters / quarterOne) : Int) - 1
  else -(Decimal.width ((quarterOne - 1) / f.quarters) : Int)

/-- the neighbour of the value on the grid of `n` digits that rounds to it, the nearer one of two -/
def onGrid? (f : Binary64) (n : Nat) : Option Decimal :=
  let exponent := f.decade + 1 - n
  let step := Nat.pow 10 exponent.toNat * quarterOne
  let value := f.quarters * Nat.pow 10 (-exponent).toNat
  let below : Decimal := ⟨value / step, exponent⟩
  let above : Decimal := ⟨value / step + 1, exponent⟩
  let rest := value % step
  let upward := decide (step < 2 * rest) || (2 * rest == step && below.digits % 2 == 1)
  match f.reads below, f.reads above with
  | true, true => some (if upward then above else below)
  | true, false => some below
  | false, true => some above
  | false, false => none

/-- the decimal of fewest digits that reads back, and of these the nearest; seventeen always do -/
def shortest (f : Binary64) : Decimal :=
  if f.magnitude = 0 then ⟨0, 0⟩
  else ((List.range 17).findSome? fun i => f.onGrid? (i + 1)).getD ⟨0, 0⟩

end Binary64
end JsonShape
