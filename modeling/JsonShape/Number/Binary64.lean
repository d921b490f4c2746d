/-!
# Finite double-precision numbers

A finite double is a sign, an exponent field and a fraction field.  Its value is a whole number of
`units` of `2 ^ -1074`, the smallest positive double, so that doubles and integers compare exactly
as whole numbers.

* `Binary64.ofBits?_toBits`  reading the bits of a finite double gives it back;
* `Binary64.floor_rest`      the value is its floor and a rest of less than one;
* `Binary64.isWhole_iff`     a double is whole exactly if it is its floor.
-/

namespace JsonShape

/-- a finite double: sign, exponent field and the bits below the leading one; the exponent field
2047 is kept for the infinities and the nans -/
structure Binary64 where
  negative : Bool
  exponent : Fin 2047
  fraction : Fin 0x10000000000000
deriving DecidableEq

namespace Binary64

/-! ### bits -/

/-- the finite double that 64 bits stand for, none if they stand for an infinity or a nan -/
def ofBits? (bits : Nat) : Option Binary64 :=
  if h : bits / 0x10000000000000 % 0x800 < 2047 then
    some ⟨bits / 0x8000000000000000 % 2 == 1, ⟨bits / 0x10000000000000 % 0x800, h⟩,
      ⟨bits % 0x10000000000000, Nat.mod_lt _ (by decide)⟩⟩
  else none

/-- the 64 bits of a double, as a number -/
def toBits (f : Binary64) : Nat :=
  (bif f.negative then 0x8000000000000000 else 0) + f.exponent.val * 0x10000000000000
    + f.fraction.val

theorem ext {f g : Binary64} (hs : f.negative = g.negative)
    (he : f.exponent.val = g.exponent.val) (hm : f.fraction.val = g.fraction.val) : f = g := by
  cases f with
  | mk s e m =>
    cases g with
    | mk s' e' m' =>
      cases hs
      cases Fin.ext he
      cases Fin.ext hm
      rfl

theorem ofBits?_toBits (f : Binary64) : ofBits? f.toBits = some f := by
  have he := f.exponent.isLt
  have hm := f.fraction.isLt
  have h1 : f.toBits / 0x10000000000000 % 0x800 = f.exponent.val := by
    cases hs : f.negative <;> simp only [toBits, hs, cond_true, cond_false] <;> omega
  have h2 : f.toBits % 0x10000000000000 = f.fraction.val := by
    cases hs : f.negative <;> simp only [toBits, hs, cond_true, cond_false] <;> omega
  have h3 : (f.toBits / 0x8000000000000000 % 2 == 1) = f.negative := by
    cases hs : f.negative <;> simp only [toBits, hs, cond_true, cond_false, beq_iff_eq,
      beq_eq_false_iff_ne] <;> omega
  rw [ofBits?, dif_pos (h1 ▸ he)]
  exact congrArg some (ext h3 h1 h2)

/-! ### value -/

theorem shiftLeft_pos (k : Nat) : 0 < 1 <<< k := by
  rw [Nat.shiftLeft_eq, Nat.one_mul]
  exact Nat.two_pow_pos k

/-- how many units make one; a power too large to be multiplied out while a proof is checked -/
@[irreducible] def one : Nat := 1 <<< 1074

theorem one_pos : 0 < one := by
  unfold one
  exact shiftLeft_pos 1074

/-- the fraction with its leading one, which numbers of the lowest exponent lack -/
def significand (f : Binary64) : Nat :=
  if f.exponent.val = 0 then f.fraction.val else 0x10000000000000 + f.fraction.val

/-- a step of the significand is worth as many doublings of a unit -/
def scale (f : Binary64) : Nat := f.exponent.val - 1

/-- the distance from zero in units -/
def magnitude (f : Binary64) : Nat := f.significand <<< f.scale

/-- the value in units; both zeros have none -/
def units (f : Binary64) : Int :=
  if f.negative then -(f.magnitude : Int) else f.magnitude

def floor (f : Binary64) : Int := f.units / one

/-- what is left above the floor, in units -/
def rest (f : Binary64) : Int := f.units % one

theorem floor_rest (f : Binary64) : f.floor * one + f.rest = f.units :=
  Int.ediv_mul_add_emod f.units one

theorem rest_nonneg (f : Binary64) : 0 ≤ f.rest :=
  Int.emod_nonneg _ (Int.ofNat_ne_zero.mpr (Nat.ne_of_gt one_pos))

theorem rest_lt (f : Binary64) : f.rest < one := Int.emod_lt_of_pos _ (Int.ofNat_lt.mpr one_pos)

def isWhole (f : Binary64) : Bool := f.rest == 0

theorem isWhole_iff {f : Binary64} : f.isWhole = true ↔ f.floor * one = f.units := by
  rw [isWhole, beq_iff_eq, ← floor_rest f]
  omega

end Binary64
end JsonShape
