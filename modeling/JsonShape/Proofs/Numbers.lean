import JsonShape.Number.Basic

/-!
# Numbers and their normal forms

Numbers of one value have one normal form: an integer if the value is whole, and otherwise the only
double of that value.  On normal forms the order by value tells all numbers apart, and `<` is the
strict part of that order wherever no nan takes part.

* `Binary64.eq_of_units`     a double other than zero is determined by its value;
* `Number.normal_eq_normal`  level numbers have the same normal form;
* `Number.lt_iff_compare`    `<` on numbers that are no nans.
-/

namespace JsonShape
open Std

/-! ### doubles -/

namespace Binary64

theorem magnitude_eq (f : Binary64) : f.magnitude = f.significand <<< (f.exponent.val - 1) := rfl

theorem significand_lt (f : Binary64) (h : f.exponent.val ≠ 0) :
    0x10000000000000 ≤ f.significand ∧ f.significand < 2 * 0x10000000000000 := by
  have hm := f.fraction.isLt
  rw [significand, if_neg h]
  omega

/-- the magnitudes of one exponent lie below those of the next -/
theorem magnitude_lt_of_exponent_lt {f g : Binary64} (h : f.exponent.val < g.exponent.val) :
    f.magnitude < g.magnitude := by
  have hg : g.exponent.val ≠ 0 := by omega
  have hgs := (significand_lt g hg).1
  have upper : f.magnitude < 0x10000000000000 <<< f.exponent.val := by
    by_cases h0 : f.exponent.val = 0
    · have hm := f.fraction.isLt
      rw [magnitude_eq, significand, if_pos h0, h0]
      rw [Nat.shiftLeft_zero, Nat.shiftLeft_zero]
      exact hm
    · have hfs := (significand_lt f h0).2
      have he : f.exponent.val = (f.exponent.val - 1) + 1 := by omega
      rw [magnitude_eq, he, Nat.add_sub_cancel, Nat.shiftLeft_eq, Nat.shiftLeft_eq, Nat.pow_succ]
      have hlt := Nat.mul_lt_mul_of_pos_right hfs (Nat.two_pow_pos (f.exponent.val - 1))
      omega
  have lower : 0x10000000000000 <<< f.exponent.val ≤ g.magnitude := by
    rw [magnitude_eq, Nat.shiftLeft_eq, Nat.shiftLeft_eq]
    exact Nat.mul_le_mul hgs (Nat.pow_le_pow_right (by decide) (by omega))
  exact Nat.lt_of_lt_of_le upper lower

theorem fields_of_magnitude {f g : Binary64} (h : f.magnitude = g.magnitude) :
    f.exponent.val = g.exponent.val ∧ f.fraction.val = g.fraction.val := by
  have he : f.exponent.val = g.exponent.val := by
    rcases Nat.lt_trichotomy f.exponent.val g.exponent.val with hlt | he | hgt
    · exact absurd h (Nat.ne_of_lt (magnitude_lt_of_exponent_lt hlt))
    · exact he
    · exact absurd h.symm (Nat.ne_of_lt (magnitude_lt_of_exponent_lt hgt))
  refine ⟨he, ?_⟩
  rw [magnitude_eq, magnitude_eq, he, Nat.shiftLeft_eq, Nat.shiftLeft_eq] at h
  have hs : f.significand = g.significand :=
    Nat.eq_of_mul_eq_mul_right (Nat.two_pow_pos (g.exponent.val - 1)) h
  rw [significand, significand, he] at hs
  split at hs
  · exact hs
  · exact Nat.add_left_cancel hs

theorem eq_of_units {f g : Binary64} (h : f.units = g.units) (h0 : f.units ≠ 0) : f = g := by
  have hm : f.magnitude = g.magnitude ∧ f.negative = g.negative := by
    unfold units at h h0
    cases hf : f.negative <;> cases hg : g.negative <;>
      simp only [hf, hg, Bool.false_eq_true, if_false, if_true] at h h0 <;>
      refine ⟨?_, ?_⟩ <;> first | rfl | omega
  obtain ⟨he, hf⟩ := fields_of_magnitude hm.1
  exact ext hm.2 he hf

theorem units_of_floor_rest {f g : Binary64} (hf : f.floor = g.floor) (hr : f.rest = g.rest) :
    f.units = g.units := by
  rw [← floor_rest f, ← floor_rest g, hf, hr]

theorem units_ne_zero_of_not_whole {f : Binary64} (h : f.isWhole = false) : f.units ≠ 0 := by
  intro h0
  have hr : f.rest = 0 := by
    rw [rest, h0]
    exact Int.zero_emod _
  rw [isWhole, hr] at h
  cases h

end Binary64

/-! ### normal forms -/

namespace Number

theorem layer_normal (n : Number) : n.normal.layer = n.layer := by
  cases n with
  | float f => cases h : f.isWhole <;> simp only [normal, h] <;> rfl
  | int _ => rfl
  | inf _ => rfl
  | nan _ => rfl

theorem floor_normal (n : Number) : n.normal.floor = n.floor := by
  cases n with
  | float f => cases h : f.isWhole <;> simp only [normal, h] <;> rfl
  | int _ => rfl
  | inf _ => rfl
  | nan _ => rfl

theorem rest_normal (n : Number) : n.normal.rest = n.rest := by
  cases n with
  | float f =>
    cases h : f.isWhole with
    | false => simp only [normal, h, Bool.false_eq_true, if_false]
    | true =>
      have hr : f.rest = 0 := by
        rw [Binary64.isWhole, beq_iff_eq] at h
        exact h
      simp only [normal, h, if_true]
      exact hr.symm
  | int _ => rfl
  | inf _ => rfl
  | nan _ => rfl

theorem compare_def (a b : Number) : compare a b =
    (compare a.layer b.layer).then ((compare a.floor b.floor).then (compare a.rest b.rest)) := rfl

theorem compare_normal_normal (a b : Number) : compare a.normal b.normal = compare a b := by
  rw [compare_def, compare_def, layer_normal, layer_normal, floor_normal, floor_normal,
    rest_normal, rest_normal]

theorem compare_self_normal (n : Number) : compare n n.normal = .eq := by
  rw [compare_def, layer_normal, floor_normal, rest_normal, ReflOrd.compare_self,
    ReflOrd.compare_self, ReflOrd.compare_self]
  rfl

theorem compare_normal_left (a b : Number) : compare a.normal b = compare a b :=
  (TransCmp.congr_left (compare_self_normal a)).symm

theorem compare_normal_right (a b : Number) : compare a b.normal = compare a b :=
  (TransCmp.congr_right (compare_self_normal b)).symm

theorem level_iff {a b : Number} :
    compare a b = .eq ↔ a.layer = b.layer ∧ a.floor = b.floor ∧ a.rest = b.rest := by
  rw [compare_def, Ordering.then_eq_eq, Ordering.then_eq_eq, LawfulEqOrd.compare_eq_iff_eq,
    LawfulEqOrd.compare_eq_iff_eq, LawfulEqOrd.compare_eq_iff_eq]

theorem isNan_normal (n : Number) : n.normal.isNan = n.isNan := by
  cases n with
  | float f => cases h : f.isWhole <;> simp only [normal, h] <;> rfl
  | int _ => rfl
  | inf _ => rfl
  | nan _ => rfl

theorem normal_int_float {n : Int} {f : Binary64} (hf : n = f.floor) (hr : 0 = f.rest) :
    (float f).normal = int n := by
  have h : f.isWhole = true := by
    rw [Binary64.isWhole, ← hr]
    rfl
  simp only [normal, h, if_true, hf]

theorem normal_float_float {f g : Binary64} (hf : f.floor = g.floor) (hr : f.rest = g.rest) :
    (float f).normal = (float g).normal := by
  have hw : f.isWhole = g.isWhole := by rw [Binary64.isWhole, Binary64.isWhole, hr]
  cases h : f.isWhole with
  | true =>
    rw [h] at hw
    simp only [normal, h, ← hw, if_true, hf]
  | false =>
    rw [Binary64.eq_of_units (Binary64.units_of_floor_rest hf hr)
      (Binary64.units_ne_zero_of_not_whole h)]

theorem normal_eq_normal {a b : Number} (h : compare a b = .eq) : a.normal = b.normal := by
  obtain ⟨hl, hf, hr⟩ := level_iff.mp h
  cases a with
  | int m =>
    cases b with
    | int n =>
      have hmn : m = n := hf
      rw [hmn]
    | float g => exact (normal_int_float hf hr).symm
    | inf s => cases s <;> exact absurd hl (by simp [layer])
    | nan _ => exact absurd hl (by simp [layer])
  | float f =>
    cases b with
    | int n => exact normal_int_float hf.symm hr.symm
    | float g => exact normal_float_float hf hr
    | inf s => cases s <;> exact absurd hl (by simp [layer])
    | nan _ => exact absurd hl (by simp [layer])
  | inf s =>
    cases b with
    | inf t =>
      have hst : s = t := by cases s <;> cases t <;> first | rfl | exact absurd hl (by simp [layer])
      rw [hst]
    | int _ => cases s <;> exact absurd hl (by simp [layer])
    | float _ => cases s <;> exact absurd hl (by simp [layer])
    | nan _ => cases s <;> exact absurd hl (by simp [layer])
  | nan j =>
    cases b with
    | nan k =>
      have hjk : j = k := Int.ofNat.inj hf
      rw [hjk]
    | int _ => exact absurd hl (by simp [layer])
    | float _ => exact absurd hl (by simp [layer])
    | inf s => cases s <;> exact absurd hl (by simp [layer])

/-! ### the strict order -/

theorem lt_iff_compare {a b : Number} (ha : a.isNan = false) (hb : b.isNan = false) :
    a < b ↔ compare a b = .lt := by
  show less a b = true ↔ _
  rw [less, ha, hb]
  cases compare a b <;> simp [Ordering.isLT]

/-- numbers neither of which is less are level, if they are no nans -/
theorem level_of_not_lt {a b : Number} (ha : a.isNan = false) (hb : b.isNan = false)
    (hab : ¬ a < b) (hba : ¬ b < a) : compare a b = .eq := by
  rw [lt_iff_compare ha hb] at hab
  rw [lt_iff_compare hb ha] at hba
  cases hc : compare a b with
  | lt => exact absurd hc hab
  | eq => rfl
  | gt => exact absurd (OrientedCmp.lt_of_gt hc) hba

theorem normal_lt {a b : Number} : a.normal < b ↔ a < b := by
  show less a.normal b = true ↔ less a b = true
  rw [less, less, isNan_normal, compare_normal_left]

theorem lt_normal {a b : Number} : a < b.normal ↔ a < b := by
  show less a b.normal = true ↔ less a b = true
  rw [less, less, isNan_normal, compare_normal_right]

theorem int_lt_int (a b : Int) : int a < int b ↔ a < b := by
  rw [lt_iff_compare rfl rfl, compare_def]
  show ((compare 1 1).then ((compare a b).then (compare 0 0))) = .lt ↔ _
  rw [ReflOrd.compare_self, ReflOrd.compare_self, Ordering.eq_then, Ordering.then_eq,
    Int.compare_eq_lt]

end Number
end JsonShape
