import JsonShape.Evidence.Distinct
import JsonShape.Proofs.Numbers
import JsonShape.Proofs.Sets

/-!
# Distinct values under a cap

Counting distinct candidates one by one, and merging counts made apart, both come to the same: the
set of all candidates if it fits under the cap, and otherwise only that it does not.  The overflow
therefore depends on how many candidates there are in total, not on how they arrive.

* `Distinct.foldl_record`          recording a list is capping the set of its members;
* `Distinct.merge_capped`          merging capped sets is capping their union;
* `Distinct.merge_assoc`           counts are merged in any grouping, whatever they hold;
* `Distinct.merge_sameAs_merge`   and in any order;
* `Candidate.eq_of_level`          level candidates of values are the same.
-/

namespace JsonShape
open Std

namespace Distinct
variable {cap : Int}

/-- a set of candidates, or that there are more than the cap -/
def capped (cap : Int) (s : OrdSet Candidate) : Distinct :=
  if (s.size : Int) ≤ cap then ⟨s, false⟩ else tooMany

theorem capped_of_le {s : OrdSet Candidate} (h : (s.size : Int) ≤ cap) :
    capped cap s = ⟨s, false⟩ := if_pos h

theorem capped_of_lt {s : OrdSet Candidate} (h : cap < (s.size : Int)) :
    capped cap s = tooMany := if_neg (Int.not_le.mpr h)

theorem capped_empty (h : 0 ≤ cap) : capped cap ∅ = ∅ := capped_of_le h

theorem record_capped (s : OrdSet Candidate) (c : Candidate) :
    (capped cap s).record cap c = capped cap (s.insert c) := by
  by_cases hs : (s.size : Int) ≤ cap
  · rw [capped_of_le hs]
    cases hc : s.contains c with
    | true =>
      rw [OrdSet.insert_of_contains hc, capped_of_le hs]
      simp only [record, hc, if_true, Bool.false_eq_true, if_false]
    | false =>
      have hsize := OrdSet.size_insert_of_not_contains hc
      simp only [record, hc, Bool.false_eq_true, if_false]
      by_cases hcap : cap ≤ s.size
      · rw [if_pos hcap, capped_of_lt (by omega)]
      · rw [if_neg hcap, capped_of_le (by omega)]
  · have hlt : cap < (s.size : Int) := Int.not_le.mp hs
    have hsize : s.size ≤ (s.insert c).size := by
      apply OrdSet.size_le_of_contains
      intro a ha
      rw [OrdSet.contains_insert, OrdSet.contains_of_mem ha, Bool.true_or]
    rw [capped_of_lt hlt, capped_of_lt (by omega)]
    exact record_of_overflow rfl c

theorem foldl_record (s : OrdSet Candidate) (l : List Candidate) :
    l.foldl (record cap) (capped cap s) = capped cap (l.foldl OrdSet.insert s) := by
  induction l generalizing s with
  | nil => rfl
  | cons c r ih => rw [List.foldl_cons, List.foldl_cons, record_capped, ih]

/-! ### merging -/

theorem tooMany_merge (d : Distinct) : tooMany.merge cap d = tooMany := merge_overflow rfl

theorem merge_tooMany (d : Distinct) : d.merge cap tooMany = tooMany :=
  merge_overflow (Bool.or_true _)

theorem merge_uncapped (s t : OrdSet Candidate) :
    merge cap ⟨s, false⟩ ⟨t, false⟩ = capped cap (s.union t) := by
  simp only [merge, capped, Bool.or_self, Bool.false_eq_true, if_false]
  by_cases h : cap < ((s.union t).size : Int)
  · rw [if_pos h, if_neg (by omega)]
  · rw [if_neg h, if_pos (by omega)]

theorem capped_merge (s t : OrdSet Candidate) :
    (capped cap s).merge cap ⟨t, false⟩ = capped cap (s.union t) := by
  have hle := OrdSet.size_le_size_union_left s t
  by_cases hs : (s.size : Int) ≤ cap
  · rw [capped_of_le hs, merge_uncapped]
  · rw [capped_of_lt (Int.not_le.mp hs), capped_of_lt (s := s.union t) (by omega), tooMany_merge]

theorem merge_capped_right (s t : OrdSet Candidate) :
    merge cap ⟨s, false⟩ (capped cap t) = capped cap (s.union t) := by
  have hle := OrdSet.size_le_size_union_right s t
  by_cases ht : (t.size : Int) ≤ cap
  · rw [capped_of_le ht, merge_uncapped]
  · rw [capped_of_lt (Int.not_le.mp ht), capped_of_lt (s := s.union t) (by omega), merge_tooMany]

theorem merge_capped (s t : OrdSet Candidate) :
    (capped cap s).merge cap (capped cap t) = capped cap (s.union t) := by
  have hle := OrdSet.size_le_size_union_right s t
  by_cases ht : (t.size : Int) ≤ cap
  · rw [capped_of_le ht, capped_merge]
  · rw [capped_of_lt (Int.not_le.mp ht), capped_of_lt (s := s.union t) (by omega), merge_tooMany]

/-- the counts may exceed the cap, or keep candidates beside an overflow -/
theorem merge_assoc (a b c : Distinct) :
    (a.merge cap b).merge cap c = a.merge cap (b.merge cap c) := by
  obtain ⟨s, i⟩ := a
  obtain ⟨t, j⟩ := b
  obtain ⟨u, k⟩ := c
  cases i with
  | true => rw [merge_overflow (a := ⟨s, true⟩) rfl, tooMany_merge, merge_overflow rfl]
  | false =>
    cases j with
    | true =>
      rw [merge_overflow (b := ⟨t, true⟩) rfl, merge_overflow (a := ⟨t, true⟩) rfl, tooMany_merge,
        merge_tooMany]
    | false =>
      cases k with
      | true =>
        rw [merge_overflow (b := ⟨u, true⟩) (Bool.or_true _),
          merge_overflow (b := ⟨u, true⟩) rfl, merge_tooMany]
      | false =>
        rw [merge_uncapped, merge_uncapped, capped_merge, merge_capped_right, OrdSet.union_assoc]

theorem sameAs_refl (d : Distinct) : d.sameAs d = true := by
  rw [sameAs, OrdSet.sameAs_refl, beq_self_eq_true]
  rfl

theorem capped_sameAs_capped {s t : OrdSet Candidate} (h : s.sameAs t = true) :
    (capped cap s).sameAs (capped cap t) = true := by
  have hsize : s.size = t.size := by
    rw [OrdSet.sameAs, Bool.and_eq_true, beq_iff_eq] at h
    exact h.1
  by_cases hs : (s.size : Int) ≤ cap
  · rw [capped_of_le hs, capped_of_le (hsize ▸ hs)]
    exact h
  · have hlt := Int.not_le.mp hs
    rw [capped_of_lt hlt, capped_of_lt (hsize ▸ hlt)]
    rfl

theorem merge_sameAs_merge (cap : Int) (a b : Distinct) :
    (a.merge cap b).sameAs (b.merge cap a) = true := by
  obtain ⟨s, i⟩ := a
  obtain ⟨t, j⟩ := b
  cases hij : i || j with
  | true =>
    rw [merge_overflow hij, merge_overflow ((Bool.or_comm j i).trans hij)]
    rfl
  | false =>
    obtain ⟨rfl, rfl⟩ := Bool.or_eq_false_iff.mp hij
    rw [merge_uncapped, merge_uncapped]
    exact capped_sameAs_capped (OrdSet.union_sameAs_union s t)

/-- within the cap, and without candidates after an overflow -/
structure Within (cap : Int) (d : Distinct) : Prop where
  size : (d.values.size : Int) ≤ cap
  emptied : d.overflow = true → d.values = ∅

namespace Within

theorem capped (hcap : 0 ≤ cap) (s : OrdSet Candidate) : (capped cap s).Within cap := by
  by_cases hs : (s.size : Int) ≤ cap
  · rw [capped_of_le hs]
    exact ⟨hs, fun h => absurd h Bool.false_ne_true⟩
  · rw [capped_of_lt (Int.not_le.mp hs)]
    exact ⟨hcap, fun _ => rfl⟩

variable {d : Distinct}

theorem eq_capped (h : d.Within cap) : d = tooMany ∨ d = Distinct.capped cap d.values := by
  obtain ⟨s, i⟩ := d
  cases i with
  | true =>
    have hs : s = ∅ := h.emptied rfl
    rw [hs]
    exact Or.inl rfl
  | false => exact Or.inr (capped_of_le h.size).symm

theorem empty_merge (h : d.Within cap) : (∅ : Distinct).merge cap d = d := by
  rcases h.eq_capped with hd | hd
  · rw [hd, merge_tooMany]
  · rw [hd]
    exact (merge_capped_right ∅ d.values).trans (by rw [OrdSet.empty_union])

theorem merge_empty (h : d.Within cap) : d.merge cap ∅ = d := by
  rcases h.eq_capped with hd | hd
  · rw [hd, tooMany_merge]
  · rw [hd]
    exact capped_merge d.values ∅

/-- one more candidate is the merge with the count of that candidate alone -/
theorem record_eq_merge (hcap : 0 ≤ cap) (h : d.Within cap) (c : Candidate) :
    d.record cap c = d.merge cap ((∅ : Distinct).record cap c) := by
  rcases h.eq_capped with hd | hd
  · rw [hd, tooMany_merge]
    exact record_of_overflow rfl c
  · rw [hd, ← capped_empty hcap, record_capped, record_capped, merge_capped, OrdSet.union_insert,
      OrdSet.union_empty]

theorem record (hcap : 0 ≤ cap) (h : d.Within cap) (c : Candidate) :
    (d.record cap c).Within cap := by
  rcases h.eq_capped with hd | hd
  · rw [hd, record_of_overflow rfl, ← hd]
    exact h
  · rw [hd, record_capped]
    exact capped hcap _

end Within
end Distinct

/-! ### scalars in normal form -/

theorem Kind.eq_of_name {k l : Kind} (h : k.name = l.name) : k = l := by
  cases k <;> cases l <;> first | rfl | exact absurd h (by decide)

namespace Scalar

/-- a scalar with its number, if it is one, in normal form -/
def normal : Scalar → Scalar
  | null => null
  | bool b => bool b
  | num n => num n.normal
  | str s => str s

theorem kind_normal (s : Scalar) : s.normal.kind = s.kind := by cases s <;> rfl

theorem str?_normal (s : Scalar) : s.normal.str? = s.str? := by cases s <;> rfl

theorem compare_def (s t : Scalar) :
    compare s t = (compare s.str? t.str?).then (compare s.num? t.num?) := rfl

theorem compare_normal_normal (s t : Scalar) : compare s.normal t.normal = compare s t := by
  rw [compare_def, compare_def, str?_normal, str?_normal]
  congr 1
  cases s <;> cases t <;> try rfl
  · exact Number.compare_normal_right _ _
  · exact Number.compare_normal_left _ _
  · exact Number.compare_normal_normal _ _

theorem sameAs_iff {s t : Scalar} : s.sameAs t = true ↔ s.kind = t.kind ∧ compare s t = .eq := by
  rw [sameAs, Bool.and_eq_true, decide_eq_true_iff, beq_iff_eq]

theorem normal_eq_normal {s t : Scalar} (h : s.sameAs t = true) : s.normal = t.normal := by
  obtain ⟨hk, hc⟩ := sameAs_iff.mp h
  cases s <;> cases t <;> try cases hk
  · rfl
  · rename_i x y
    cases x <;> cases y <;> first | rfl | exact absurd hc (by decide)
  · exact congrArg num (Number.normal_eq_normal hc)
  · rw [compare_str] at hc
    rw [LawfulEqOrd.eq_of_compare hc]

theorem normal_normal (s : Scalar) : s.normal.normal = s.normal := by
  cases s with
  | num n => exact congrArg num (Number.normal_normal n)
  | _ => rfl

theorem normal_sameAs (s : Scalar) : s.normal.sameAs s = true := by
  refine sameAs_iff.mpr ⟨kind_normal s, ?_⟩
  rw [← compare_normal_normal, normal_normal]
  exact ReflOrd.compare_self

end Scalar

/-! ### the candidates of values -/

/-- the candidate that a value is recorded as: a scalar in normal form, but not null -/
def Value.candidate? (v : Value) : Option Candidate :=
  match v.scalar? with
  | some .null => none
  | some s => some s.normal.candidate
  | none => none

namespace Candidate

theorem level_iff {s t : Scalar} :
    compare s.normal.candidate t.normal.candidate = .eq ↔ s.sameAs t = true := by
  rw [compare_eq, Ordering.then_eq_eq, Scalar.sameAs_iff, and_comm]
  apply and_congr
  · rw [LawfulEqOrd.compare_eq_iff_eq]
    show s.normal.kind.name = t.normal.kind.name ↔ _
    rw [Scalar.kind_normal, Scalar.kind_normal]
    exact ⟨Kind.eq_of_name, congrArg Kind.name⟩
  · show compare s.normal t.normal = .eq ↔ _
    rw [Scalar.compare_normal_normal]

theorem of_value {v : Value} {c : Candidate} (h : v.candidate? = some c) :
    ∃ s, v.scalar? = some s ∧ c = s.normal.candidate := by
  unfold Value.candidate? at h
  split at h
  · cases h
  · rename_i s _ hs
    cases h
    exact ⟨s, hs, rfl⟩
  · cases h

/-- level candidates of values are the same -/
theorem eq_of_level {v w : Value} {a b : Candidate} (ha : v.candidate? = some a)
    (hb : w.candidate? = some b) (h : compare a b = .eq) : a = b := by
  obtain ⟨s, _, rfl⟩ := of_value ha
  obtain ⟨t, _, rfl⟩ := of_value hb
  rw [Scalar.normal_eq_normal (level_iff.mp h)]

theorem eq_of_level_of_values {values : List Value} :
    ∀ a ∈ values.filterMap Value.candidate?, ∀ b ∈ values.filterMap Value.candidate?,
      compare a b = .eq → a = b := by
  intro a ha b hb
  obtain ⟨v, _, hv⟩ := List.mem_filterMap.mp ha
  obtain ⟨w, _, hw⟩ := List.mem_filterMap.mp hb
  exact eq_of_level hv hw

end Candidate
end JsonShape
