import JsonShape.Evidence.Bounds
import JsonShape.Proofs.Numbers

/-!
# Bounds of a list

The two bounds are the same thing for an order and for its opposite: the foremost of the values
seen, the first one where several are foremost.  So one half is proved, for any order that is weak
on the values at hand, and read twice.  On numbers `<` is such an order as long as there is no nan.

* `Bounds.merge_assoc`            the grouping of merges does not matter;
* `Bounds.ofList_append`          the bounds of two lists are those of each, merged;
* `Bounds.admits_ofList`          bounds admit what lies between two of the values;
* `Bounds.ofList_append_between`  what lies between changes nothing;
* `Bounds.ofList_eq_of_mem`       where level means equal, only the members of the list matter.
-/

namespace JsonShape
open Std

/-! ### weak orders -/

/-- on the values of `P` the relation is the strict part of a total preorder -/
structure WeakOn {α : Type} (R : α → α → Prop) (P : α → Prop) : Prop where
  asymm : ∀ {a b}, P a → P b → R a b → ¬ R b a
  step : ∀ {a b c}, P a → P b → P c → ¬ R b a → ¬ R c b → ¬ R c a

namespace WeakOn
variable {α : Type} {R : α → α → Prop} {P : α → Prop}

theorem irrefl (h : WeakOn R P) {a : α} (ha : P a) : ¬ R a a :=
  fun haa => h.asymm ha ha haa haa

theorem trans (h : WeakOn R P) {a b c : α} (ha : P a) (hb : P b) (hc : P c) (hcb : R c b)
    (hba : R b a) : R c a := by
  apply Classical.byContradiction
  intro hca
  exact h.step hb ha hc (h.asymm hb ha hba) hca hcb

theorem opposite (h : WeakOn R P) : WeakOn (fun a b => R b a) P where
  asymm ha hb hab := h.asymm hb ha hab
  step ha hb hc hba hcb := h.step hc hb ha hcb hba

theorem of_compare [Ord α] [TransOrd α] (h : ∀ {a b}, P a → P b → (R a b ↔ compare a b = .lt)) :
    WeakOn R P where
  asymm ha hb hab := by
    rw [h hb ha]
    exact OrientedCmp.not_lt_of_lt ((h ha hb).mp hab)
  step {a b c} ha hb hc hba hcb := by
    rw [h hb ha] at hba
    rw [h hc hb] at hcb
    rw [h hc ha]
    intro hca
    have hab : (compare a b).isLE = true := by
      rw [← OrientedCmp.isGE_eq_isLE]
      cases hc' : compare b a <;> first | rfl | exact absurd hc' hba
    exact hcb (TransCmp.lt_of_lt_of_isLE hca hab)

end WeakOn

theorem Number.weakOn_lt : WeakOn (fun a b : Number => a < b) (fun n => n.isNan = false) :=
  WeakOn.of_compare lt_iff_compare

theorem weakOn_int_lt : WeakOn (fun a b : Int => a < b) (fun _ => True) :=
  WeakOn.of_compare fun _ _ => Int.compare_eq_lt.symm

/-! ### the foremost of two, and of a list -/

section
variable {α : Type} (R : α → α → Prop) [DecidableRel R]

/-- of two values the one that is before the other, otherwise the first -/
def foremost : Option α → Option α → Option α
  | none, y => y
  | some x, none => some x
  | some x, some y => some (if R y x then y else x)

def foremostOf (l : List α) : Option α := l.foldl (fun x a => foremost R x (some a)) none

end

section
variable {α : Type} {R : α → α → Prop} [DecidableRel R] {P : α → Prop}

theorem foremost_none (x : Option α) : foremost R x none = x := by cases x <;> rfl

theorem foremost_of_not_lt {a b : α} (h : ¬ R b a) :
    foremost R (some a) (some b) = some a := by
  rw [foremost, if_neg h]

theorem foremost_cases (a b : α) : foremost R (some a) (some b) = some a ∧ ¬ R b a
    ∨ foremost R (some a) (some b) = some b ∧ R b a := by
  by_cases h : R b a
  · exact Or.inr ⟨by rw [foremost, if_pos h], h⟩
  · exact Or.inl ⟨foremost_of_not_lt h, h⟩

theorem foremost_mem {x y : Option α} (hx : ∀ a ∈ x, P a) (hy : ∀ a ∈ y, P a) :
    ∀ a ∈ foremost R x y, P a := by
  cases x with
  | none => exact hy
  | some a =>
    cases y with
    | none => exact hx
    | some b =>
      rcases foremost_cases (R := R) a b with ⟨h, _⟩ | ⟨h, _⟩
      · rw [h]
        exact hx
      · rw [h]
        exact hy

theorem foremost_assoc (h : WeakOn R P) {x y z : Option α} (hx : ∀ a ∈ x, P a)
    (hy : ∀ a ∈ y, P a) (hz : ∀ a ∈ z, P a) :
    foremost R (foremost R x y) z = foremost R x (foremost R y z) := by
  cases x with
  | none => rfl
  | some a =>
    cases y with
    | none => rfl
    | some b =>
      cases z with
      | none => rw [foremost_none, foremost_none]
      | some c =>
        have ha := hx a rfl
        have hb := hy b rfl
        have hc := hz c rfl
        by_cases hba : R b a <;> by_cases hcb : R c b <;> simp only [foremost, hba, hcb, if_true,
          if_false]
        · rw [if_pos (h.trans ha hb hc hcb hba)]
        · rw [if_neg (h.step ha hb hc hba hcb)]

/-- the two orders of two values differ only where neither is before the other -/
theorem foremost_comm_or_level (h : WeakOn R P) {x y : Option α} (hx : ∀ a ∈ x, P a)
    (hy : ∀ a ∈ y, P a) : foremost R x y = foremost R y x
      ∨ ∃ a b, foremost R x y = some a ∧ foremost R y x = some b ∧ P a ∧ P b
        ∧ ¬ R a b ∧ ¬ R b a := by
  cases x with
  | none => exact Or.inl (foremost_none y).symm
  | some a =>
    cases y with
    | none => exact Or.inl rfl
    | some b =>
      have ha := hx a rfl
      have hb := hy b rfl
      rcases foremost_cases (R := R) a b with ⟨hab, hba⟩ | ⟨hab, hba⟩
      · rcases foremost_cases (R := R) b a with ⟨hba', hab'⟩ | ⟨hba', _⟩
        · exact Or.inr ⟨a, b, hab, hba', ha, hb, hab', hba⟩
        · exact Or.inl (hab.trans hba'.symm)
      · rw [hab, foremost_of_not_lt (h.asymm hb ha hba)]
        exact Or.inl rfl

theorem foremost_comm (h : WeakOn R P) (htotal : ∀ a b, ¬ R a b → ¬ R b a → a = b)
    {x y : Option α} (hx : ∀ a ∈ x, P a) (hy : ∀ a ∈ y, P a) :
    foremost R x y = foremost R y x := by
  rcases foremost_comm_or_level h hx hy with he | ⟨a, b, ha, hb, _, _, hab, hba⟩
  · exact he
  · rw [ha, hb, htotal a b hab hba]

theorem foldl_foremost (h : WeakOn R P) {l : List α} (hl : ∀ a ∈ l, P a) {x y : Option α}
    (hx : ∀ a ∈ x, P a) (hy : ∀ a ∈ y, P a) :
    l.foldl (fun x a => foremost R x (some a)) (foremost R x y)
      = foremost R x (l.foldl (fun x a => foremost R x (some a)) y) := by
  induction l generalizing y with
  | nil => rfl
  | cons b r ih =>
    obtain ⟨hb, hr⟩ := List.forall_mem_cons.mp hl
    have hb' : ∀ a ∈ some b, P a := by
      rintro a ⟨⟩
      exact hb
    rw [List.foldl_cons, List.foldl_cons, foremost_assoc h hx hy hb']
    exact ih hr (foremost_mem hy hb')

theorem foremostOf_mem {l : List α} {a : α} (h : a ∈ foremostOf R l) : a ∈ l := by
  have key : ∀ {l : List α} {x : Option α},
      ∀ a ∈ l.foldl (fun x a => foremost R x (some a)) x, a ∈ x ∨ a ∈ l := by
    intro l
    induction l with
    | nil =>
      intro x a ha
      exact Or.inl ha
    | cons b r ih =>
      intro x a ha
      rcases ih a ha with hx | hr
      · have := foremost_mem (R := R) (P := fun a => a ∈ x ∨ a ∈ b :: r) (x := x) (y := some b)
          (fun _ => Or.inl) (by rintro a ⟨⟩; exact Or.inr List.mem_cons_self)
        exact this a hx
      · exact Or.inr (List.mem_cons_of_mem b hr)
  rcases key a h with hx | hl
  · cases hx
  · exact hl

theorem foremostOf_append (h : WeakOn R P) {l m : List α} (hl : ∀ a ∈ l, P a)
    (hm : ∀ a ∈ m, P a) :
    foremostOf R (l ++ m) = foremost R (foremostOf R l) (foremostOf R m) := by
  have hf : ∀ a ∈ foremostOf R l, P a := fun a ha => hl a (foremostOf_mem ha)
  have hn : ∀ a ∈ (none : Option α), P a := by
    rintro a ⟨⟩
  rw [foremostOf, List.foldl_append, ← foremost_none (R := R) (List.foldl _ none l)]
  exact foldl_foremost h hm hf hn

theorem foremostOf_cons (h : WeakOn R P) {a : α} {l : List α} (hl : ∀ b ∈ a :: l, P b) :
    foremostOf R (a :: l) = foremost R (some a) (foremostOf R l) := by
  obtain ⟨ha, hr⟩ := List.forall_mem_cons.mp hl
  have ha' : ∀ b ∈ [a], P b := by
    intro b hb
    rw [List.mem_singleton.mp hb]
    exact ha
  exact foremostOf_append h ha' hr

theorem foremostOf_eq_none (h : WeakOn R P) {l : List α} (hl : ∀ a ∈ l, P a) :
    foremostOf R l = none ↔ l = [] := by
  cases l with
  | nil => exact ⟨fun _ => rfl, fun _ => rfl⟩
  | cons a r =>
    rw [foremostOf_cons h hl]
    cases foremostOf R r <;> simp [foremost]

/-- nothing in a list is before its foremost -/
theorem not_lt_foremostOf (h : WeakOn R P) {l : List α} (hl : ∀ a ∈ l, P a) {m : α}
    (hm : m ∈ foremostOf R l) : ∀ a ∈ l, ¬ R a m := by
  induction l generalizing m with
  | nil => cases hm
  | cons b r ih =>
    obtain ⟨hb, hr⟩ := List.forall_mem_cons.mp hl
    rw [foremostOf_cons h hl] at hm
    cases hf : foremostOf R r with
    | none =>
      have hnil := (foremostOf_eq_none h hr).mp hf
      rw [hf, foremost_none] at hm
      cases hm
      rw [hnil]
      intro a ha
      rw [List.mem_singleton.mp ha]
      exact h.irrefl hb
    | some c =>
      have hc : P c := hr c (foremostOf_mem hf)
      have hrest := ih hr hf
      rw [hf] at hm
      intro a ha
      rcases foremost_cases (R := R) b c with ⟨he, hcb⟩ | ⟨he, hcb⟩
      · rw [he] at hm
        cases hm
        rcases List.mem_cons.mp ha with rfl | har
        · exact h.irrefl hb
        · exact h.step hb hc (hr a har) hcb (hrest a har)
      · rw [he] at hm
        cases hm
        rcases List.mem_cons.mp ha with rfl | har
        · exact h.asymm hc hb hcb
        · exact hrest a har

/-- where neither before the other means equal, the foremost depends on the members only -/
theorem foremostOf_eq_of_mem (h : WeakOn R P) {l m : List α} (hl : ∀ a ∈ l, P a)
    (hlevel : ∀ a ∈ l, ∀ b ∈ l, ¬ R a b → ¬ R b a → a = b) (hlm : ∀ a, a ∈ l ↔ a ∈ m) :
    foremostOf R l = foremostOf R m := by
  have hm : ∀ a ∈ m, P a := fun a ha => hl a ((hlm a).mpr ha)
  cases hfl : foremostOf R l with
  | none =>
    have hnil := (foremostOf_eq_none h hl).mp hfl
    have : m = [] := by
      apply List.eq_nil_iff_forall_not_mem.mpr
      intro a ha
      have hal := (hlm a).mpr ha
      rw [hnil] at hal
      cases hal
    exact ((foremostOf_eq_none h hm).mpr this).symm
  | some a =>
    have ha := foremostOf_mem hfl
    cases hfm : foremostOf R m with
    | none =>
      have ham := (hlm a).mp ha
      rw [(foremostOf_eq_none h hm).mp hfm] at ham
      cases ham
    | some b =>
      have hb := (hlm b).mpr (foremostOf_mem hfm)
      have hba := not_lt_foremostOf h hl hfl b hb
      have hab := not_lt_foremostOf h hm hfm a ((hlm a).mp ha)
      rw [hlevel a ha b hb hab hba]

end

/-! ### bounds -/

namespace Bounds
variable {α : Type} [LT α] [DecidableLT α] {P : α → Prop}

/-- the bounds of the values of a list -/
def ofList (l : List α) : Bounds α := l.foldl observe ∅

/-- whether `x` lies between two of the values of a list -/
def Between (l : List α) (x : α) : Prop := (∃ a ∈ l, ¬ x < a) ∧ ∃ b ∈ l, ¬ b < x

theorem merge_eq (a b : Bounds α) : a.merge b =
    ⟨foremost (· < ·) a.least b.least, foremost (fun x y => y < x) a.greatest b.greatest⟩ := by
  obtain ⟨al, ag⟩ := a
  obtain ⟨bl, bg⟩ := b
  cases al <;> cases bl <;> cases ag <;> cases bg <;> rfl

theorem foldl_observe (b : Bounds α) (l : List α) : l.foldl observe b =
    ⟨l.foldl (fun x a => foremost (· < ·) x (some a)) b.least,
      l.foldl (fun x a => foremost (fun x y => y < x) x (some a)) b.greatest⟩ := by
  induction l generalizing b with
  | nil => rfl
  | cons a r ih =>
    rw [List.foldl_cons, ih, observe, merge_eq, point, List.foldl_cons, List.foldl_cons]

theorem ofList_eq (l : List α) :
    ofList l = ⟨foremostOf (· < ·) l, foremostOf (fun x y => y < x) l⟩ := foldl_observe ∅ l

/-- whether both bounds are among the values of `P` -/
def All (P : α → Prop) (b : Bounds α) : Prop := (∀ a ∈ b.least, P a) ∧ ∀ a ∈ b.greatest, P a

theorem All.merge {a b : Bounds α} (ha : a.All P) (hb : b.All P) : (a.merge b).All P := by
  rw [merge_eq]
  exact ⟨foremost_mem ha.1 hb.1, foremost_mem ha.2 hb.2⟩

theorem All.observe {a : Bounds α} (ha : a.All P) {x : α} (hx : P x) : (a.observe x).All P := by
  have hp : ∀ y ∈ some x, P y := by
    rintro y ⟨⟩
    exact hx
  exact ha.merge ⟨hp, hp⟩

theorem merge_assoc (h : WeakOn (fun a b : α => a < b) P) {a b c : Bounds α} (ha : a.All P)
    (hb : b.All P) (hc : c.All P) : (a.merge b).merge c = a.merge (b.merge c) := by
  simp only [merge_eq]
  rw [foremost_assoc h ha.1 hb.1 hc.1, foremost_assoc h.opposite ha.2 hb.2 hc.2]

/-- bounds of integers do not depend on the order of a merge -/
theorem merge_int_comm (a b : Bounds Int) : a.merge b = b.merge a := by
  have htrue : ∀ x : Option Int, ∀ n ∈ x, True := fun _ _ _ => trivial
  rw [merge_eq, merge_eq,
    foremost_comm weakOn_int_lt (fun _ _ _ _ => by omega) (htrue a.least) (htrue b.least),
    foremost_comm weakOn_int_lt.opposite (fun _ _ _ _ => by omega) (htrue a.greatest)
      (htrue b.greatest)]

theorem ofList_append (h : WeakOn (fun a b : α => a < b) P) {l m : List α} (hl : ∀ a ∈ l, P a)
    (hm : ∀ a ∈ m, P a) : ofList (l ++ m) = (ofList l).merge (ofList m) := by
  simp only [ofList_eq, merge_eq]
  rw [foremostOf_append h hl hm, foremostOf_append h.opposite hl hm]

theorem ofList_eq_of_mem (h : WeakOn (fun a b : α => a < b) P) {l m : List α} (hl : ∀ a ∈ l, P a)
    (hlevel : ∀ a ∈ l, ∀ b ∈ l, ¬ a < b → ¬ b < a → a = b) (hlm : ∀ a, a ∈ l ↔ a ∈ m) :
    ofList l = ofList m := by
  rw [ofList_eq, ofList_eq, foremostOf_eq_of_mem h hl hlevel hlm,
    foremostOf_eq_of_mem h.opposite hl (fun a ha b hb hab hba => hlevel a ha b hb hba hab) hlm]

theorem admits_iff {b : Bounds α} {x : α} :
    b.admits x = true ↔ (∀ l ∈ b.least, ¬ x < l) ∧ ∀ g ∈ b.greatest, ¬ g < x := by
  obtain ⟨l, g⟩ := b
  cases l <;> cases g <;> simp [admits]

theorem admits_ofList (h : WeakOn (fun a b : α => a < b) P) {l : List α} (hl : ∀ a ∈ l, P a)
    (hne : l ≠ []) {x : α} (hx : P x) : (ofList l).admits x = true ↔ Between l x := by
  rw [admits_iff, ofList_eq]
  constructor
  · rintro ⟨hlow, hup⟩
    have hmin : ∃ m, foremostOf (fun a b : α => a < b) l = some m :=
      Option.ne_none_iff_exists'.mp fun e => hne ((foremostOf_eq_none h hl).mp e)
    have hmax : ∃ m, foremostOf (fun a b : α => b < a) l = some m :=
      Option.ne_none_iff_exists'.mp fun e => hne ((foremostOf_eq_none h.opposite hl).mp e)
    obtain ⟨m, hm⟩ := hmin
    obtain ⟨g, hg⟩ := hmax
    exact ⟨⟨m, foremostOf_mem hm, hlow m hm⟩, ⟨g, foremostOf_mem hg, hup g hg⟩⟩
  · rintro ⟨⟨a, ha, hxa⟩, b, hb, hbx⟩
    constructor
    · intro m hm
      exact h.step (hl m (foremostOf_mem hm)) (hl a ha) hx (not_lt_foremostOf h hl hm a ha) hxa
    · intro m hm
      exact h.opposite.step (hl m (foremostOf_mem hm)) (hl b hb) hx
        (not_lt_foremostOf h.opposite hl hm b hb) hbx

/-- values that lie between those of a list do not widen its bounds -/
theorem ofList_append_between (h : WeakOn (fun a b : α => a < b) P) {l m : List α}
    (hl : ∀ a ∈ l, P a) (hm : ∀ a ∈ m, P a) (hb : ∀ x ∈ m, Between l x) :
    ofList (l ++ m) = ofList l := by
  cases m with
  | nil => rw [List.append_nil]
  | cons y r =>
    have hne : l ≠ [] := by
      obtain ⟨⟨a, ha, _⟩, _⟩ := hb y List.mem_cons_self
      exact List.ne_nil_of_mem ha
    have hin : ∀ x ∈ y :: r, (ofList l).admits x = true :=
      fun x hx => (admits_ofList h hl hne (hm x hx)).mpr (hb x hx)
    rw [ofList_append h hl hm]
    simp only [admits_iff, ofList_eq] at hin
    simp only [merge_eq, ofList_eq]
    have hstay : ∀ (R : α → α → Prop) [DecidableRel R], WeakOn R P →
        (∀ x ∈ y :: r, ∀ c ∈ foremostOf R l, ¬ R x c) →
        foremost R (foremostOf R l) (foremostOf R (y :: r)) = foremostOf R l := by
      intro R _ hw hout
      obtain ⟨a, ha⟩ := Option.ne_none_iff_exists'.mp fun e => hne ((foremostOf_eq_none hw hl).mp e)
      obtain ⟨c, hc⟩ := Option.ne_none_iff_exists'.mp fun e =>
        List.cons_ne_nil y r ((foremostOf_eq_none hw hm).mp e)
      rw [ha, hc]
      exact foremost_of_not_lt (hout c (foremostOf_mem hc) a ha)
    rw [hstay _ h fun x hx => (hin x hx).1, hstay _ h.opposite fun x hx => (hin x hx).2]

/-- bounds admit the values that they are of -/
theorem admits_of_mem (h : WeakOn (fun a b : α => a < b) P) {l : List α} (hl : ∀ a ∈ l, P a)
    {x : α} (hx : x ∈ l) : (ofList l).admits x = true := by
  have hirrefl := h.irrefl (hl x hx)
  have hne := List.ne_nil_of_mem hx
  exact (admits_ofList h hl hne (hl x hx)).mpr ⟨⟨x, hx, hirrefl⟩, x, hx, hirrefl⟩

/-- more values only widen bounds -/
theorem admits_append (h : WeakOn (fun a b : α => a < b) P) {l m : List α} (hl : ∀ a ∈ l, P a)
    (hm : ∀ a ∈ m, P a) (hne : l ≠ []) {x : α} (hx : P x) (hin : (ofList l).admits x = true) :
    (ofList (l ++ m)).admits x = true := by
  obtain ⟨⟨a, ha, hxa⟩, b, hb, hbx⟩ := (admits_ofList h hl hne hx).mp hin
  refine (admits_ofList h (List.forall_mem_append.mpr ⟨hl, hm⟩) ?_ hx).mpr ?_
  · exact List.append_ne_nil_of_left_ne_nil hne m
  · exact ⟨⟨a, List.mem_append_left m ha, hxa⟩, b, List.mem_append_left m hb, hbx⟩

/-- values that bounds admit do not widen them -/
theorem ofList_append_admits (h : WeakOn (fun a b : α => a < b) P) {l m : List α}
    (hl : ∀ a ∈ l, P a) (hm : ∀ a ∈ m, P a) (hne : l ≠ [])
    (hin : ∀ x ∈ m, (ofList l).admits x = true) : ofList (l ++ m) = ofList l :=
  ofList_append_between h hl hm fun x hx => (admits_ofList h hl hne (hm x hx)).mp (hin x hx)

end Bounds
end JsonShape
