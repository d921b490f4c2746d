import JsonShape.Proofs.Contents
import JsonShape.Proofs.Interrupted
import JsonShape.Proofs.Keeping

/-!
# Samples in another order

The bounds of numbers do not depend on the order of the samples, unless there are nans.  A nan is
neither less nor greater than anything, so that a bound that is a nan stays one, and a nan that
meets a bound is passed over.  Within a sample the first number at a position decides: where it is
a nan, so are the bounds.  Of the samples, again, the first that has numbers there decides, and from
then on those of the other sort are lost as a whole.

So the order of the samples makes no difference at a position exactly if their first numbers there
are all nans, or none of them is.  Infinities are numbers like others.

* `Number.Ranks.foremostOf_perm`   what is foremost in another order;
* `Tree.boundsAt_absorb`           the numbers of a value at a position are seen in document order;
* `Tree.boundsIn_foldFrom`         the bounds of samples are those of each, merged in order;
* `Tree.fold_bounds_reordered`     when the order of the samples makes no difference;
* `Tree.bounds_depend_on_order`    it may make one.
-/

namespace JsonShape
open Value

/-! ### orders that leave out the nans -/

namespace Number

/-- the number with its label gone, if it is a nan -/
def unlabelled : Number → Number
  | nan _ => nan 0
  | n => n

theorem isNan_unlabelled (n : Number) : n.unlabelled.isNan = n.isNan := by cases n <;> rfl

theorem unlabelled_of_isNan {n : Number} (h : n.isNan = true) : n.unlabelled = nan 0 := by
  cases n with
  | nan _ => rfl
  | _ => cases h

/-- an order of the numbers by value, up or down, in which no nan has a place -/
structure Ranks (R : Number → Number → Prop) : Prop where
  weak : WeakOn R fun n => n.isNan = false
  apart : ∀ {a b}, R a b → a.isNan = false ∧ b.isNan = false
  level : ∀ {a b}, a.isNan = false → b.isNan = false → ¬ R a b → ¬ R b a → compare a b = .eq

theorem not_nan_of_lt {a b : Number} (h : a < b) : a.isNan = false ∧ b.isNan = false := by
  cases a with
  | nan label => exact absurd h (not_nan_lt b label)
  | _ =>
    cases b with
    | nan label => exact absurd h (not_lt_nan _ label)
    | _ => exact ⟨rfl, rfl⟩

theorem ranks_lt : Ranks fun a b => a < b := ⟨weakOn_lt, not_nan_of_lt, level_of_not_lt⟩

namespace Ranks
variable {R : Number → Number → Prop}

theorem opposite (h : Ranks R) : Ranks fun a b => R b a where
  weak := h.weak.opposite
  apart hab := (h.apart hab).symm
  level ha hb hab hba := h.level ha hb hba hab

variable [DecidableRel R] {ms ns : List Number}

/-- the foremost of a list is a nan if the first of them is, and only then -/
theorem isNan_foremostOf (h : Ranks R) (n : Number) (ns : List Number) :
    ∃ m, foremostOf R (n :: ns) = some m ∧ m.isNan = n.isNan := by
  -- on the numbers after the first: what comes before another number is no nan, nor is the other
  show ∃ m, ns.foldl (fun x a => foremost R x (some a)) (some n) = some m ∧ _
  induction ns generalizing n with
  | nil => exact ⟨n, rfl, rfl⟩
  | cons a r ih =>
    rw [List.foldl_cons]
    rcases foremost_cases (R := R) n a with ⟨hn, _⟩ | ⟨ha, han⟩
    · rw [hn]
      exact ih n
    · rw [ha]
      obtain ⟨m, hm, hma⟩ := ih a
      exact ⟨m, hm, hma.trans ((h.apart han).1.trans (h.apart han).2.symm)⟩

/-- where all numbers are nans or none is, the foremost is the same in any order, but for a label -/
theorem foremostOf_perm (h : Ranks R) (hnormal : ∀ n ∈ ms, n.normal = n) {nan : Bool}
    (halike : ∀ n ∈ ms, n.isNan = nan) (hp : ns.Perm ms) :
    (foremostOf R ns).map unlabelled = (foremostOf R ms).map unlabelled := by
  cases nan with
  | false =>
    have hlevel : ∀ a ∈ ms, ∀ b ∈ ms, ¬ R a b → ¬ R b a → a = b := by
      intro a ha b hb hab hba
      rw [← hnormal a ha, ← hnormal b hb]
      exact normal_eq_normal (h.level (halike a ha) (halike b hb) hab hba)
    rw [foremostOf_eq_of_mem h.weak halike hlevel fun a => hp.symm.mem_iff]
  | true =>
    have hnan : ∀ {l : List Number}, (∀ n ∈ l, n.isNan = true) →
        (foremostOf R l).map unlabelled = if l = [] then none else some (.nan 0) := by
      intro l hl
      cases l with
      | nil => rfl
      | cons n r =>
        obtain ⟨m, hm, hmn⟩ := h.isNan_foremostOf n r
        rw [hm, Option.map_some, unlabelled_of_isNan (hmn.trans (hl n List.mem_cons_self)),
          if_neg (List.cons_ne_nil n r)]
    have hempty : ns = [] ↔ ms = [] := ⟨fun he => (he ▸ hp).nil_eq.symm, fun he => (he ▸ hp).eq_nil⟩
    rw [hnan halike, hnan fun n hn => halike n (hp.mem_iff.mp hn)]
    simp only [hempty]

end Ranks
end Number

namespace Bounds

/-- the bounds, the labels of nans aside -/
def unlabelled (b : Bounds Number) : Bounds Number :=
  ⟨b.least.map Number.unlabelled, b.greatest.map Number.unlabelled⟩

end Bounds

/-! ### the numbers at a position -/

/-- the numbers at a position of values in document order, in normal form -/
def numbersAt (p : Position) (values : List Value) : List Number :=
  (valuesAt p values).filterMap normal?

theorem numbersAt_append (p : Position) (vs ws : List Value) :
    numbersAt p (vs ++ ws) = numbersAt p vs ++ numbersAt p ws := by
  rw [numbersAt, valuesAt_append, List.filterMap_append]
  rfl

theorem numbersAt_nil (p : Position) : numbersAt p [] = [] := by
  rw [numbersAt, valuesAt_nil_values]
  rfl

theorem numbersAt_cons (s : Step) (p : Position) (v : Value) :
    numbersAt (s :: p) [v] = numbersAt p (v.follow s) :=
  congrArg (numbersAt p) (valuesBelow_singleton s v)

theorem normal_of_mem_numbersAt {p : Position} {values : List Value} {n : Number}
    (h : n ∈ numbersAt p values) : n.normal = n := by
  obtain ⟨v, _, hv⟩ := List.mem_filterMap.mp h
  obtain ⟨m, _, rfl⟩ := Option.map_eq_some_iff.mp hv
  exact m.normal_normal

theorem valuesAt_perm (p : Position) {vs ws : List Value} (h : vs.Perm ws) :
    (valuesAt p vs).Perm (valuesAt p ws) := by
  induction p generalizing vs ws with
  | nil => exact h
  | cons s p ih => exact ih (h.flatMap_right _)

namespace Tree
variable {caps : Caps}

/-- the bounds of the numbers at a position of a tree, none where there is no subtree -/
def boundsAt (t : Tree) (p : Position) : Bounds Number :=
  (t.at? p).elim ∅ fun u => u.here.numbers

/-- the bounds of the numbers at a position of a tree that need not be there -/
def boundsIn (t : Option Tree) (p : Position) : Bounds Number := t.elim ∅ fun u => u.boundsAt p

theorem boundsAt_cons (t : Tree) (s : Step) (p : Position) :
    t.boundsAt (s :: p) = boundsIn (t.step? s) p := by
  rw [boundsAt, at?_cons]
  cases t.step? s <;> rfl

theorem boundsAt_fresh (p : Position) : fresh.boundsAt p = ∅ := by
  cases p with
  | nil => rfl
  | cons s p =>
    rw [boundsAt_cons]
    cases s <;> rfl

theorem boundsAt_getD_fresh (t : Option Tree) (p : Position) :
    (t.getD fresh).boundsAt p = boundsIn t p := by
  cases t with
  | none => exact boundsAt_fresh p
  | some u => rfl

theorem boundsAt_presentAt (key : String) (l : List (String × Tree)) (p : Position) :
    (presentAt key l).boundsAt p = boundsIn (l.lookup key) p := by
  rw [← boundsAt_getD_fresh]
  cases p with
  | nil => rfl
  | cons s p =>
    rw [boundsAt_cons, boundsAt_cons]
    cases s <;> rfl

theorem boundsAt_merge (t u : Tree) (p : Position) :
    (merge caps t u).boundsAt p = (t.boundsAt p).merge (u.boundsAt p) := by
  rw [boundsAt, boundsAt, boundsAt, at?_merge]
  cases t.at? p with
  | none => rfl
  | some a =>
    cases u.at? p with
    | none => exact (Bounds.merge_empty _).symm
    | some b => exact congrArg Evidence.numbers (here_merge caps a b)

/-! ### one value -/

/-- whether absorbing the value adds its numbers to the bounds at every position, in their order -/
def AddsNumbers (caps : Caps) (v : Value) : Prop :=
  ∀ p t, (absorb caps v t).boundsAt p = (numbersAt p [v]).foldl Bounds.observe (t.boundsAt p)

theorem boundsIn_absorbItems {items : List Value} (h : ∀ v ∈ items, AddsNumbers caps v)
    (p : Position) (t : Option Tree) : boundsIn (absorbItems caps items t) p
      = (numbersAt p items).foldl Bounds.observe (boundsIn t p) := by
  induction items generalizing t with
  | nil =>
    rw [numbersAt_nil]
    rfl
  | cons v r ih =>
    obtain ⟨hv, hr⟩ := List.forall_mem_cons.mp h
    have happend : numbersAt p (v :: r) = numbersAt p [v] ++ numbersAt p r :=
      numbersAt_append p [v] r
    rw [absorbItems, ih hr, happend, List.foldl_append, ← boundsAt_getD_fresh t, ← hv]
    rfl

theorem boundsIn_absorbMembers {members : List (String × Value)}
    (h : ∀ m ∈ members, AddsNumbers caps m.2) (hm : (members.map Prod.fst).Nodup) (k : String)
    (p : Position) (l : List (String × Tree)) : boundsIn ((absorbMembers caps members l).lookup k) p
      = (numbersAt p (members.lookup k).toList).foldl Bounds.observe (boundsIn (l.lookup k) p) := by
  induction members generalizing l with
  | nil =>
    show _ = (numbersAt p []).foldl _ _
    rw [numbersAt_nil]
    rfl
  | cons m r ih =>
    obtain ⟨key, v⟩ := m
    obtain ⟨hv, hr⟩ := List.forall_mem_cons.mp h
    obtain ⟨hkey, hmr⟩ := List.nodup_cons.mp hm
    rw [absorbMembers, ih hr hmr, lookup_setProperty, List.lookup_cons]
    by_cases hk : k = key
    · -- the key does not come again, so that what comes after it leaves its tree alone
      have hout : r.lookup key = none := lookup_eq_none.mpr hkey
      have hnone : numbersAt p (none : Option Value).toList = [] := numbersAt_nil p
      rw [if_pos hk, hk, hout, beq_self_eq_true, hnone, ← boundsAt_presentAt key l]
      exact hv p _
    · rw [if_neg hk, beq_eq_false_iff_ne.mpr hk]

theorem here_absorb (v : Value) (t : Tree) :
    (absorb caps v t).here = Evidence.see caps t.here v := by
  cases v <;> rfl

/-- a value adds its numbers at a position in document order -/
theorem boundsAt_absorb {v : Value} (hv : v.Json) : AddsNumbers caps v := by
  induction v using follow_induction with
  | h v ih =>
    have hbelow : ∀ s, ∀ w ∈ v.follow s, AddsNumbers caps w :=
      fun s w hw => ih s w hw (hv.follow hw)
    intro p t
    cases p with
    | nil =>
      show (absorb caps v t).here.numbers = (numbersAt [] [v]).foldl _ t.here.numbers
      have hnumber : numbersAt [] [v] = (normal? v).toList := by
        rw [numbersAt, valuesAt_nil, List.filterMap_cons]
        cases normal? v <;> rfl
      rw [here_absorb, Evidence.see_numbers, hnumber]
    | cons s p =>
      rw [boundsAt_cons, boundsAt_cons, numbersAt_cons]
      have hleaf : v.follow s = [] → (absorb caps v t).step? s = t.step? s →
          boundsIn ((absorb caps v t).step? s) p
            = (numbersAt p (v.follow s)).foldl Bounds.observe (boundsIn (t.step? s) p) := by
        intro hnil hstep
        rw [hnil, hstep, numbersAt_nil]
        rfl
      cases v with
      | arr items =>
        cases s with
        | key k => exact hleaf rfl rfl
        | element => exact boundsIn_absorbItems (hbelow .element) p t.items
      | tuple items =>
        cases s with
        | key k => exact hleaf rfl rfl
        | element => exact boundsIn_absorbItems (hbelow .element) p t.items
      | obj members =>
        cases s with
        | key k =>
          have hkeys := hv.keys_nodup
          have hmembers : ∀ m ∈ members, AddsNumbers caps m.2 := by
            intro m hm
            have hl : members.lookup m.1 = some m.2 := (lookup_iff_mem hkeys).mpr hm
            exact hbelow (.key m.1) m.2 (Option.mem_toList.mpr hl)
          exact boundsIn_absorbMembers hmembers hkeys k p t.properties
        | element => exact hleaf rfl rfl
      | _ => cases s <;> exact hleaf rfl rfl

/-! ### samples -/

/-- the bounds of the numbers at a position of samples, each sample by itself and then merged -/
def mergedBounds (p : Position) (b : Bounds Number) (samples : List Value) : Bounds Number :=
  samples.foldl (fun b v => b.merge (Bounds.ofList (numbersAt p [v]))) b

variable {limit : Nat} {samples : List Value}

theorem boundsAt_observeSample (caps : Caps) {v : Value} (hv : v.Followed limit) :
    ∃ t, observeSample caps limit v = .ok t
      ∧ ∀ p, t.boundsAt p = Bounds.ofList (numbersAt p [v]) := by
  have haccepted : v.firstOffence limit 0 = none := by
    rw [firstOffence_eq_none]
    rintro p hp (hdeep | ⟨name, hname⟩)
    · have := hv.nested p hp
      omega
    · have hjson := hv.json p hp
      rw [hname] at hjson
      cases hjson
  refine ⟨absorb caps v fresh, ?_, fun p => ?_⟩
  · rw [observeSample_of_accepted haccepted, observe_of_accepted haccepted]
  · rw [boundsAt_absorb hv.json, boundsAt_fresh]
    rfl

theorem boundsAt_mergeInto (m : Option Tree) (t : Tree) (p : Position) :
    (mergeInto caps m t).boundsAt p = (boundsIn m p).merge (t.boundsAt p) := by
  cases m with
  | none => exact (Bounds.empty_merge _).symm
  | some u => exact boundsAt_merge u t p

/-- the bounds at a position of samples are those of each sample, merged in order -/
theorem boundsIn_foldFrom (caps : Caps) (hs : ∀ v ∈ samples, v.Followed limit) (m : Option Tree) :
    ∃ t, foldFrom caps limit m samples = .ok t
      ∧ ∀ p, boundsIn t p = mergedBounds p (boundsIn m p) samples := by
  induction samples generalizing m with
  | nil => exact ⟨m, rfl, fun _ => rfl⟩
  | cons v r ih =>
    obtain ⟨hv, hr⟩ := List.forall_mem_cons.mp hs
    obtain ⟨u, hu, hub⟩ := boundsAt_observeSample caps hv
    obtain ⟨t, ht, htb⟩ := ih hr (some (mergeInto caps m u))
    refine ⟨t, ?_, fun p => ?_⟩
    · rw [foldFrom_cons, hu]
      exact ht
    · have hstep : boundsIn (some (mergeInto caps m u)) p
          = (boundsIn m p).merge (Bounds.ofList (numbersAt p [v])) := by
        rw [← hub]
        exact boundsAt_mergeInto m u p
      rw [htb, hstep]
      rfl

/-- where there are values there is a subtree -/
theorem Reflects.exists_at? {A : Account} {values : List Value} {t : Tree}
    (h : Reflects A values t) {p : Position} (hp : valuesAt p values ≠ []) :
    ∃ u, t.at? p = some u := by
  rcases List.eq_nil_or_concat p with rfl | ⟨p, s, rfl⟩
  · exact ⟨t, rfl⟩
  · rw [List.concat_eq_append] at hp ⊢
    have hbelow := h.at?_concat p s
    cases hu : t.at? (p ++ [s]) with
    | none =>
      rw [hu] at hbelow
      exact absurd hbelow hp
    | some u => exact ⟨u, rfl⟩

/-! ### in another order -/

section
variable (R : Number → Number → Prop) [DecidableRel R] (p : Position)

/-- of each sample with numbers at the position, the foremost of them -/
def foremostEach (samples : List Value) : List Number :=
  samples.filterMap fun v => foremostOf R (numbersAt p [v])

theorem foldl_foremostEach_cons (v : Value) (r : List Value) (x : Option Number) :
    (foremostEach R p (v :: r)).foldl (fun x a => foremost R x (some a)) x
      = (foremostEach R p r).foldl (fun x a => foremost R x (some a))
          (foremost R x (foremostOf R (numbersAt p [v]))) := by
  rw [foremostEach, List.filterMap_cons]
  cases foremostOf R (numbersAt p [v]) with
  | none =>
    rw [foremost_none]
    rfl
  | some n => rfl

end

theorem mergedBounds_eq_foldl (p : Position) (b : Bounds Number) (samples : List Value) :
    mergedBounds p b samples =
      ⟨(foremostEach (· < ·) p samples).foldl (fun x a => foremost (· < ·) x (some a)) b.least,
        (foremostEach (fun x y => y < x) p samples).foldl
          (fun x a => foremost (fun x y => y < x) x (some a)) b.greatest⟩ := by
  induction samples generalizing b with
  | nil => rfl
  | cons v r ih =>
    rw [foldl_foremostEach_cons, foldl_foremostEach_cons, mergedBounds, List.foldl_cons,
      Bounds.merge_eq, Bounds.ofList_eq]
    exact ih _

theorem mergedBounds_eq (p : Position) (samples : List Value) : mergedBounds p ∅ samples =
    ⟨foremostOf (· < ·) (foremostEach (· < ·) p samples),
      foremostOf (fun x y => y < x) (foremostEach (fun x y => y < x) p samples)⟩ :=
  mergedBounds_eq_foldl p ∅ samples

/-- whether the first numbers at a position, of the samples that have any there, are all nans or
none is -/
def OpenAlike (p : Position) (samples : List Value) : Prop :=
  ∃ nan : Bool, ∀ v ∈ samples, ∀ n ∈ (numbersAt p [v]).head?, n.isNan = nan

theorem foremostEach_perm {R : Number → Number → Prop} [DecidableRel R] (hR : Number.Ranks R)
    {p : Position} {ys : List Value} {nan : Bool}
    (halike : ∀ v ∈ samples, ∀ n ∈ (numbersAt p [v]).head?, n.isNan = nan)
    (hp : ys.Perm samples) : (foremostOf R (foremostEach R p ys)).map Number.unlabelled
      = (foremostOf R (foremostEach R p samples)).map Number.unlabelled := by
  have hnormal : ∀ m ∈ foremostEach R p samples, m.normal = m := by
    intro m hm
    obtain ⟨v, _, hv⟩ := List.mem_filterMap.mp hm
    exact normal_of_mem_numbersAt (foremostOf_mem hv)
  have hforemost : ∀ m ∈ foremostEach R p samples, m.isNan = nan := by
    intro m hm
    obtain ⟨v, hv, hvm⟩ := List.mem_filterMap.mp hm
    cases hn : numbersAt p [v] with
    | nil =>
      rw [hn] at hvm
      cases hvm
    | cons n r =>
      obtain ⟨m', hm', hmn⟩ := hR.isNan_foremostOf n r
      rw [hn, hm'] at hvm
      cases hvm
      exact hmn.trans (halike v hv n (by rw [hn]; rfl))
  exact hR.foremostOf_perm hnormal hforemost (hp.filterMap _)

/-- any sample may come first, and its first number decides whether the least is a nan -/
theorem exists_perm_opening {p : Position} {v : Value} (hv : v ∈ samples) {n : Number}
    (hn : n ∈ (numbersAt p [v]).head?) : ∃ ys, ys.Perm samples
      ∧ ∃ m, (mergedBounds p ∅ ys).least = some m ∧ m.isNan = n.isNan := by
  obtain ⟨before, after, rfl⟩ := List.append_of_mem hv
  refine ⟨v :: (before ++ after), List.perm_middle.symm, ?_⟩
  obtain ⟨r, hr⟩ := List.head?_eq_some_iff.mp hn
  obtain ⟨m, hm, hmn⟩ := Number.ranks_lt.isNan_foremostOf n r
  obtain ⟨l, hl, hlm⟩ :=
    Number.ranks_lt.isNan_foremostOf m (foremostEach (· < ·) p (before ++ after))
  refine ⟨l, ?_, hlm.trans hmn⟩
  rw [mergedBounds_eq, foremostEach, List.filterMap_cons, hr, hm]
  exact hl

/-- the merged bounds are the same in any order exactly if the samples open alike -/
theorem mergedBounds_reordered (p : Position) (samples : List Value) :
    (∀ ys, ys.Perm samples →
        (mergedBounds p ∅ ys).unlabelled = (mergedBounds p ∅ samples).unlabelled)
      ↔ OpenAlike p samples := by
  constructor
  · intro h
    by_cases hnans : ∀ v ∈ samples, ∀ n ∈ (numbersAt p [v]).head?, n.isNan = true
    · exact ⟨true, hnans⟩
    · refine ⟨false, fun w hw m hm => ?_⟩
      -- one sample opens with a number that is no nan; if it comes first, the least is none
      simp only [Classical.not_forall] at hnans
      obtain ⟨v, hv, n, hn, hnan⟩ := hnans
      obtain ⟨ys, hys, a, ha, han⟩ := exists_perm_opening hv hn
      obtain ⟨zs, hzs, b, hb, hbm⟩ := exists_perm_opening hw hm
      have hsame := congrArg Bounds.least ((h ys hys).trans (h zs hzs).symm)
      rw [Bounds.unlabelled, Bounds.unlabelled, ha, hb] at hsame
      have hab := congrArg Number.isNan (Option.some.inj hsame)
      rw [Number.isNan_unlabelled, Number.isNan_unlabelled] at hab
      rw [← hbm, ← hab, han]
      exact Bool.eq_false_iff.mpr hnan
  · rintro ⟨nan, halike⟩ ys hp
    rw [mergedBounds_eq, mergedBounds_eq, Bounds.unlabelled, Bounds.unlabelled,
      foremostEach_perm Number.ranks_lt halike hp,
      foremostEach_perm Number.ranks_lt.opposite halike hp]

/-- whether the tree of the samples has these bounds of numbers at a position, but for labels -/
def BoundedAt (caps : Caps) (limit : Int) (p : Position) (b : Bounds Number)
    (samples : List Value) : Prop :=
  ∃ t u, fold caps limit samples = .ok (some t) ∧ t.at? p = some u
    ∧ u.here.numbers.unlabelled = b.unlabelled

/-- the tree of samples has a subtree where there are values, and its bounds are those of each
sample, merged in order -/
theorem fold_boundsAt (caps : Caps) (hne : samples ≠ []) (hs : ∀ v ∈ samples, v.Followed limit) :
    ∃ t, fold caps limit samples = .ok (some t) ∧ ∀ p,
      ((t.at? p).isSome = true ↔ valuesAt p samples ≠ [])
        ∧ ∀ u, t.at? p = some u → u.here.numbers = mergedBounds p ∅ samples := by
  have hl : ((min limit assuredDepth : Nat) : Int) ≤ limit := by omega
  obtain ⟨t, hfold, ht, _⟩ := reflects_fold (Account.outline_kept caps) hne
    (fun v hv => (hs v hv).json) fun v hv => (hs v hv).within hl
  obtain ⟨t', hfold', hb⟩ := boundsIn_foldFrom caps hs none
  obtain rfl : some t = t' := Logged.ok_inj (hfold.symm.trans hfold')
  refine ⟨t, hfold, fun p => ⟨⟨fun hsome => ?_, fun hp => ?_⟩, fun u hu => ?_⟩⟩
  · obtain ⟨u, hu⟩ := Option.isSome_iff_exists.mp hsome
    exact (ht.at? hne hu).2
  · obtain ⟨u, hu⟩ := ht.exists_at? hp
    rw [hu]
    rfl
  · have hbounds : t.boundsAt p = mergedBounds p ∅ samples := hb p
    rw [← hbounds, boundsAt, hu]
    rfl

/-- the tree of samples has the same bounds of numbers at a position, in whatever order they come,
exactly if the first numbers that they have there are all nans or none is -/
theorem fold_bounds_reordered (caps : Caps) (hne : samples ≠ [])
    (hs : ∀ v ∈ samples, v.Followed limit) : ∃ t, fold caps limit samples = .ok (some t) ∧ ∀ p,
      ((t.at? p).isSome = true ↔ valuesAt p samples ≠ [])
        ∧ ∀ u, t.at? p = some u →
          ((∀ ys, ys.Perm samples → BoundedAt caps limit p u.here.numbers ys)
            ↔ OpenAlike p samples) := by
  obtain ⟨t, hfold, ht⟩ := fold_boundsAt caps hne hs
  refine ⟨t, hfold, fun p => ⟨(ht p).1, fun u hu => ?_⟩⟩
  have hvalues : valuesAt p samples ≠ [] := (ht p).1.mp (by rw [hu]; rfl)
  rw [(ht p).2 u hu, ← mergedBounds_reordered]
  refine forall₂_congr fun ys hp => ?_
  have hne' : ys ≠ [] := fun hnil => hne (hnil ▸ hp).nil_eq.symm
  have hvalues' : valuesAt p ys ≠ [] := fun hnil => hvalues (hnil ▸ valuesAt_perm p hp).nil_eq.symm
  obtain ⟨t', hfold', ht'⟩ := fold_boundsAt caps hne' fun v hv => hs v (hp.mem_iff.mp hv)
  obtain ⟨u', hu'⟩ := Option.isSome_iff_exists.mp ((ht' p).1.mpr hvalues')
  constructor
  · rintro ⟨t₂, u₂, hfold₂, hu₂, hb⟩
    rw [hfold'] at hfold₂
    cases hfold₂
    rwa [(ht' p).2 u₂ hu₂] at hb
  · intro hb
    refine ⟨t', u', hfold', hu', ?_⟩
    rwa [(ht' p).2 u' hu']

/-- nans after an infinity and before a number, in a list under one key and by itself under
another -/
def scattered : List Value :=
  [.obj [("a", .arr [.num (.inf true), .num (.nan 0)]), ("b", .num (.nan 1))],
    .obj [("a", .arr [.num threeHalves, .int 2]), ("b", .int 0)]]

theorem fold_bounds_reordered_scattered : ∃ t u w, fold .default 2 scattered = .ok (some t)
    ∧ t.at? [.key "a", .element] = some u ∧ t.at? [.key "b"] = some w
    ∧ (∀ ys, ys.Perm scattered → BoundedAt .default 2 [.key "a", .element] u.here.numbers ys)
    ∧ ¬ ∀ ys, ys.Perm scattered → BoundedAt .default 2 [.key "b"] w.here.numbers ys := by
  have hne : scattered ≠ [] := List.cons_ne_nil _ _
  have hs : ∀ v ∈ scattered, v.Followed 2 := by decide
  obtain ⟨t, hfold, ht⟩ := fold_bounds_reordered .default hne hs
  obtain ⟨hlist, hlistAlike⟩ := ht [.key "a", .element]
  obtain ⟨hkey, hkeyAlike⟩ := ht [.key "b"]
  obtain ⟨u, hu⟩ := Option.isSome_iff_exists.mp (hlist.mpr (List.cons_ne_nil _ _))
  obtain ⟨w, hw⟩ := Option.isSome_iff_exists.mp (hkey.mpr (List.cons_ne_nil _ _))
  refine ⟨t, u, w, hfold, hu, hw, (hlistAlike u hu).mpr ⟨false, by decide +kernel⟩, fun h => ?_⟩
  obtain ⟨nan, halike⟩ := (hkeyAlike w hw).mp h
  have hfirst : true = nan := halike _ List.mem_cons_self (.nan 1) rfl
  have hsecond : false = nan := halike _ (List.mem_cons_of_mem _ List.mem_cons_self) (.int 0) rfl
  exact Bool.false_ne_true (hsecond.trans hfirst.symm)

/-- a number, and a nan that hides it if it comes first -/
def hidden : List Value := [.num threeHalves, .num (.nan 0)]

theorem bounds_depend_on_order : (∀ v ∈ hidden, v.Followed 128)
    ∧ ∃ t, fold .default 128 hidden = .ok (some t) ∧ t.at? [] = some t
      ∧ ¬ ∀ ys, ys.Perm hidden → BoundedAt .default 128 [] t.here.numbers ys := by
  have hs : ∀ v ∈ hidden, v.Followed 128 := by decide
  obtain ⟨t, hfold, ht⟩ := fold_boundsAt .default (List.cons_ne_nil _ _) hs
  refine ⟨hs, t, hfold, rfl, fun h => ?_⟩
  have hp : hidden.reverse.Perm hidden := List.reverse_perm hidden
  obtain ⟨t', u', hfold', hu', hb⟩ := h _ hp
  have hs' : ∀ v ∈ hidden.reverse, v.Followed 128 := fun v hv => hs v (hp.mem_iff.mp hv)
  obtain ⟨t'', hfold'', ht'⟩ := fold_boundsAt .default (List.cons_ne_nil _ _) hs'
  obtain rfl : t'' = t' := Option.some.inj (Logged.ok_inj (hfold''.symm.trans hfold'))
  rw [(ht' []).2 u' hu', (ht []).2 t rfl] at hb
  exact absurd (congrArg (fun b => b.least.map Number.isNan) hb) (by decide +kernel)

end Tree
end JsonShape
