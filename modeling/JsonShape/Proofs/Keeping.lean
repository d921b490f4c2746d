import JsonShape.Proofs.Collecting
import JsonShape.Proofs.Commuting

/-!
# Evidence is kept

Evidence is only added to.  Types and formats stay, bounds stay and are never drawn in, counts do
not go down, and distinct values stay unless there are too many; keys and elements stay below, and
what is known of them is kept in the same way.  This holds of a tree in which a value is observed,
however the observation ends, and of both trees of a merge.

Nothing is asked of a tree in which something is observed.  Of a merge it is asked that no bound of
a number is a nan, for a nan on the left would hide the number on the right, and that no count is
negative.

* `Evidence.KeptIn`           what it is to be kept, at one position;
* `Tree.keptIn_iff`           for trees, that is said of the root and of what lies one step down;
* `Tree.keptIn_observe`       observing a value keeps all that was seen before;
* `Tree.keptIn_merge_left`, `Tree.keptIn_merge_right`  merging keeps what either tree holds;
* `Tree.evidence_kept`        all of this together.
-/

namespace JsonShape
open Std

/-! ### sets -/

section
variable {α : Type} [Ord α]

/-- the members of `s` are in `t`, those that are level counting as one -/
def OrdSet.KeptIn (s t : OrdSet α) : Prop := ∀ a, s.contains a = true → t.contains a = true

namespace OrdSet
variable {s t u : OrdSet α}

theorem KeptIn.refl (s : OrdSet α) : s.KeptIn s := fun _ h => h

theorem KeptIn.trans (hst : s.KeptIn t) (htu : t.KeptIn u) : s.KeptIn u :=
  fun a ha => htu a (hst a ha)

variable [TransOrd α]

theorem keptIn_insert (s : OrdSet α) (a : α) : s.KeptIn (s.insert a) := by
  intro b hb
  rw [contains_insert, hb, Bool.true_or]

theorem keptIn_foldl_insert (s : OrdSet α) (l : List α) : s.KeptIn (l.foldl insert s) := by
  induction l generalizing s with
  | nil => exact .refl s
  | cons a r ih => exact (keptIn_insert s a).trans (ih (s.insert a))

theorem keptIn_union_left (s t : OrdSet α) : s.KeptIn (s.union t) := keptIn_foldl_insert s t.toList

theorem keptIn_union_right (s t : OrdSet α) : t.KeptIn (s.union t) := by
  intro a ha
  rw [contains_union, ha, Bool.or_true]

end OrdSet
end

/-! ### bounds -/

section
variable {α : Type} {R S : α → α → Prop} [DecidableRel R]

/-- the foremost of two is level with the first or before it -/
theorem foremost_keeps_left (hrefl : ∀ a, S a a) (hS : ∀ a b, R b a → S b a) (x y : Option α) :
    ∀ a ∈ x, ∃ c ∈ foremost R x y, S c a := by
  rintro a ⟨⟩
  cases y with
  | none => exact ⟨a, rfl, hrefl a⟩
  | some b =>
    rcases foremost_cases (R := R) a b with ⟨h, _⟩ | ⟨h, hba⟩
    · exact ⟨a, h, hrefl a⟩
    · exact ⟨b, h, hS a b hba⟩

/-- and so it is with the second, if that can be told from its not being before the first -/
theorem foremost_keeps_right (hrefl : ∀ a, S a a) {x y : Option α}
    (hS : ∀ a ∈ x, ∀ b ∈ y, ¬ R b a → S a b) : ∀ b ∈ y, ∃ c ∈ foremost R x y, S c b := by
  rintro b ⟨⟩
  cases x with
  | none => exact ⟨b, rfl, hrefl b⟩
  | some a =>
    rcases foremost_cases (R := R) a b with ⟨h, hba⟩ | ⟨h, _⟩
    · exact ⟨a, h, hS a rfl b rfl hba⟩
    · exact ⟨b, h, hrefl b⟩

end

/-- bounds that are there in `b` are there in `c`, and no nearer to each other -/
structure Bounds.KeptIn {α : Type} [Ord α] (b c : Bounds α) : Prop where
  least : ∀ x ∈ b.least, ∃ y ∈ c.least, (compare y x).isLE = true
  greatest : ∀ x ∈ b.greatest, ∃ y ∈ c.greatest, (compare x y).isLE = true

namespace Bounds
variable {α : Type} [Ord α] [TransOrd α] {b c d : Bounds α} {P : α → Prop}

theorem KeptIn.refl (b : Bounds α) : b.KeptIn b :=
  ⟨fun x hx => ⟨x, hx, ReflCmp.isLE_rfl⟩, fun x hx => ⟨x, hx, ReflCmp.isLE_rfl⟩⟩

theorem KeptIn.trans (hbc : b.KeptIn c) (hcd : c.KeptIn d) : b.KeptIn d where
  least x hx := by
    obtain ⟨y, hy, hyx⟩ := hbc.least x hx
    obtain ⟨z, hz, hzy⟩ := hcd.least y hy
    exact ⟨z, hz, TransCmp.isLE_trans hzy hyx⟩
  greatest x hx := by
    obtain ⟨y, hy, hxy⟩ := hbc.greatest x hx
    obtain ⟨z, hz, hyz⟩ := hcd.greatest y hy
    exact ⟨z, hz, TransCmp.isLE_trans hxy hyz⟩

variable [LT α] [DecidableLT α]

theorem keptIn_merge_left (hlt : ∀ a b : α, a < b → compare a b = .lt) (b c : Bounds α) :
    b.KeptIn (b.merge c) := by
  have hle : ∀ x y : α, x < y → (compare x y).isLE = true := by
    intro x y hxy
    rw [hlt x y hxy]
    rfl
  rw [merge_eq]
  exact ⟨foremost_keeps_left (fun _ => ReflCmp.isLE_rfl) (fun x y => hle y x) _ _,
    foremost_keeps_left (S := fun y x => (compare x y).isLE = true) (fun _ => ReflCmp.isLE_rfl)
      (fun x y => hle x y) _ _⟩

theorem keptIn_merge_right (hlt : ∀ {a b : α}, P a → P b → (a < b ↔ compare a b = .lt))
    (hb : b.All P) (hc : c.All P) : c.KeptIn (b.merge c) := by
  have hle : ∀ {x y : α}, P x → P y → ¬ y < x → (compare x y).isLE = true := by
    intro x y hx hy hyx
    rw [hlt hy hx] at hyx
    exact Ordering.isLE_iff_ne_gt.mpr fun hgt => hyx (OrientedCmp.lt_of_gt hgt)
  rw [merge_eq]
  constructor
  · exact foremost_keeps_right (fun _ => ReflCmp.isLE_rfl)
      fun x hx y hy => hle (hb.1 x hx) (hc.1 y hy)
  · exact foremost_keeps_right (S := fun y x => (compare x y).isLE = true)
      (fun _ => ReflCmp.isLE_rfl) fun x hx y hy => hle (hc.2 y hy) (hb.2 x hx)

end Bounds

/-- what is less comes first -/
theorem Number.compare_of_lt (a b : Number) (h : a < b) : compare a b = .lt := by
  have hless : less a b = true := h
  rw [less, Bool.and_eq_true] at hless
  exact Ordering.isLT_iff_eq_lt.mp hless.2

theorem compare_of_int_lt (m n : Int) (h : m < n) : compare m n = .lt := Int.compare_eq_lt.mpr h

/-! ### distinct values -/

/-- an overflow stays, and without one so do the values -/
structure Distinct.KeptIn (d e : Distinct) : Prop where
  overflow : d.overflow = true → e.overflow = true
  values : e.overflow = false → d.values.KeptIn e.values

namespace Distinct
variable {cap : Int} {d e f : Distinct}

theorem KeptIn.refl (d : Distinct) : d.KeptIn d := ⟨id, fun _ => .refl d.values⟩

theorem KeptIn.trans (hde : d.KeptIn e) (hef : e.KeptIn f) : d.KeptIn f where
  overflow h := hef.overflow (hde.overflow h)
  values h := by
    have he : e.overflow = false := by
      cases ho : e.overflow with
      | true => exact (hef.overflow ho).symm.trans h
      | false => rfl
    exact (hde.values he).trans (hef.values h)

theorem keptIn_tooMany (d : Distinct) : d.KeptIn tooMany := ⟨fun _ => rfl, nofun⟩

theorem keptIn_capped {s : OrdSet Candidate} (h : d.overflow = false) (hs : d.values.KeptIn s) :
    d.KeptIn (capped cap s) := by
  rw [capped]
  split
  · exact ⟨fun ho => absurd (h.symm.trans ho) Bool.false_ne_true, fun _ => hs⟩
  · exact keptIn_tooMany d

theorem keptIn_record (cap : Int) (d : Distinct) (c : Candidate) : d.KeptIn (d.record cap c) := by
  rw [record]
  split
  · exact .refl d
  · split
    · exact .refl d
    · split
      · exact keptIn_tooMany d
      · rename_i ho _ _
        exact ⟨fun h => absurd h ho, fun _ => OrdSet.keptIn_insert d.values c⟩

theorem keptIn_foldl_record (cap : Int) (d : Distinct) (l : List Candidate) :
    d.KeptIn (l.foldl (record cap) d) := by
  induction l generalizing d with
  | nil => exact .refl d
  | cons c r ih => exact (keptIn_record cap d c).trans (ih (d.record cap c))

/-- both sides of a merge are kept -/
theorem keptIn_merge (cap : Int) (d e : Distinct) :
    d.KeptIn (d.merge cap e) ∧ e.KeptIn (d.merge cap e) := by
  obtain ⟨s, i⟩ := d
  obtain ⟨t, j⟩ := e
  cases hij : i || j with
  | true =>
    rw [merge_overflow hij]
    exact ⟨keptIn_tooMany _, keptIn_tooMany _⟩
  | false =>
    obtain ⟨rfl, rfl⟩ := Bool.or_eq_false_iff.mp hij
    rw [merge_uncapped]
    exact ⟨keptIn_capped rfl (OrdSet.keptIn_union_left s t),
      keptIn_capped rfl (OrdSet.keptIn_union_right s t)⟩

end Distinct

/-! ### one position -/

/-- what is known in `a` is known in `b` -/
structure Evidence.KeptIn (a b : Evidence) : Prop where
  types : a.types.KeptIn b.types
  integerOnly : b.integerOnly = true → a.integerOnly = true
  numbers : a.numbers.KeptIn b.numbers
  lengths : a.lengths.KeptIn b.lengths
  sizes : a.sizes.KeptIn b.sizes
  itemCount : a.itemCount ≤ b.itemCount
  distinct : a.distinct.KeptIn b.distinct
  formats : a.formats.KeptIn b.formats
  presence : a.presence ≤ b.presence

/-- no count is negative -/
structure Evidence.Nonneg (e : Evidence) : Prop where
  itemCount : 0 ≤ e.itemCount
  presence : 0 ≤ e.presence

namespace Evidence
variable {caps : Caps} {a b c : Evidence}

theorem KeptIn.refl (e : Evidence) : e.KeptIn e :=
  ⟨.refl _, id, .refl _, .refl _, .refl _, Int.le_refl _, .refl _, .refl _, Int.le_refl _⟩

theorem KeptIn.trans (hab : a.KeptIn b) (hbc : b.KeptIn c) : a.KeptIn c where
  types := hab.types.trans hbc.types
  integerOnly h := hab.integerOnly (hbc.integerOnly h)
  numbers := hab.numbers.trans hbc.numbers
  lengths := hab.lengths.trans hbc.lengths
  sizes := hab.sizes.trans hbc.sizes
  itemCount := Int.le_trans hab.itemCount hbc.itemCount
  distinct := hab.distinct.trans hbc.distinct
  formats := hab.formats.trans hbc.formats
  presence := Int.le_trans hab.presence hbc.presence

theorem keptIn_bePresent (e : Evidence) : e.KeptIn e.bePresent :=
  { KeptIn.refl e with presence := Int.le_add_of_nonneg_right Int.one_nonneg }

theorem keptIn_observed {α : Type} [Ord α] [TransOrd α] [LT α] [DecidableLT α]
    (hlt : ∀ a b : α, a < b → compare a b = .lt) (b : Bounds α) (x : Option α) :
    b.KeptIn (x.toList.foldl Bounds.observe b) := by
  cases x with
  | none => exact .refl b
  | some n => exact Bounds.keptIn_merge_left hlt b (.point n)

/-- seeing one more value keeps what was seen -/
theorem keptIn_see (caps : Caps) (e : Evidence) (v : Value) : e.KeptIn (see caps e v) where
  types := by
    rw [see_types]
    exact OrdSet.keptIn_foldl_insert _ _
  integerOnly := by
    rw [see_integerOnly, foldl_and, Bool.and_eq_true]
    exact fun h => h.1
  numbers := by
    rw [see_numbers]
    exact keptIn_observed Number.compare_of_lt _ _
  lengths := by
    rw [see_lengths]
    exact keptIn_observed compare_of_int_lt _ _
  sizes := by
    rw [see_sizes]
    exact keptIn_observed compare_of_int_lt _ _
  itemCount := by
    rw [see_itemCount]
    omega
  distinct := by
    rw [see_distinct]
    exact Distinct.keptIn_foldl_record _ _ _
  formats := by
    rw [see_formats]
    exact OrdSet.keptIn_foldl_insert _ _
  presence := Int.le_of_eq (see_presence e v).symm

theorem keptIn_merge_left (caps : Caps) (a : Evidence) (hb : b.Nonneg) :
    a.KeptIn (a.merge caps b) where
  types := OrdSet.keptIn_union_left a.types b.types
  integerOnly h := (Bool.and_eq_true _ _ ▸ h).1
  numbers := Bounds.keptIn_merge_left Number.compare_of_lt a.numbers b.numbers
  lengths := Bounds.keptIn_merge_left compare_of_int_lt a.lengths b.lengths
  sizes := Bounds.keptIn_merge_left compare_of_int_lt a.sizes b.sizes
  itemCount := Int.le_add_of_nonneg_right hb.itemCount
  distinct := (Distinct.keptIn_merge caps.distinct a.distinct b.distinct).1
  formats := OrdSet.keptIn_union_left a.formats b.formats
  presence := Int.le_add_of_nonneg_right hb.presence

theorem keptIn_merge_right (caps : Caps) (ha : a.Nonneg) (hoa : a.Ordered) (hob : b.Ordered) :
    b.KeptIn (a.merge caps b) where
  types := OrdSet.keptIn_union_right a.types b.types
  integerOnly h := (Bool.and_eq_true _ _ ▸ h).2
  numbers := Bounds.keptIn_merge_right Number.lt_iff_compare hoa hob
  -- of integers the order of a merge does not matter, so the right side is as good as the left
  lengths := by
    have h := Bounds.keptIn_merge_left compare_of_int_lt b.lengths a.lengths
    rwa [Bounds.merge_int_comm] at h
  sizes := by
    have h := Bounds.keptIn_merge_left compare_of_int_lt b.sizes a.sizes
    rwa [Bounds.merge_int_comm] at h
  itemCount := Int.le_add_of_nonneg_left ha.itemCount
  distinct := (Distinct.keptIn_merge caps.distinct a.distinct b.distinct).2
  formats := OrdSet.keptIn_union_right a.formats b.formats
  presence := Int.le_add_of_nonneg_left ha.presence

end Evidence

/-! ### trees -/

namespace Tree
variable {caps : Caps} {t u w : Tree}

/-- what is known in `t` at any position is known in `u` at that position -/
def KeptIn (t u : Tree) : Prop :=
  ∀ p a, t.at? p = some a → ∃ b, u.at? p = some b ∧ a.here.KeptIn b.here

/-- a subtree that is there is kept in one that is there -/
def KeptInOption (x y : Option Tree) : Prop := ∀ a ∈ x, ∃ b ∈ y, a.KeptIn b

/-- trees are kept if what is known at the root is, and the trees one step down are -/
theorem keptIn_iff : t.KeptIn u
    ↔ t.here.KeptIn u.here ∧ ∀ s, KeptInOption (t.step? s) (u.step? s) := by
  constructor
  · intro h
    constructor
    · obtain ⟨_, ⟨⟩, hhere⟩ := h [] t rfl
      exact hhere
    · intro s a ha
      have hbelow : ∀ p x, a.at? p = some x →
          ∃ b, u.step? s = some b ∧ ∃ y, b.at? p = some y ∧ x.here.KeptIn y.here := by
        intro p x hx
        have hat : t.at? (s :: p) = some x := by
          rw [at?_cons, Option.mem_def.mp ha]
          exact hx
        obtain ⟨y, hy, hxy⟩ := h (s :: p) x hat
        rw [at?_cons, Option.bind_eq_some_iff] at hy
        obtain ⟨b, hb, hby⟩ := hy
        exact ⟨b, hb, y, hby, hxy⟩
      -- the root of `a` tells which tree that is, the same for all positions below
      obtain ⟨b, hb, _⟩ := hbelow [] a rfl
      refine ⟨b, hb, fun p x hx => ?_⟩
      obtain ⟨b', hb', y, hy, hxy⟩ := hbelow p x hx
      rw [hb] at hb'
      cases hb'
      exact ⟨y, hy, hxy⟩
  · rintro ⟨here, below⟩ p a ha
    cases p with
    | nil =>
      cases ha
      exact ⟨u, rfl, here⟩
    | cons s p =>
      rw [at?_cons, Option.bind_eq_some_iff] at ha
      obtain ⟨x, hx, hxa⟩ := ha
      obtain ⟨y, hy, hxy⟩ := below s x hx
      obtain ⟨b, hb, hab⟩ := hxy p a hxa
      refine ⟨b, ?_, hab⟩
      rw [at?_cons, Option.mem_def.mp hy]
      exact hb

theorem KeptIn.refl (t : Tree) : t.KeptIn t := fun _ a ha => ⟨a, ha, .refl a.here⟩

theorem KeptIn.trans (htu : t.KeptIn u) (huw : u.KeptIn w) : t.KeptIn w := by
  intro p a ha
  obtain ⟨b, hb, hab⟩ := htu p a ha
  obtain ⟨c, hc, hbc⟩ := huw p b hb
  exact ⟨c, hc, hab.trans hbc⟩

namespace KeptInOption
variable {x y z : Option Tree}

theorem refl (x : Option Tree) : KeptInOption x x := fun a ha => ⟨a, ha, .refl a⟩

theorem trans (hxy : KeptInOption x y) (hyz : KeptInOption y z) : KeptInOption x z := by
  intro a ha
  obtain ⟨b, hb, hab⟩ := hxy a ha
  obtain ⟨c, hc, hbc⟩ := hyz b hb
  exact ⟨c, hc, hab.trans hbc⟩

/-- what is put in the place of a subtree, of a fresh one if there was none -/
theorem of_getD (h : (x.getD fresh).KeptIn u) : KeptInOption x (some u) := by
  rintro a ⟨⟩
  exact ⟨u, rfl, h⟩

end KeptInOption

/-! ### observing -/

/-- a value is seen at the root, and the trees below are kept -/
theorem keptIn_seen (v : Value) {l : List (String × Tree)} {items : Option Tree}
    (hl : ∀ k, KeptInOption (t.properties.lookup k) (l.lookup k))
    (hi : KeptInOption t.items items) :
    t.KeptIn ⟨Evidence.see caps t.here v, l, items⟩ := by
  refine keptIn_iff.mpr ⟨Evidence.keptIn_see caps t.here v, fun s => ?_⟩
  cases s with
  | key k => exact hl k
  | element => exact hi

/-- a tree with other evidence at the root -/
theorem keptIn_here {e : Evidence} (h : t.here.KeptIn e) : t.KeptIn { t with here := e } :=
  keptIn_iff.mpr ⟨h, fun s => by cases s <;> exact .refl _⟩

/-- what is known under a key is kept in what is known after one more object that holds it -/
theorem keptIn_setProperty (l : List (String × Tree)) (key : String)
    (h : (presentAt key l).KeptIn u) (k : String) :
    KeptInOption (l.lookup k) ((setProperty key u l).lookup k) := by
  rw [lookup_setProperty]
  by_cases hk : k = key
  · rw [if_pos hk, hk]
    exact .of_getD ((keptIn_here (Evidence.keptIn_bePresent _)).trans h)
  · rw [if_neg hk]
    exact .refl _

section
variable (caps : Caps) (limit : Int)

theorem keptIn_observeItems {depth : Int} {items : List Value}
    (h : ∀ v ∈ items, ∀ t : Tree, t.KeptIn (observe caps limit depth v t).tree)
    (t : Option Tree) : KeptInOption t (observeItems caps limit depth items t).1 :=
  observeItems_invariant (KeptInOption t) (fun v hv _ hx => hx.trans (.of_getD (h v hv _)))
    (.refl t)

theorem keptIn_observeMembers {depth : Int} {members : List (String × Value)}
    (h : ∀ m ∈ members, ∀ t : Tree, t.KeptIn (observe caps limit depth m.2 t).tree)
    (l : List (String × Tree)) (k : String) : KeptInOption (l.lookup k)
      ((observeMembers caps limit depth members l).1.lookup k) :=
  observeMembers_invariant (fun l' => KeptInOption (l.lookup k) (l'.lookup k))
    (fun m hm l' hx => hx.trans (keptIn_setProperty l' m.1 (h m hm _) k)) (.refl _)

/-- observing a value keeps what was seen before, however the observation ends -/
theorem keptIn_observe (depth : Int) (v : Value) (t : Tree) :
    t.KeptIn (observe caps limit depth v t).tree := by
  induction v using Value.children_induction generalizing depth t with
  | h v ih =>
    have hbelow : ∀ w ∈ v.children, ∀ u : Tree,
        u.KeptIn (observe caps limit (depth + 1) w u).tree := fun w hw u => ih w hw (depth + 1) u
    by_cases hroom : limit < depth
    · rw [observe_of_lt hroom]
      exact .refl t
    · cases v using Value.scalar_cases with
      | scalar v hs =>
        rw [observe_scalar hroom hs]
        exact keptIn_here (Evidence.keptIn_see caps t.here v)
      | arr items =>
        rw [observe_arr hroom]
        exact keptIn_seen _ (fun _ => .refl _) (keptIn_observeItems caps limit hbelow t.items)
      | tuple items =>
        rw [observe_tuple hroom]
        exact keptIn_seen _ (fun _ => .refl _) (keptIn_observeItems caps limit hbelow t.items)
      | obj members =>
        rw [observe_obj hroom]
        refine keptIn_seen _ (keptIn_observeMembers caps limit (fun m hm => ?_) t.properties)
          (.refl _)
        exact hbelow m.2 (List.mem_map_of_mem hm)
      | foreign name =>
        rw [observe_foreign hroom]
        exact .refl t

end

/-! ### merging -/

/-- trees are merged position by position -/
theorem at?_merge (t u : Tree) (p : Position) :
    (merge caps t u).at? p = mergeItems caps (t.at? p) (u.at? p) := by
  induction p generalizing t u with
  | nil => rfl
  | cons s p ih =>
    rw [at?_cons, at?_cons, at?_cons, step?_merge]
    cases t.step? s with
    | none => rfl
    | some a =>
      cases u.step? s with
      | none => exact (mergeItems_none caps _).symm
      | some b => exact ih a b

/-- no count is negative, at any position -/
def Nonneg (t : Tree) : Prop := t.Everywhere fun u => u.here.Nonneg

theorem Everywhere.at? {P : Tree → Prop} {t u : Tree} {p : Position} (h : t.Everywhere P)
    (hp : t.at? p = some u) : P u := by
  induction p generalizing t with
  | nil =>
    cases hp
    exact h.here
  | cons s p ih =>
    rw [at?_cons, Option.bind_eq_some_iff] at hp
    obtain ⟨x, hx, hxu⟩ := hp
    exact ih (h.step? hx) hxu

theorem here_merge (caps : Caps) (t u : Tree) :
    (merge caps t u).here = t.here.merge caps u.here := by
  rw [merge_eq]

theorem keptIn_merge_left (caps : Caps) (t : Tree) (hu : u.Nonneg) :
    t.KeptIn (merge caps t u) := by
  intro p a ha
  rw [at?_merge, ha]
  cases hb : u.at? p with
  | none => exact ⟨a, mergeItems_none caps _, .refl _⟩
  | some b =>
    refine ⟨merge caps a b, rfl, ?_⟩
    rw [here_merge]
    exact Evidence.keptIn_merge_left caps a.here (hu.at? hb)

theorem keptIn_merge_right (caps : Caps) (ht : t.Nonneg) (hot : t.Ordered) (hou : u.Ordered) :
    u.KeptIn (merge caps t u) := by
  intro p b hb
  rw [at?_merge, hb]
  cases ha : t.at? p with
  | none => exact ⟨b, rfl, .refl _⟩
  | some a =>
    refine ⟨merge caps a b, rfl, ?_⟩
    rw [here_merge]
    exact Evidence.keptIn_merge_right caps (ht.at? ha) (hot.at? ha) (hou.at? hb)

/-- nothing is lost: neither when a value is observed, refused or not, nor from either tree of a
merge -/
theorem evidence_kept :
    (∀ (caps : Caps) (limit depth : Int) (v : Value) (t : Tree),
        t.KeptIn (observe caps limit depth v t).tree)
      ∧ ∀ (caps : Caps) (t u : Tree), t.Nonneg → u.Nonneg → t.Ordered → u.Ordered →
        t.KeptIn (merge caps t u) ∧ u.KeptIn (merge caps t u) :=
  ⟨keptIn_observe, fun caps t _ ht hu hot hou =>
    ⟨keptIn_merge_left caps t hu, keptIn_merge_right caps ht hot hou⟩⟩

/-- two numbers in an array under a key, more than one cap allows -/
def ranging : Tree :=
  let numbers := Evidence.see ⟨1, 1⟩ (Evidence.see ⟨1, 1⟩ ∅ (.int 1)) (.int 2)
  let array := (∅ : Evidence).bePresent.seeArray 2
  ⟨(∅ : Evidence).seeTag .object, [("a", ⟨array, [], some ⟨numbers, [], none⟩⟩)], none⟩

theorem evidence_kept_ranging :
    filled.KeptIn (merge ⟨0, -1⟩ ranging filled) ∧ ranging.KeptIn (merge ⟨0, -1⟩ ranging filled)
      ∧ ¬ filled.KeptIn ranging ∧ ¬ ranging.KeptIn filled := by
  have hitems : ∀ u ∈ some (⟨Evidence.see ⟨1, 1⟩ (Evidence.see ⟨1, 1⟩ ∅ (.int 1)) (.int 2), [],
      none⟩ : Tree), u.Nonneg ∧ u.Ordered := by
    rintro u ⟨⟩
    exact ⟨.leaf ⟨by decide, by decide⟩, .leaf (by decide)⟩
  have hnonneg : ranging.Nonneg := by
    refine .intro ⟨by decide, by decide⟩ (List.forall_mem_singleton.mpr ?_) nofun
    exact .intro ⟨by decide, by decide⟩ nofun fun u hu => (hitems u hu).1
  have hordered : ranging.Ordered := by
    refine .intro (by decide) (List.forall_mem_singleton.mpr ?_) nofun
    exact .intro (by decide) nofun fun u hu => (hitems u hu).2
  have hnonneg' : filled.Nonneg := by
    refine .intro ⟨by decide, by decide⟩ (List.forall_mem_singleton.mpr ?_) nofun
    exact .leaf ⟨by decide, by decide⟩
  have hordered' : filled.Ordered := by
    refine .intro (by decide) (List.forall_mem_singleton.mpr ?_) nofun
    exact .leaf (by decide)
  obtain ⟨hranging, hfilled⟩ :=
    evidence_kept.2 ⟨0, -1⟩ ranging filled hnonneg hnonneg' hordered hordered'
  refine ⟨hfilled, hranging, fun h => ?_, fun h => ?_⟩
  · have htext := (keptIn_iff.mp h).1.types .string (by decide)
    exact absurd htext (by decide)
  · obtain ⟨_, hbelow, _⟩ := h [.key "a", .element] _ rfl
    cases hbelow

end Tree
end JsonShape
