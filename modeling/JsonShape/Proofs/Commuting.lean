import JsonShape.Proofs.Merging
import JsonShape.Tree.Same

/-!
# Merging is commutative

Two trees may be merged in either order: the results are the same but for what equality leaves out.
The examples of the first tree come first, and so do its keys; of two level numbers, the integer one
and the double one say, the bounds and the distinct values keep that of the first tree.

Nothing is asked of how the trees came about, and nothing of the caps.  As for the grouping of
merges, no bound of a number may be a nan; and since a row of properties is a map, no key may occur
twice in it.

* `Evidence.merge_sameAs_merge`  at a single position the two orders give the same evidence;
* `Tree.sameAs_of_step?`         trees are the same if their evidence is, and that step by step;
* `Tree.merge_sameAs_swap`       trees are merged in either order.
-/

namespace JsonShape
open Std

/-! ### evidence -/

namespace Evidence

theorem sameBound_refl (x : Option Number) : sameBound x x = true := by
  cases x with
  | none => rfl
  | some n => exact beq_iff_eq.mpr ReflOrd.compare_self

/-- the foremost of two numbers is of one value in either order -/
theorem sameBound_foremost {R : Number → Number → Prop} [DecidableRel R]
    (h : WeakOn R fun n => n.isNan = false)
    (hlevel : ∀ m n, m.isNan = false → n.isNan = false → ¬ R m n → ¬ R n m → compare m n = .eq)
    {x y : Option Number} (hx : ∀ n ∈ x, n.isNan = false) (hy : ∀ n ∈ y, n.isNan = false) :
    sameBound (foremost R x y) (foremost R y x) = true := by
  rcases foremost_comm_or_level h hx hy with he | ⟨m, n, hm, hn, hm', hn', hmn, hnm⟩
  · rw [he]
    exact sameBound_refl _
  · rw [hm, hn]
    exact beq_iff_eq.mpr (hlevel m n hm' hn' hmn hnm)

theorem sameAs_refl (e : Evidence) : e.sameAs e = true := by
  simp only [sameAs, OrdSet.sameAs_refl, Distinct.sameAs_refl, sameBound_refl, beq_self_eq_true,
    Bool.and_self]

/-- the evidence of two positions is the same in either order -/
theorem merge_sameAs_merge (caps : Caps) {a b : Evidence} (ha : a.Ordered) (hb : b.Ordered) :
    (a.merge caps b).sameAs (b.merge caps a) = true := by
  have htypes := OrdSet.union_sameAs_union a.types b.types
  have hwhole := Bool.and_comm a.integerOnly b.integerOnly
  have hleast : sameBound (a.numbers.merge b.numbers).least (b.numbers.merge a.numbers).least
      = true := by
    rw [Bounds.merge_eq, Bounds.merge_eq]
    exact sameBound_foremost Number.weakOn_lt (fun _ _ => Number.level_of_not_lt) ha.1 hb.1
  have hgreatest : sameBound (a.numbers.merge b.numbers).greatest
      (b.numbers.merge a.numbers).greatest = true := by
    rw [Bounds.merge_eq, Bounds.merge_eq]
    refine sameBound_foremost Number.weakOn_lt.opposite (fun _ _ hm hn hmn hnm => ?_) ha.2 hb.2
    exact Number.level_of_not_lt hm hn hnm hmn
  have hlengths := Bounds.merge_int_comm a.lengths b.lengths
  have hsizes := Bounds.merge_int_comm a.sizes b.sizes
  have hitems := Int.add_comm a.itemCount b.itemCount
  have hdistinct := Distinct.merge_sameAs_merge caps.distinct a.distinct b.distinct
  have hformats := OrdSet.union_sameAs_union a.formats b.formats
  have hpresence := Int.add_comm a.presence b.presence
  simp only [sameAs, merge, htypes, hwhole, hleast, hgreatest, hlengths, hsizes, hitems, hdistinct,
    hformats, hpresence, beq_self_eq_true, Bool.and_self]

end Evidence

/-! ### trees -/

namespace Tree

theorem sameProperties_iff {l m : List (String × Tree)} : sameProperties l m = true
    ↔ ∀ p ∈ l, ∃ u, m.lookup p.1 = some u ∧ p.2.sameAs u = true := by
  induction l with
  | nil => exact ⟨fun _ => nofun, fun _ => rfl⟩
  | cons p r ih =>
    rw [sameProperties, Bool.and_eq_true, ih, List.forall_mem_cons]
    refine and_congr_left fun _ => ?_
    cases m.lookup p.1 <;> simp

theorem sameItems_iff {t u : Option Tree} : sameItems t u = true
    ↔ t = none ∧ u = none ∨ ∃ a b, t = some a ∧ u = some b ∧ a.sameAs b = true := by
  cases t <;> cases u <;> simp [sameItems]

/-- no key occurs twice, at any position -/
def Keyed (t : Tree) : Prop := t.Everywhere fun u => (u.properties.map Prod.fst).Nodup

/-- rows without repeated keys are the same if the subtrees under each key are -/
theorem sameProperties_of_lookup {l m : List (String × Tree)} (hl : (l.map Prod.fst).Nodup)
    (hm : (m.map Prod.fst).Nodup) (h : ∀ k, sameItems (l.lookup k) (m.lookup k) = true) :
    l.length = m.length ∧ sameProperties l m = true := by
  constructor
  · have hkeys : ∀ k, k ∈ l.map Prod.fst ↔ k ∈ m.map Prod.fst := by
      intro k
      rw [← Decidable.not_iff_not, ← lookup_eq_none, ← lookup_eq_none]
      rcases sameItems_iff.mp (h k) with ⟨ht, hu⟩ | ⟨t, u, ht, hu, _⟩
      · rw [ht, hu]
      · rw [ht, hu]
        simp
    have hlen := ((List.perm_ext_iff_of_nodup hl hm).mpr hkeys).length_eq
    rwa [List.length_map, List.length_map] at hlen
  · rw [sameProperties_iff]
    intro p hp
    have hfound := (lookup_iff_mem hl).mpr hp
    rcases sameItems_iff.mp (h p.1) with ⟨hnone, _⟩ | ⟨t, u, ht, hu, htu⟩
    · rw [hfound] at hnone
      cases hnone
    · rw [hfound] at ht
      cases ht
      exact ⟨u, hu, htu⟩

/-- trees are the same if their evidence is, and the trees one step down are -/
theorem sameAs_of_step? {a b : Tree} (ha : (a.properties.map Prod.fst).Nodup)
    (hb : (b.properties.map Prod.fst).Nodup) (here : a.here.sameAs b.here = true)
    (below : ∀ s, sameItems (a.step? s) (b.step? s) = true) : a.sameAs b = true := by
  obtain ⟨e, l, t⟩ := a
  obtain ⟨f, m, u⟩ := b
  obtain ⟨hlen, hrow⟩ := sameProperties_of_lookup ha hb fun k => below (.key k)
  have hitems : sameItems t u = true := below .element
  rw [sameAs, here, hlen, hrow, hitems, beq_self_eq_true]
  rfl

theorem Everywhere.step? {P : Tree → Prop} {t u : Tree} {s : Step} (h : t.Everywhere P)
    (hs : t.step? s = some u) : u.Everywhere P := by
  cases s with
  | key k => exact h.properties _ (mem_of_lookup hs)
  | element => exact h.items u hs

theorem sameAs_refl {t : Tree} (h : t.Keyed) : t.sameAs t = true := by
  induction h with
  | @intro t here properties items ihp ihi =>
    refine sameAs_of_step? here here (Evidence.sameAs_refl t.here) fun s => ?_
    rw [sameItems_iff]
    cases hs : t.step? s with
    | none => exact Or.inl ⟨rfl, rfl⟩
    | some u =>
      refine Or.inr ⟨u, u, rfl, rfl, ?_⟩
      cases s with
      | key k => exact ihp _ (mem_of_lookup hs)
      | element => exact ihi u hs

theorem nodup_mergeProperties (caps : Caps) {l m : List (String × Tree)}
    (hl : (l.map Prod.fst).Nodup) (hm : (m.map Prod.fst).Nodup) :
    ((mergeProperties caps l m).map Prod.fst).Nodup := by
  rw [keys_mergeProperties]
  refine List.nodup_append.mpr ⟨hl, hm.filter _, ?_⟩
  rintro k hk j hj rfl
  exact of_decide_eq_true (List.mem_filter.mp hj).2 hk

/-- either order of a merge gives the same tree -/
theorem merge_sameAs_swap {caps : Caps} {a b : Tree} (ha : a.Ordered) (hb : b.Ordered)
    (hka : a.Keyed) (hkb : b.Keyed) : (merge caps a b).sameAs (merge caps b a) = true := by
  -- on the first tree: what only one of the two has below is the same as itself
  induction ha generalizing b with
  | @intro a here properties items ihp ihi =>
    have hstep : ∀ s t, a.step? s = some t → ∀ u, b.step? s = some u →
        (merge caps t u).sameAs (merge caps u t) = true := by
      intro s t ht u hu
      have hut := hb.step? hu
      cases s with
      | key k => exact ihp _ (mem_of_lookup ht) hut (hka.step? ht) (hkb.step? hu)
      | element => exact ihi t ht hut (hka.step? ht) (hkb.step? hu)
    have hab := nodup_mergeProperties caps hka.here hkb.here
    have hba := nodup_mergeProperties caps hkb.here hka.here
    have hsame := Evidence.merge_sameAs_merge caps here hb.here
    refine sameAs_of_step? ?_ ?_ ?_ fun s => ?_
    · rw [merge_eq]
      exact hab
    · rw [merge_eq]
      exact hba
    · rw [merge_eq, merge_eq]
      exact hsame
    · rw [step?_merge, step?_merge, sameItems_iff]
      cases ht : a.step? s with
      | none =>
        rw [mergeItems_none]
        cases hu : b.step? s with
        | none => exact Or.inl ⟨rfl, rfl⟩
        | some u => exact Or.inr ⟨u, u, rfl, rfl, sameAs_refl (hkb.step? hu)⟩
      | some t =>
        cases hu : b.step? s with
        | none => exact Or.inr ⟨t, t, rfl, rfl, sameAs_refl (hka.step? ht)⟩
        | some u => exact Or.inr ⟨_, _, rfl, rfl, hstep s t ht u hu⟩

/-- the number one was seen, and a key -/
def integral : Tree :=
  ⟨{ (∅ : Evidence) with
      numbers := .point (.int 1)
      distinct := ⟨.singleton (Scalar.num (.int 1)).candidate, false⟩ },
    [("k", fresh)], some fresh⟩

/-- the same number, as a double, and two keys -/
def floating : Tree :=
  let one : Number := .ofBits 0x3FF0000000000000 0
  ⟨{ (∅ : Evidence) with
      numbers := .point one
      distinct := ⟨.singleton (Scalar.num one).candidate, false⟩ },
    [("l", fresh), ("k", integral)], none⟩

theorem merge_sameAs_swap_level :
    (merge ⟨1, -1⟩ integral floating).sameAs (merge ⟨1, -1⟩ floating integral) = true
      ∧ (merge ⟨1, -1⟩ integral floating).here.numbers.least
        ≠ (merge ⟨1, -1⟩ floating integral).here.numbers.least := by
  have hfresh : fresh.Keyed := .leaf List.nodup_nil
  have hitems : ∀ u ∈ some fresh, u.Ordered := by
    rintro u ⟨⟩
    exact .fresh
  have hitems' : ∀ u ∈ some fresh, u.Keyed := by
    rintro u ⟨⟩
    exact hfresh
  have hi : integral.Ordered :=
    .intro (by decide) (List.forall_mem_singleton.mpr Ordered.fresh) hitems
  have hki : integral.Keyed :=
    .intro (by decide) (List.forall_mem_singleton.mpr hfresh) hitems'
  have hf : floating.Ordered := by
    refine .intro (by decide) (List.forall_mem_cons.mpr ⟨Ordered.fresh, ?_⟩) nofun
    exact List.forall_mem_singleton.mpr hi
  have hkf : floating.Keyed := by
    refine .intro (by decide) (List.forall_mem_cons.mpr ⟨hfresh, ?_⟩) nofun
    exact List.forall_mem_singleton.mpr hki
  exact ⟨merge_sameAs_swap hi hf hki hkf, by decide +kernel⟩

end Tree
end JsonShape
