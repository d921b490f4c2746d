import JsonShape.Proofs.Gather
import JsonShape.Tree.Merge

/-!
# Merging is associative

Merged trees may be merged further in any grouping: evidence, order of keys and examples come out
the same.  Nothing is asked of how the trees came about.  They may hold more than the caps allow,
and a subtree that only one of them has is taken over as it is, caps or no caps.  What is asked is
that no bound of a number is a nan, for a nan is neither the lesser nor the greater of two.

A fresh tree changes nothing beside a tree whose root is within the caps.

* `Tree.mergeProperties_assoc`            rows of subtrees are merged key by key;
* `Tree.merge_assoc`                      trees in any grouping;
* `Tree.merge_fresh`, `Tree.fresh_merge`  a fresh tree changes nothing;
* `Tree.merge_monoid_laws`                all of this together.
-/

namespace JsonShape

/-! ### evidence -/

namespace Evidence
variable {caps : Caps}

/-- neither bound of the numbers is a nan -/
def Ordered (e : Evidence) : Prop := e.numbers.All fun n => n.isNan = false

/-- the distinct values and the examples are within the caps -/
structure Within (caps : Caps) (e : Evidence) : Prop where
  distinct : e.distinct.Within caps.distinct
  examples : (e.examples.length : Int) ≤ caps.examples

instance (e : Evidence) : Decidable e.Ordered :=
  inferInstanceAs (Decidable ((∀ n ∈ e.numbers.least, n.isNan = false)
    ∧ ∀ n ∈ e.numbers.greatest, n.isNan = false))

theorem Ordered.empty : Ordered ∅ := ⟨nofun, nofun⟩

theorem take_take_append_left {α : Type} (n : Nat) (l m : List α) :
    (l.take n ++ m).take n = (l ++ m).take n := by
  rw [← take_take_append, List.take_take, Nat.min_self, take_take_append]

theorem take_take_append_right {α : Type} (n : Nat) (l m : List α) :
    (l ++ m.take n).take n = (l ++ m).take n := by
  rw [← take_take_append, List.take_take, Nat.min_self, take_take_append]

theorem upTo_append_assoc {α : Type} {n : Int} (hn : 0 ≤ n) (a b c : List α) :
    upTo n (upTo n (a ++ b) ++ c) = upTo n (a ++ upTo n (b ++ c)) := by
  rw [upTo_of_nonneg hn, upTo_of_nonneg hn, upTo_of_nonneg hn, upTo_of_nonneg hn,
    take_take_append_left, take_take_append_right, List.append_assoc]

theorem upTo_of_length_le {α : Type} {n : Int} {l : List α} (h : (l.length : Int) ≤ n) :
    upTo n l = l := by
  rw [upTo_of_nonneg (by omega), List.take_of_length_le (by omega)]

theorem merge_assoc (he : 0 ≤ caps.examples) {a b c : Evidence} (ha : a.Ordered) (hb : b.Ordered)
    (hc : c.Ordered) : (a.merge caps b).merge caps c = a.merge caps (b.merge caps c) := by
  have hint : ∀ x : Bounds Int, x.All fun _ => True :=
    fun _ => ⟨fun _ _ => trivial, fun _ _ => trivial⟩
  apply Evidence.ext
  · exact OrdSet.union_assoc a.types b.types c.types
  · exact Bool.and_assoc a.integerOnly b.integerOnly c.integerOnly
  · exact Bounds.merge_assoc Number.weakOn_lt ha hb hc
  · exact Bounds.merge_assoc weakOn_int_lt (hint a.lengths) (hint b.lengths) (hint c.lengths)
  · exact Bounds.merge_assoc weakOn_int_lt (hint a.sizes) (hint b.sizes) (hint c.sizes)
  · exact Int.add_assoc a.itemCount b.itemCount c.itemCount
  · exact Distinct.merge_assoc a.distinct b.distinct c.distinct
  · exact OrdSet.union_assoc a.formats b.formats c.formats
  · exact upTo_append_assoc he a.examples b.examples c.examples
  · exact Int.add_assoc a.presence b.presence c.presence

theorem Within.empty_merge {e : Evidence} (h : e.Within caps) :
    (∅ : Evidence).merge caps e = e := by
  apply Evidence.ext
  · exact OrdSet.empty_union e.types
  · exact Bool.true_and e.integerOnly
  · rfl
  · rfl
  · rfl
  · exact Int.zero_add e.itemCount
  · exact h.distinct.empty_merge
  · exact OrdSet.empty_union e.formats
  · exact upTo_of_length_le h.examples
  · exact Int.zero_add e.presence

theorem Within.merge_empty {e : Evidence} (h : e.Within caps) : e.merge caps ∅ = e := by
  apply Evidence.ext
  · rfl
  · exact Bool.and_true e.integerOnly
  · exact Bounds.merge_empty e.numbers
  · exact Bounds.merge_empty e.lengths
  · exact Bounds.merge_empty e.sizes
  · exact Int.add_zero e.itemCount
  · exact h.distinct.merge_empty
  · rfl
  · show upTo caps.examples (e.examples ++ []) = e.examples
    rw [List.append_nil, upTo_of_length_le h.examples]
  · exact Int.add_zero e.presence

end Evidence

namespace Tree
variable {caps : Caps}

/-- what holds of a tree and of all trees below it -/
inductive Everywhere (P : Tree → Prop) : Tree → Prop
  | intro {t : Tree} (here : P t) (properties : ∀ p ∈ t.properties, Everywhere P p.2)
      (items : ∀ u ∈ t.items, Everywhere P u) : Everywhere P t

namespace Everywhere
variable {P Q : Tree → Prop} {t : Tree}

theorem here (h : t.Everywhere P) : P t := by
  cases h with
  | intro hh _ _ => exact hh

theorem properties (h : t.Everywhere P) : ∀ p ∈ t.properties, p.2.Everywhere P := by
  cases h with
  | intro _ hp _ => exact hp

theorem items (h : t.Everywhere P) : ∀ u ∈ t.items, u.Everywhere P := by
  cases h with
  | intro _ _ hi => exact hi

theorem leaf {e : Evidence} (h : P ⟨e, [], none⟩) : Everywhere P ⟨e, [], none⟩ :=
  .intro h nofun nofun

theorem mono (hPQ : ∀ t, P t → Q t) (h : t.Everywhere P) : t.Everywhere Q := by
  induction h with
  | intro here _ _ ihp ihi => exact .intro (hPQ _ here) ihp ihi

end Everywhere

/-- no bound of a number is a nan, at any position -/
def Ordered (t : Tree) : Prop := t.Everywhere fun u => u.here.Ordered

theorem Ordered.fresh : Tree.fresh.Ordered := .leaf Evidence.Ordered.empty

/-! ### rows of subtrees -/

theorem lookup_mergeShared (a b : List (String × Tree)) (k : String) :
    (mergeShared caps a b).lookup k
      = (a.lookup k).map fun t => ((b.lookup k).map (merge caps t)).getD t := by
  induction a with
  | nil => rfl
  | cons p r ih =>
    obtain ⟨key, t⟩ := p
    rw [mergeShared, List.lookup_cons, List.lookup_cons]
    by_cases h : k = key
    · rw [h, beq_self_eq_true]
      cases b.lookup key <;> rfl
    · rw [beq_eq_false_iff_ne.mpr h]
      exact ih

theorem newIn_eq (a b : List (String × Tree)) :
    newIn a b = b.filter fun p => !(a.lookup p.1).isSome := by
  rw [newIn]
  congr 1
  funext p
  rw [any_key]

theorem lookup_newIn (a b : List (String × Tree)) (k : String) :
    (newIn a b).lookup k = if (a.lookup k).isSome then none else b.lookup k := by
  have h := lookup_filter_keys (fun key => !(a.lookup key).isSome) b k
  rw [newIn_eq, h]
  cases (a.lookup k).isSome <;> rfl

/-- a subtree, merged with the one of the same key if there is one -/
def joined (caps : Caps) (t : Tree) : Option Tree → Tree
  | some u => merge caps t u
  | none => t

theorem mergeItems_some (t : Tree) (b : Option Tree) :
    mergeItems caps (some t) b = some (joined caps t b) := by
  cases b <;> rfl

theorem mergeShared_eq_map (a b : List (String × Tree)) :
    mergeShared caps a b = a.map fun p => (p.1, joined caps p.2 (b.lookup p.1)) := by
  induction a with
  | nil => rfl
  | cons p r ih =>
    rw [mergeShared, ih, List.map_cons]
    cases b.lookup p.1 <;> rfl

theorem mergeShared_append (a b c : List (String × Tree)) :
    mergeShared caps (a ++ b) c = mergeShared caps a c ++ mergeShared caps b c := by
  rw [mergeShared_eq_map, mergeShared_eq_map, mergeShared_eq_map, List.map_append]

/-- new subtrees are merged before or after they are singled out -/
theorem newIn_mergeShared (a b c : List (String × Tree)) :
    newIn a (mergeShared caps b c) = mergeShared caps (newIn a b) c := by
  rw [newIn_eq, newIn_eq, mergeShared_eq_map, mergeShared_eq_map, List.filter_map]
  rfl

/-- the properties of two trees -/
def mergeProperties (caps : Caps) (a b : List (String × Tree)) : List (String × Tree) :=
  mergeShared caps a b ++ newIn a b

theorem merge_eq (a b : Tree) : merge caps a b = ⟨a.here.merge caps b.here,
    mergeProperties caps a.properties b.properties, mergeItems caps a.items b.items⟩ :=
  merge_mk caps a b

theorem lookup_mergeProperties (a b : List (String × Tree)) (k : String) :
    (mergeProperties caps a b).lookup k = mergeItems caps (a.lookup k) (b.lookup k) := by
  rw [mergeProperties, List.lookup_append, lookup_mergeShared, lookup_newIn]
  cases a.lookup k with
  | none => rfl
  | some t => cases b.lookup k <;> rfl

/-- trees are merged step by step -/
theorem step?_merge (a b : Tree) (s : Step) :
    (merge caps a b).step? s = mergeItems caps (a.step? s) (b.step? s) := by
  rw [merge_eq]
  cases s with
  | key k => exact lookup_mergeProperties a.properties b.properties k
  | element => rfl

/-- the keys of the first row, then those that only the second one has -/
theorem keys_mergeProperties (a b : List (String × Tree)) :
    (mergeProperties caps a b).map Prod.fst
      = a.map Prod.fst ++ (b.map Prod.fst).filter (· ∉ a.map Prod.fst) := by
  have hkeep : (fun p : String × Tree => !(a.lookup p.1).isSome)
      = (fun k => decide (k ∉ a.map Prod.fst)) ∘ Prod.fst := by
    funext p
    rw [Function.comp_apply, Bool.eq_iff_iff, decide_eq_true_iff, ← lookup_eq_none]
    cases a.lookup p.1 <;> simp
  rw [mergeProperties, List.map_append, keys_mergeShared, newIn_eq, List.filter_map, hkeep]

/-- a key is new to a merged row if it is new to both -/
theorem newIn_mergeProperties (a b c : List (String × Tree)) :
    newIn (mergeProperties caps a b) c = newIn a (newIn b c) := by
  rw [newIn_eq, newIn_eq, newIn_eq, List.filter_filter]
  congr 1
  funext p
  rw [lookup_mergeProperties]
  cases a.lookup p.1 <;> cases b.lookup p.1 <;> rfl

theorem mergeItems_assoc {a b c : Option Tree} (h : ∀ t ∈ a, ∀ u ∈ b, ∀ w ∈ c,
      merge caps (merge caps t u) w = merge caps t (merge caps u w)) :
    mergeItems caps (mergeItems caps a b) c = mergeItems caps a (mergeItems caps b c) := by
  cases a with
  | none => rfl
  | some t =>
    cases b with
    | none => rfl
    | some u =>
      cases c with
      | none => rfl
      | some w => exact congrArg some (h t rfl u rfl w rfl)

theorem mergeProperties_assoc {a b c : List (String × Tree)} (h : ∀ p ∈ a, ∀ u ∈ b.lookup p.1,
      ∀ w ∈ c.lookup p.1, merge caps (merge caps p.2 u) w = merge caps p.2 (merge caps u w)) :
    mergeProperties caps (mergeProperties caps a b) c
      = mergeProperties caps a (mergeProperties caps b c) := by
  have hshared : mergeShared caps (mergeShared caps a b) c
      = mergeShared caps a (mergeProperties caps b c) := by
    rw [mergeShared_eq_map, mergeShared_eq_map, mergeShared_eq_map, List.map_map]
    apply List.map_congr_left
    intro p hp
    have hitems := mergeItems_assoc (a := some p.2) (by
      rintro t ⟨⟩
      exact h p hp)
    rw [mergeItems_some, mergeItems_some, mergeItems_some, ← lookup_mergeProperties] at hitems
    exact congrArg (Prod.mk p.1) (Option.some.inj hitems)
  calc mergeProperties caps (mergeProperties caps a b) c
      = mergeShared caps (mergeShared caps a b ++ newIn a b) c
          ++ newIn (mergeProperties caps a b) c := rfl
    _ = mergeShared caps a (mergeProperties caps b c)
          ++ (mergeShared caps (newIn a b) c ++ newIn a (newIn b c)) := by
        rw [mergeShared_append, hshared, newIn_mergeProperties, List.append_assoc]
    _ = mergeShared caps a (mergeProperties caps b c)
          ++ newIn a (mergeShared caps b c ++ newIn b c) := by
        rw [← newIn_mergeShared]
        simp only [newIn, List.filter_append]
    _ = mergeProperties caps a (mergeProperties caps b c) := rfl

/-! ### trees -/

theorem merge_assoc (he : 0 ≤ caps.examples) {a b c : Tree} (ha : a.Ordered) (hb : b.Ordered)
    (hc : c.Ordered) : merge caps (merge caps a b) c = merge caps a (merge caps b c) := by
  -- on the first tree: where it has no subtree, either side merges the other two
  induction ha generalizing b c with
  | @intro a here properties items ihp ihi =>
    have hp : mergeProperties caps (mergeProperties caps a.properties b.properties) c.properties
        = mergeProperties caps a.properties (mergeProperties caps b.properties c.properties) :=
      mergeProperties_assoc fun p hp u hu w hw => ihp p hp
        (hb.properties _ (mem_of_lookup hu)) (hc.properties _ (mem_of_lookup hw))
    have hi : mergeItems caps (mergeItems caps a.items b.items) c.items
        = mergeItems caps a.items (mergeItems caps b.items c.items) :=
      mergeItems_assoc fun t ht u hu w hw => ihi t ht (hb.items u hu) (hc.items w hw)
    rw [merge_eq, merge_eq, merge_eq, merge_eq]
    rw [Evidence.merge_assoc he here hb.here hc.here, hp, hi]

theorem mergeProperties_nil (a : List (String × Tree)) : mergeProperties caps a [] = a := by
  rw [mergeProperties, mergeShared_eq_map]
  exact (List.append_nil _).trans (List.map_id a)

theorem nil_mergeProperties (a : List (String × Tree)) : mergeProperties caps [] a = a :=
  List.filter_eq_self.mpr fun _ _ => rfl

theorem merge_fresh {t : Tree} (h : t.here.Within caps) : merge caps t fresh = t := by
  obtain ⟨here, properties, items⟩ := t
  have hhere : here.merge caps fresh.here = here := h.merge_empty
  have hp : mergeProperties caps properties fresh.properties = properties :=
    mergeProperties_nil properties
  have hi : mergeItems caps items fresh.items = items := mergeItems_none caps items
  rw [merge_eq, hhere, hp, hi]

theorem fresh_merge {t : Tree} (h : t.here.Within caps) : merge caps fresh t = t := by
  obtain ⟨here, properties, items⟩ := t
  have hhere : fresh.here.merge caps here = here := h.empty_merge
  have hp : mergeProperties caps fresh.properties properties = properties :=
    nil_mergeProperties properties
  rw [merge_eq, hhere, hp]
  rfl

/-- the grouping of merges does not matter, and a fresh tree is neutral -/
theorem merge_monoid_laws {caps : Caps} (he : 0 ≤ caps.examples) :
    (∀ a b c : Tree, a.Ordered → b.Ordered → c.Ordered →
        merge caps (merge caps a b) c = merge caps a (merge caps b c))
      ∧ ∀ t : Tree, t.here.Within caps → merge caps fresh t = t ∧ merge caps t fresh = t :=
  ⟨fun _ _ _ ha hb hc => merge_assoc he ha hb hc, fun _ ht => ⟨fresh_merge ht, merge_fresh ht⟩⟩

/-- one and a half -/
def threeHalves : Number := .float ⟨false, 1023, 0x8000000000000⟩

/-- more is kept here than caps of one distinct value and one example allow -/
def crowded : Tree :=
  let here : Evidence :=
    { (∅ : Evidence) with
      numbers := ⟨some (.int 0), some threeHalves⟩
      distinct := ⟨.ofList [(Scalar.num (.int 0)).candidate, (Scalar.str "x").candidate], false⟩
      examples := [.int 0, .str "x"] }
  ⟨here, [("k", fresh)], none⟩

/-- a candidate was left behind by an overflow -/
def leftover : Tree :=
  let here : Evidence :=
    { (∅ : Evidence) with
      numbers := .point (.inf true)
      distinct := ⟨.singleton (Scalar.num (.inf true)).candidate, true⟩ }
  ⟨here, [("l", fresh), ("k", fresh)], some fresh⟩

theorem merge_monoid_laws_crowded :
    merge ⟨1, 1⟩ (merge ⟨1, 1⟩ crowded leftover) crowded
        = merge ⟨1, 1⟩ crowded (merge ⟨1, 1⟩ leftover crowded)
      ∧ merge ⟨2, 2⟩ fresh crowded = crowded ∧ merge ⟨2, 2⟩ crowded fresh = crowded := by
  have hcrowded : crowded.Ordered :=
    .intro (by decide) (List.forall_mem_singleton.mpr Ordered.fresh) nofun
  have hleftover : leftover.Ordered := by
    refine .intro (by decide) (List.forall_mem_cons.mpr ⟨Ordered.fresh, ?_⟩) ?_
    · exact List.forall_mem_singleton.mpr Ordered.fresh
    · rintro u ⟨⟩
      exact Ordered.fresh
  have hwithin : crowded.here.Within ⟨2, 2⟩ := ⟨⟨by decide, nofun⟩, by decide⟩
  have he : 0 ≤ (⟨1, 1⟩ : Caps).examples := by decide
  have he' : 0 ≤ (⟨2, 2⟩ : Caps).examples := by decide
  exact ⟨(merge_monoid_laws he).1 _ _ _ hcrowded hleftover hcrowded,
    (merge_monoid_laws he').2 _ hwithin⟩

end Tree
end JsonShape
