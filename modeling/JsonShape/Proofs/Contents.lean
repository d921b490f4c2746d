import JsonShape.Proofs.Records
import JsonShape.Proofs.Types

/-!
# What the tree of samples holds

The tree of samples has a subtree at each position at which there are values, and at no other.  What
is written there says of these values exactly what each of its fields is meant to say: which tags
they have, the least and the greatest of their numbers, lengths and sizes, how many distinct ones
there are and which, as far as they are kept, and the first examples.

* `Evidence.gather_contents`  gathered evidence says of values what they are, field by field;
* `Tree.Reflects.at?_concat`  below the root, what is found at a position is reflected there;
* `Tree.fold_contents`        the tree of samples says at every position what the values there are.
-/

namespace JsonShape
open Std

/-! ### positions -/

/-- how often a position was present if so many values were found there; nothing holds the root -/
def presenceAt (p : Position) (n : Nat) : Int := p.getLast?.elim 0 fun s => s.presence n

/-! ### what is held of a list -/

/-- the first in the order `R` of the members of a list, or nothing where there are none -/
def IsForemost {α : Type} (R : α → α → Prop) (l : List α) : Option α → Prop
  | none => l = []
  | some m => m ∈ l ∧ ∀ a ∈ l, ¬ R a m

theorem isForemost_foremostOf {α : Type} {R : α → α → Prop} [DecidableRel R] {P : α → Prop}
    (h : WeakOn R P) {l : List α} (hl : ∀ a ∈ l, P a) : IsForemost R l (foremostOf R l) := by
  cases hf : foremostOf R l with
  | none => exact (foremostOf_eq_none h hl).mp hf
  | some m => exact ⟨foremostOf_mem hf, not_lt_foremostOf h hl hf⟩

/-- the least and the greatest member of a list, both absent where there are none -/
structure Bounds.Spans {α : Type} [LT α] (b : Bounds α) (l : List α) : Prop where
  least : IsForemost (fun x y => x < y) l b.least
  greatest : IsForemost (fun x y => y < x) l b.greatest

theorem Bounds.ofList_spans {α : Type} [LT α] [DecidableLT α] {P : α → Prop}
    (h : WeakOn (fun a b : α => a < b) P) {l : List α} (hl : ∀ a ∈ l, P a) :
    (ofList l).Spans l := by
  rw [ofList_eq]
  exact ⟨isForemost_foremostOf h hl, isForemost_foremostOf h.opposite hl⟩

/-- the members of a list, unless more than the cap of them are distinct -/
structure Distinct.Counts (cap : Int) (d : Distinct) (l : List Candidate) : Prop where
  overflow : d.overflow = true ↔ cap < (l.eraseDups.length : Int)
  values : ∀ c, c ∈ d.values.toList ↔ d.overflow = false ∧ c ∈ l

theorem OrdSet.size_ofList {α : Type} [Ord α] [TransOrd α] [DecidableEq α] {l : List α}
    (hl : ∀ a ∈ l, ∀ b ∈ l, compare a b = .eq → a = b) :
    (ofList l).size = l.eraseDups.length := by
  have hmem : ∀ a, a ∈ (ofList l).toList ↔ a ∈ l.eraseDups := by
    intro a
    rw [mem_ofList_iff hl, List.mem_eraseDups]
  have hperm : (ofList l).toList.Perm l.eraseDups :=
    (List.perm_ext_iff_of_nodup (nodup_of_ascending (ofList l).ascending)
      (nodup_eraseDups l)).mpr hmem
  exact hperm.length_eq

theorem Distinct.capped_counts {cap : Int} {l : List Candidate}
    (hl : ∀ a ∈ l, ∀ b ∈ l, compare a b = .eq → a = b) :
    (capped cap (OrdSet.ofList l)).Counts cap l := by
  have hsize := OrdSet.size_ofList hl
  by_cases h : ((OrdSet.ofList l).size : Int) ≤ cap
  · rw [capped_of_le h]
    rw [hsize] at h
    refine ⟨⟨fun ho => absurd ho Bool.false_ne_true, fun ho => absurd ho (by omega)⟩, fun c => ?_⟩
    rw [OrdSet.mem_ofList_iff hl]
    exact (and_iff_right rfl).symm
  · rw [capped_of_lt (Int.not_le.mp h)]
    rw [hsize] at h
    refine ⟨⟨fun _ => by omega, fun _ => rfl⟩, fun c => ⟨fun hc => ?_, fun hc => ?_⟩⟩
    · cases hc
    · exact absurd hc.1.symm Bool.false_ne_true

theorem not_seen_number {values : List Value} :
    ¬ Seen values .number ↔ ∀ n, .num n ∈ values → n.isWhole = true := by
  constructor
  · intro h n hn
    cases hw : n.isWhole with
    | true => rfl
    | false => exact absurd ⟨.num n, hn, by simp [Value.tag?, hw]⟩ h
  · intro h hseen
    obtain ⟨v, hv, ht⟩ := hseen
    obtain ⟨n, hn⟩ := Value.exists_number.mpr (Or.inr ht)
    cases v with
    | num n =>
      rw [Value.tag?, h n hv] at ht
      exact absurd ht (by decide)
    | _ => cases hn

/-! ### evidence -/

namespace Evidence
variable {caps : Caps} {values : List Value}

/-- what evidence says of values, field by field: their tags, bounds and counts, the distinct
scalars, the outcomes of looking for formats, and the first examples -/
structure Contents (caps : Caps) (values : List Value) (e : Evidence) : Prop where
  types : ∀ tag, tag ∈ e.types.toList ↔ ∃ v ∈ values, v.tag? = some tag
  integerOnly : e.integerOnly = true ↔ ∀ n, .num n ∈ values → n.isWhole = true
  numbers : e.numbers.Spans (values.filterMap Value.normal?)
  lengths : e.lengths.Spans (values.filterMap Value.length?)
  sizes : e.sizes.Spans (values.filterMap Value.size?)
  itemCount : e.itemCount = (valuesBelow .element values).length
  distinct : e.distinct.Counts caps.distinct (values.filterMap Value.candidate?)
  formats : ∀ outcome, outcome ∈ e.formats.toList ↔ ∃ v ∈ values, v.outcome? = some outcome
  examples : e.examples = (values.filterMap Value.example?).take caps.examples.toNat

theorem gather_contents (hd : 0 ≤ caps.distinct) (he : 0 ≤ caps.examples)
    (hr : ∀ v ∈ values, v.Regular) : (gather caps values).Contents caps values where
  types _ := mem_types
  integerOnly := integerOnly_iff.trans not_seen_number
  numbers := by
    rw [gather_numbers]
    exact Bounds.ofList_spans Number.weakOn_lt (normal?_not_nan hr)
  lengths := by
    rw [gather_lengths]
    exact Bounds.ofList_spans weakOn_int_lt fun _ _ => trivial
  sizes := by
    rw [gather_sizes]
    exact Bounds.ofList_spans weakOn_int_lt fun _ _ => trivial
  itemCount := gather_itemCount values
  distinct := by
    rw [gather_distinct hd]
    exact Distinct.capped_counts Candidate.eq_of_level_of_values
  formats outcome := by
    rw [gather_formats, OrdSet.mem_ofList, List.mem_filterMap]
  examples := gather_examples he values

theorem Contents.withPresence {e : Evidence} (h : e.Contents caps values) (n : Int) :
    (e.withPresence n).Contents caps values :=
  ⟨h.types, h.integerOnly, h.numbers, h.lengths, h.sizes, h.itemCount, h.distinct, h.formats,
    h.examples⟩

end Evidence

/-! ### trees -/

namespace Tree
variable {caps : Caps}

/-- what a tree says at its root of the values at a position: the evidence of them, how often the
position was present, and their keys in the order in which they have them first -/
structure Contents (caps : Caps) (p : Position) (values : List Value) (t : Tree) : Prop where
  here : t.here.Contents caps values
  presence : t.here.presence = presenceAt p values.length
  keys : t.properties.map Prod.fst = (keysAmong values).eraseDups

namespace Reflects

/-- whatever is found at a position below the root is reflected there -/
theorem at?_concat {A : Account} {values : List Value} {t : Tree} (h : Reflects A values t)
    (p : Position) (s : Step) :
    ReflectsBelow A s (valuesAt (p ++ [s]) values) (t.at? (p ++ [s])) := by
  -- the last step says how the values are counted, the steps before it only lead there
  induction p generalizing values t with
  | nil =>
    have hone : t.at? [s] = t.step? s := by
      rw [at?_cons]
      exact Option.bind_fun_some (t.step? s)
    rw [List.nil_append, hone]
    exact h.inner s
  | cons x p ih =>
    rw [List.cons_append, at?_cons]
    have hx := h.inner x
    cases hu : t.step? x with
    | none =>
      rw [hu] at hx
      have hnil : valuesBelow x values = [] := hx
      show valuesAt (p ++ [s]) (valuesBelow x values) = []
      rw [hnil, valuesAt_nil_values]
    | some u =>
      rw [hu] at hx
      exact ih hx.2.2

/-- a tree at a position reflects the values there, and there are some -/
theorem at? {A : Account} {values : List Value} {t u : Tree} (h : Reflects A values t)
    (hne : values ≠ []) {p : Position} (hu : t.at? p = some u) :
    Reflects A (valuesAt p values) u ∧ valuesAt p values ≠ [] := by
  induction p generalizing values t with
  | nil =>
    cases hu
    exact ⟨h, hne⟩
  | cons x p ih =>
    rw [at?_cons] at hu
    obtain ⟨w, hw, hu⟩ := Option.bind_eq_some_iff.mp hu
    have hx := h.inner x
    rw [hw] at hx
    exact ih hx.2.2 hx.1 hu

/-- a tree that records values holds what they are -/
theorem contents (hd : 0 ≤ caps.distinct) (he : 0 ≤ caps.examples) {values : List Value} {t : Tree}
    (h : Reflects (.gathered caps) values t) (hr : ∀ v ∈ values, v.Regular) {p : Position}
    (hp : t.here.presence = presenceAt p values.length) : Contents caps p values t where
  here := by
    rw [Records.here h]
    exact (Evidence.gather_contents hd he hr).withPresence t.here.presence
  presence := hp
  keys := h.keys

end Reflects

/-- the tree of samples has a subtree exactly where there are values, and holds there what they
are -/
theorem fold_contents {caps : Caps} (hd : 0 ≤ caps.distinct) (he : 0 ≤ caps.examples) {limit : Nat}
    {samples : List Value} (hne : samples ≠ []) (hs : ∀ v ∈ samples, v.Sample limit) :
    ∃ t, fold caps limit samples = .ok (some t) ∧ ∀ p : Position,
      ((t.at? p).isSome = true ↔ valuesAt p samples ≠ [])
        ∧ ∀ u, t.at? p = some u → u.Contents caps p (valuesAt p samples) := by
  have hl : ((min limit Value.assuredDepth : Nat) : Int) ≤ limit := by omega
  have hr : ∀ v ∈ samples, v.Regular := fun v hv => (hs v hv).regular
  obtain ⟨t, hfold, ht, hroot⟩ := records_fold hl hd he hne hs
  refine ⟨t, hfold, fun p => ?_⟩
  rcases List.eq_nil_or_concat p with rfl | ⟨p, s, hp⟩
  · refine ⟨⟨fun _ => hne, fun _ => rfl⟩, ?_⟩
    rintro u ⟨⟩
    exact ht.contents hd he hr hroot
  · rw [List.concat_eq_append] at hp
    subst hp
    have hbelow := ht.at?_concat p s
    cases hu : t.at? (p ++ [s]) with
    | none =>
      rw [hu] at hbelow
      have hnil : valuesAt (p ++ [s]) samples = [] := hbelow
      rw [hnil]
      exact ⟨⟨fun h => absurd h Bool.false_ne_true, fun h => absurd rfl h⟩, nofun⟩
    | some u =>
      rw [hu] at hbelow
      obtain ⟨hsome, hpresence, hrec⟩ := hbelow
      refine ⟨⟨fun _ => hsome, fun _ => rfl⟩, ?_⟩
      rintro w ⟨⟩
      refine hrec.contents hd he (forall_valuesAt Value.Regular.follow _ hr) ?_
      rw [hpresence, presenceAt, List.getLast?_concat]
      rfl

/-- objects that agree neither in their keys nor in what they hold there, and an empty list -/
def ragged : List Value :=
  [.obj [("b", .arr [.int 2, .str "x"]), ("a", .null)], .arr [],
    .obj [("a", .bool true), ("b", .arr [.num threeHalves, .arr []])]]

theorem fold_contents_ragged : ∃ t u, fold ⟨1, 2⟩ 2 ragged = .ok (some t)
    ∧ t.at? [.element] = none ∧ t.at? [.key "b", .element] = some u
    ∧ u.Contents ⟨1, 2⟩ [.key "b", .element]
      [.int 2, .str "x", .num threeHalves, .arr []] := by
  have hd : 0 ≤ (⟨1, 2⟩ : Caps).distinct := by decide
  have hne : ragged ≠ [] := List.cons_ne_nil _ _
  have hs : ∀ v ∈ ragged, v.Sample 2 := by decide
  obtain ⟨t, hfold, h⟩ := fold_contents hd (by decide) hne hs
  obtain ⟨u, hu⟩ := Option.isSome_iff_exists.mp
    ((h [.key "b", .element]).1.mpr (List.cons_ne_nil _ _))
  have hnone : ¬ (t.at? [.element]).isSome = true := fun hsome => (h [.element]).1.mp hsome rfl
  exact ⟨t, u, hfold, Option.not_isSome_iff_eq_none.mp hnone, hu, (h _).2 u hu⟩

end Tree
end JsonShape
