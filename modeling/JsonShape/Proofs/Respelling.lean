import Mathlib.Data.List.Forall2
import JsonShape.Proofs.Rewriting

/-!
# Values spelled otherwise

One value can be spelled in several ways: the keys of an object may stand in another order, an array
may be a list or a tuple, and a whole number may be written as an integer or as a double.  Nothing
but examples can tell the difference.  Evidence sees the same of both spellings, and one step down
there are, in the same order, spellings of the same values; only which key was seen first may
differ, and schemas are written with sorted keys.

Examples keep how a number was written.  So schemas are compared after their examples have been put
in normal form; where no number was replaced, they are the same as they are.

* `Value.Respelled.alike`            evidence sees the same of both spellings;
* `Value.Respelled.follow`           one step down there are spellings of the same values;
* `Keywords.ofValues_respelled`      the keywords are the same, but for examples;
* `indistinct_respelled`             so they are at every position below;
* `infer_respelled`                  so are inferred schemas.
-/

namespace JsonShape
open Std

/-- of one value, like an integer and a whole double -/
def Number.Level (m n : Number) : Prop := compare m n = .eq

namespace Value

/-- two spellings of a value: the numbers are the `same`, arrays are lists or tuples, and objects
have the same keys in any order -/
inductive Respelled (same : Number → Number → Prop) : Value → Value → Prop
  | null : Respelled same null null
  | bool (b : Bool) : Respelled same (bool b) (bool b)
  | num {m n : Number} (h : same m n) : Respelled same (num m) (num n)
  | str (s : String) : Respelled same (str s) (str s)
  | array {v w : Value} {xs ys : List Value} (left : v = arr xs ∨ v = tuple xs)
      (right : w = arr ys ∨ w = tuple ys) (h : List.Forall₂ (Respelled same) xs ys) :
      Respelled same v w
  | obj {ms ns : List (String × Value)} (keys : (ms.map Prod.fst).Perm (ns.map Prod.fst))
      (h : ∀ k v w, ms.lookup k = some v → ns.lookup k = some w → Respelled same v w) :
      Respelled same (obj ms) (obj ns)

/-- what evidence sees of two values, examples aside, is the same -/
structure Alike (v w : Value) : Prop where
  tag : v.tag? = w.tag?
  normal : v.normal? = w.normal?
  length : v.length? = w.length?
  size : v.size? = w.size?
  outcome : v.outcome? = w.outcome?
  candidate : v.candidate? = w.candidate?

/-- a number in normal form; all else as it is -/
def settled : Value → Value
  | num n => num n.normal
  | v => v

theorem sortDepth_settled (v : Value) : v.settled.sortDepth = v.sortDepth := by
  cases v <;> rfl

end Value

theorem Number.isWhole_normal (n : Number) : n.normal.isWhole = n.isWhole := by
  cases n with
  | float f =>
    cases h : f.isWhole with
    | true =>
      rw [normal, h, if_pos rfl]
      exact h.symm
    | false => rw [normal, h, if_neg Bool.false_ne_true]
  | _ => rfl

/-! ### two spellings -/

namespace Value.Respelled
variable {same : Number → Number → Prop} {v w : Value}

/-- evidence sees the same of both spellings -/
theorem alike (hsame : ∀ {m n}, same m n → m.Level n) (h : Respelled same v w) : v.Alike w := by
  cases h with
  | null => exact ⟨rfl, rfl, rfl, rfl, rfl, rfl⟩
  | bool b => exact ⟨rfl, rfl, rfl, rfl, rfl, rfl⟩
  | @num m n h =>
    have hnormal : m.normal = n.normal := Number.normal_eq_normal (hsame h)
    have hwhole : m.isWhole = n.isWhole := by
      rw [← m.isWhole_normal, hnormal, n.isWhole_normal]
    refine ⟨?_, congrArg some hnormal, rfl, rfl, rfl, ?_⟩
    · rw [tag?, tag?, hwhole]
    · show some (Scalar.num m.normal).candidate = some (Scalar.num n.normal).candidate
      rw [hnormal]
  | str s => exact ⟨rfl, rfl, rfl, rfl, rfl, rfl⟩
  | @array v w xs ys left right h =>
    have hsize : (xs.length : Int) = ys.length := congrArg _ h.length_eq
    rcases left with rfl | rfl <;> rcases right with rfl | rfl <;>
      exact ⟨rfl, rfl, rfl, congrArg some hsize, rfl, rfl⟩
  | obj keys h => exact ⟨rfl, rfl, rfl, rfl, rfl, rfl⟩

/-- one step down there are spellings of the same values, in the same order -/
theorem follow (h : Respelled same v w) (s : Step) :
    List.Forall₂ (Respelled same) (v.follow s) (w.follow s) := by
  cases h with
  | @array v w xs ys left right h =>
    cases s with
    | key k => rcases left with rfl | rfl <;> rcases right with rfl | rfl <;> exact .nil
    | element => rcases left with rfl | rfl <;> rcases right with rfl | rfl <;> exact h
  | @obj ms ns keys h =>
    cases s with
    | element => exact .nil
    | key k =>
      show List.Forall₂ _ (ms.lookup k).toList (ns.lookup k).toList
      have hnone : ms.lookup k = none ↔ ns.lookup k = none := by
        rw [lookup_eq_none, lookup_eq_none, keys.mem_iff]
      cases hm : ms.lookup k with
      | none =>
        rw [hnone.mp hm]
        exact .nil
      | some x =>
        cases hn : ns.lookup k with
        | none =>
          rw [hnone.mpr hn] at hm
          cases hm
        | some y => exact .cons (h k x y hm hn) .nil
  | _ => cases s <;> exact .nil

/-- what is kept as an example is the same after numbers have been rewritten alike -/
theorem example?_map {f : Value → Value} (hf : ∀ {m n}, same m n → f (.num m) = f (.num n))
    (h : Respelled same v w) :
    v.example?.map (fun x => f x.sortKeys) = w.example?.map fun x => f x.sortKeys := by
  cases h with
  | num h => exact congrArg some (hf h)
  | array left right h => rcases left with rfl | rfl <;> rcases right with rfl | rfl <;> rfl
  | _ => rfl

/-- what is found under a key in rows that are related one by one is related -/
theorem related_of_lookup {R : Value → Value → Prop} {l m : List (String × Value)}
    (h : List.Forall₂ (fun p q => p.1 = q.1 ∧ R p.2 q.2) l m) {k : String}
    (hv : l.lookup k = some v) (hw : m.lookup k = some w) : R v w := by
  induction h with
  | nil => cases hv
  | @cons p q r s hpq _ ih =>
    rw [List.lookup_cons] at hv hw
    rw [← hpq.1] at hw
    cases hk : k == p.1 with
    | true =>
      rw [hk] at hv hw
      cases hv
      cases hw
      exact hpq.2
    | false =>
      rw [hk] at hv hw
      exact ih hv hw

/-- objects are two spellings of one if their members are, one by one, after those of the second
have been put in another order -/
theorem obj_of_perm {ms ls ns : List (String × Value)} (hns : (ns.map Prod.fst).Nodup)
    (hms : List.Forall₂ (fun p q => p.1 = q.1 ∧ Respelled same p.2 q.2) ms ls)
    (hperm : ls.Perm ns) : Respelled same (Value.obj ms) (Value.obj ns) := by
  have hls : (ls.map Prod.fst).Nodup := (hperm.map Prod.fst).nodup_iff.mpr hns
  have hkeys : ms.map Prod.fst = ls.map Prod.fst := by
    rw [← List.forall₂_eq_eq_eq, List.forall₂_map_left_iff, List.forall₂_map_right_iff]
    exact hms.imp fun _ _ h => h.1
  refine .obj ?_ fun k v w hv hw => ?_
  · rw [hkeys]
    exact hperm.map Prod.fst
  · have hw' : ls.lookup k = some w := by
      rw [lookup_iff_mem hls, hperm.mem_iff, ← lookup_iff_mem hns]
      exact hw
    exact related_of_lookup hms hv hw'

end Value.Respelled

/-! ### lists of values -/

theorem filterMap_eq_of_forall₂ {α β γ : Type} {R : α → β → Prop} {f : α → Option γ}
    {g : β → Option γ} (hfg : ∀ a b, R a b → f a = g b) {l : List α} {m : List β}
    (h : List.Forall₂ R l m) : l.filterMap f = m.filterMap g := by
  induction h with
  | nil => rfl
  | cons hab _ ih => rw [List.filterMap_cons, List.filterMap_cons, hfg _ _ hab, ih]

section
variable {same : Number → Number → Prop} {vs ws : List Value}

theorem valuesBelow_respelled (h : List.Forall₂ (Value.Respelled same) vs ws) (s : Step) :
    List.Forall₂ (Value.Respelled same) (valuesBelow s vs) (valuesBelow s ws) :=
  List.rel_flatMap h fun _ _ hvw => hvw.follow s

theorem Policy.asks_respelled (policy : Policy) (h : List.Forall₂ (Value.Respelled same) vs ws)
    (key : String) : policy.Asks vs key ↔ policy.Asks ws key := by
  have hlength := (valuesBelow_respelled h (.key key)).length_eq
  rw [← requires_iff, ← requires_iff, h.length_eq, hlength, ← List.length_pos_iff,
    ← List.length_pos_iff, hlength]

namespace Evidence
variable {caps : Caps}

/-- the evidence of both spellings is the same, but for examples -/
theorem gather_respelled (hd : 0 ≤ caps.distinct) (hsame : ∀ {m n}, same m n → m.Level n)
    (h : List.Forall₂ (Value.Respelled same) vs ws) :
    gather caps vs = { gather caps ws with examples := (gather caps vs).examples } := by
  have htags := filterMap_eq_of_forall₂ (fun _ _ hvw => (hvw.alike hsame).tag) h
  apply Evidence.ext
  · show (gather caps vs).types = (gather caps ws).types
    rw [gather_types, gather_types, htags]
  · show (gather caps vs).integerOnly = (gather caps ws).integerOnly
    rw [gather_integerOnly, gather_integerOnly, htags]
  · show (gather caps vs).numbers = (gather caps ws).numbers
    rw [gather_numbers, gather_numbers,
      filterMap_eq_of_forall₂ (fun _ _ hvw => (hvw.alike hsame).normal) h]
  · show (gather caps vs).lengths = (gather caps ws).lengths
    rw [gather_lengths, gather_lengths,
      filterMap_eq_of_forall₂ (fun _ _ hvw => (hvw.alike hsame).length) h]
  · show (gather caps vs).sizes = (gather caps ws).sizes
    rw [gather_sizes, gather_sizes,
      filterMap_eq_of_forall₂ (fun _ _ hvw => (hvw.alike hsame).size) h]
  · show (gather caps vs).itemCount = (gather caps ws).itemCount
    rw [gather_itemCount, gather_itemCount]
    exact congrArg Int.ofNat (valuesBelow_respelled h .element).length_eq
  · show (gather caps vs).distinct = (gather caps ws).distinct
    rw [gather_distinct hd, gather_distinct hd,
      filterMap_eq_of_forall₂ (fun _ _ hvw => (hvw.alike hsame).candidate) h]
  · show (gather caps vs).formats = (gather caps ws).formats
    rw [gather_formats, gather_formats,
      filterMap_eq_of_forall₂ (fun _ _ hvw => (hvw.alike hsame).outcome) h]
  · rfl
  · show (gather caps vs).presence = (gather caps ws).presence
    rw [gather_presence, gather_presence]

/-- the examples of both spellings are the same after numbers have been rewritten alike -/
theorem examples_respelled (he : 0 ≤ caps.examples) {f : Value → Value}
    (hf : ∀ {m n}, same m n → f (.num m) = f (.num n))
    (h : List.Forall₂ (Value.Respelled same) vs ws) :
    (gather caps vs).examples.map (fun x => f x.sortKeys)
      = (gather caps ws).examples.map fun x => f x.sortKeys := by
  rw [gather_examples he, gather_examples he, List.map_take, List.map_take, List.map_filterMap,
    List.map_filterMap, filterMap_eq_of_forall₂ (fun _ _ hvw => hvw.example?_map hf) h]

end Evidence

namespace Keywords
variable {o : Options}

/-- the keywords of both spellings are the same, but for examples -/
theorem ofValues_respelled (hsame : ∀ {m n}, same m n → m.Level n)
    (h : List.Forall₂ (Value.Respelled same) vs ws) :
    ofValues o vs = { ofValues o ws with examples := (ofValues o vs).examples } := by
  have hgather : Evidence.gather o.caps vs = _ :=
    Evidence.gather_respelled (Int.natCast_nonneg _) hsame h
  have hkeys := Policy.keysOf_eq (o.requiredPolicy.asks_respelled h)
  unfold ofValues
  rw [hkeys, h.length_eq, hgather]
  rfl

theorem examples_respelled {f : Value → Value}
    (hf : ∀ {m n}, same m n → f (.num m) = f (.num n))
    (h : List.Forall₂ (Value.Respelled same) vs ws) :
    (ofValues o vs).examples.map (fun x => f x.sortKeys)
      = (ofValues o ws).examples.map fun x => f x.sortKeys := by
  show (if o.examples.isTruthy then (Evidence.gather o.caps vs).examples else []).map _
    = (if o.examples.isTruthy then (Evidence.gather o.caps ws).examples else []).map _
  split
  · exact Evidence.examples_respelled (Int.natCast_nonneg _) hf h
  · rfl

end Keywords
end

/-- schemas do not tell spellings apart, but for examples that `f` does not make the same -/
theorem indistinct_respelled (o : Options) {same : Number → Number → Prop} {f : Value → Value}
    (hsame : ∀ {m n}, same m n → m.Level n) (hf : ∀ {m n}, same m n → f (.num m) = f (.num n)) :
    Indistinct o f (List.Forall₂ (Value.Respelled same)) where
  below := valuesBelow_respelled
  empty h := by rw [← List.length_eq_zero_iff, ← List.length_eq_zero_iff, h.length_eq]
  describes h x := by
    rw [Evidence.gather_respelled (Int.natCast_nonneg _) hsame h]
    cases x <;> rfl
  own := Keywords.ofValues_respelled hsame
  examples := Keywords.examples_respelled hf

/-! ### samples -/

/-- there is an answer for no samples as well -/
theorem Inference.returns_nil (m : Machine) (o : Options) :
    (infer m o []).Returns m o fun _ => True := by
  have hfold : fold o.caps (min o.maxDepth m.reach : Nat) [] = .ok none := fold_nil _ _
  have hdepth := sortDepth_of_fold (o := o) (List.forall_mem_nil _) hfold
  exact returns_of_answer (answer_of_fold (Machine.fold_of_ok hfold)) hdepth fun _ => trivial

/-- samples spelled otherwise have the same schema once the numbers among its examples have been put
in normal form, so that all other keywords are the same as they are; and the very same if no number
is written otherwise -/
theorem infer_respelled (m : Machine) {o : Options} {xs ys : List Value}
    (hxs : ∀ v ∈ xs, v.Sample o.maxDepth) (hys : ∀ v ∈ ys, v.Sample o.maxDepth)
    (h : List.Forall₂ (Value.Respelled Number.Level) xs ys) :
    (infer m o xs).Returns m o fun schema => ∃ other, (infer m o ys).answer = .ok other
      ∧ schema.mapExamples Value.settled = other.mapExamples Value.settled
      ∧ (∀ p word, word ∉ ["properties", "items", "examples"] →
        (schema.withoutHeading.fragment? p).bind (Value.member? word)
          = (other.withoutHeading.fragment? p).bind (Value.member? word))
      ∧ (List.Forall₂ (Value.Respelled Eq) xs ys → other = schema) := by
  by_cases hne : xs = []
  · subst hne
    rw [List.forall₂_nil_left_iff.mp h]
    refine (Inference.returns_nil m o).imp (fun ha => ?_) id
    obtain ⟨schema, hschema, _⟩ := ha
    exact ⟨schema, hschema, schema, hschema, rfl, fun _ _ _ => rfl, fun _ => rfl⟩
  · have hne' : ys ≠ [] := by
      rintro rfl
      exact hne (List.forall₂_nil_right_iff.mp h)
    have hlevel : ∀ {m n : Number}, m.Level n → Value.settled (.num m) = Value.settled (.num n) :=
      fun hmn => congrArg Value.num (Number.normal_eq_normal hmn)
    have hexact : ∀ {m n : Number}, m = n → m.Level n := by
      rintro m _ rfl
      exact ReflOrd.compare_self
    have hR := indistinct_respelled o id hlevel
    obtain ⟨s, hs, hdepth, has⟩ := Inference.answer_infer (m := m) hne hxs
    obtain ⟨t, ht, _, hat⟩ := Inference.answer_infer (m := m) hne' hys
    have hlevels := hs.sortDepth_eq Value.sortDepth_settled hR ht h o.heading
    refine Inference.returns_of_answer has hdepth fun hroom => ?_
    refine ⟨_, hat.trans (Machine.answer_of_le (hlevels ▸ hroom)),
      hs.mapExamples_eq hR ht h o.heading, fun p word hword => ?_, fun hsame => ?_⟩
    · rw [Schema.withoutHeading_writtenAfter o.heading_names,
        Schema.withoutHeading_writtenAfter o.heading_names]
      exact Value.keyword_eq_of_mapExamples (hs.mapExamples_eq hR ht h []) p hword
    · have hR' := indistinct_respelled o (f := id) hexact fun hmn => congrArg Value.num hmn
      exact (hs.written_eq hR' ht hsame o.heading).symm

/-- two, written as a double, and minus zero in a tuple -/
def doubles : List Value :=
  [.obj [("size", .num (.ofBits 0x4000000000000000 0)),
    ("tags", .tuple [.str "x", .num (.ofBits 0x8000000000000000 0)])]]

/-- the same numbers as integers, with the keys the other way round -/
def integers : List Value :=
  [.obj [("tags", .arr [.str "x", .int 0]), ("size", .int 2)]]

theorem infer_respelled_doubles : ∃ schema other,
    (infer .least .default doubles).answer = .ok schema
      ∧ (infer .least .default integers).answer = .ok other
      ∧ schema.mapExamples Value.settled = other.mapExamples Value.settled := by
  have htwo : Number.Level (.ofBits 0x4000000000000000 0) (.int 2) := by
    unfold Number.Level
    decide +kernel
  have hzero : Number.Level (.ofBits 0x8000000000000000 0) (.int 0) := by
    unfold Number.Level
    decide +kernel
  have h : List.Forall₂ (Value.Respelled Number.Level) doubles integers := by
    refine .cons (.obj_of_perm (by decide) ?_ (List.Perm.swap _ _ _)) .nil
    refine .cons ⟨rfl, .num htwo⟩ (.cons ⟨rfl, ?_⟩ .nil)
    exact .array (.inr rfl) (.inl rfl) (.cons (.str "x") (.cons (.num hzero) .nil))
  obtain ⟨schema, ha, other, ha', hsame, _⟩ :=
    (infer_respelled .least (o := .default) (by decide) (by decide) h).exists_of_le (by decide)
  exact ⟨schema, other, ha, ha', hsame⟩

end JsonShape
