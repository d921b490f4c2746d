import JsonShape.Proofs.Refusals

/-!
# How trees are built

A tree is built from fresh ones by observing values in it and by merging it with others that were
built, in any order and any grouping.  It is not told beforehand how deep the values may lie, and
the caps may change from one step to the next.

Whatever the steps were, there is a list of values that the tree reflects: those observed in it and
in the trees merged into it.  So what is to be shown of all trees that can be built is shown of
trees that reflect values, one position at a time.

* `Tree.Built.reflects`        a tree that was built reflects as many values as were observed;
* `Tree.Reflects.everywhere`   what holds of trees that reflect values holds at all positions.
-/

namespace JsonShape

/-- a value that is not refused lies within the limit -/
theorem Value.within_of_accepted {limit depth : Int} {v : Value}
    (h : v.firstOffence limit depth = none) : ∀ p ∈ v.parts, depth + p.1 ≤ limit := by
  intro p hp
  have hno := firstOffence_eq_none.mp h p hp
  apply Int.not_lt.mp
  intro hlt
  exact hno (Or.inl hlt)

namespace Tree

/-- how a tree came about in which so many values of `P` were observed: fresh, by an observation
that was not refused, or by a merge; the caps of each step are among those of `C` -/
inductive Built (C : Caps → Prop) (P : Value → Prop) : Nat → Tree → Prop
  | fresh : Built C P 0 fresh
  | observe {n : Nat} {t : Tree} {caps : Caps} {limit depth : Int} {v : Value}
      (before : Built C P n t) (allowed : C caps) (value : P v)
      (accepted : (observe caps limit depth v t).refusal = none) :
      Built C P (n + 1) (observe caps limit depth v t).tree
  | merge {m n : Nat} {a b : Tree} {caps : Caps}
      (left : Built C P m a) (right : Built C P n b) (allowed : C caps) :
      Built C P (m + n) (merge caps a b)

variable {A : Account} {C : Caps → Prop} {P : Value → Prop}

/-- a tree that was built reflects the values that were observed, and nothing held its root -/
theorem Built.reflects (hA : ∀ caps, C caps → A.Kept caps P) (hC : ∃ caps, C caps) {n : Nat}
    {t : Tree} (h : Built C P n t) : ∃ values : List Value, values.length = n
      ∧ (∀ v ∈ values, P v) ∧ t.Reflects A values ∧ t.here.presence = 0 := by
  induction h with
  | fresh =>
    obtain ⟨caps, hcaps⟩ := hC
    exact ⟨[], rfl, nofun, Reflects.fresh (hA caps hcaps), rfl⟩
  | @observe n t caps limit depth v before allowed value accepted ih =>
    obtain ⟨values, hlen, hP, ht, hzero⟩ := ih
    rw [observe_refusal] at accepted
    obtain ⟨_, hnext, hkept⟩ :=
      reflects_follow (hA caps allowed) value (Value.within_of_accepted accepted) ht
    refine ⟨values ++ [v], ?_, ?_, hnext, hkept.trans hzero⟩
    · rw [List.length_append, hlen]
      rfl
    · exact List.forall_mem_append.mpr ⟨hP, List.forall_mem_singleton.mpr value⟩
  | @merge m n a b caps left right allowed iha ihb =>
    obtain ⟨vs, hm, hv, ha, hza⟩ := iha
    obtain ⟨ws, hn, hw, hb, hzb⟩ := ihb
    refine ⟨vs ++ ws, ?_, ?_, ha.merge (hA caps allowed) hb hv hw, ?_⟩
    · rw [List.length_append, hm, hn]
    · exact List.forall_mem_append.mpr ⟨hv, hw⟩
    · rw [merge_mk]
      show a.here.presence + b.here.presence = 0
      omega

/-- what is asked of the caps and of the values may be less -/
theorem Built.mono {C' : Caps → Prop} {P' : Value → Prop} (hC : ∀ caps, C caps → C' caps)
    (hP : ∀ v, P v → P' v) {n : Nat} {t : Tree} (h : Built C P n t) : Built C' P' n t := by
  induction h with
  | fresh => exact .fresh
  | observe _ allowed value accepted ih => exact .observe ih (hC _ allowed) (hP _ value) accepted
  | merge _ _ allowed iha ihb => exact .merge iha ihb (hC _ allowed)

/-- objects whose keys stand in two orders, and a tuple with a list in it -/
def oneRecord : Value := .obj [("b", .arr [.int 2, .str "x"]), ("a", .null)]

def otherRecord : Value := .obj [("a", .bool true), ("b", .arr [.num threeHalves, .arr []])]

def listInTuple : Value := .tuple [.arr [.int 0], .str ""]

def tupleTree : Tree := (observe ⟨2, 1⟩ 3 1 listInTuple fresh).tree

/-- two records observed in one tree, into which that of the tuple is merged -/
def stitched : Tree :=
  merge ⟨2, 1⟩ (observe ⟨2, 1⟩ 2 0 otherRecord (observe ⟨2, 1⟩ 2 0 oneRecord fresh).tree).tree
    tupleTree

theorem Built.stitched : Built (· = ⟨2, 1⟩) Value.Regular 3 stitched := by
  have hone : Built (· = ⟨2, 1⟩) Value.Regular 1
      (Tree.observe ⟨2, 1⟩ 2 0 oneRecord Tree.fresh).tree :=
    .observe .fresh rfl (by decide) rfl
  have htuple : Built (· = ⟨2, 1⟩) Value.Regular 1 tupleTree :=
    .observe .fresh rfl (by decide) rfl
  exact .merge (.observe hone rfl (by decide) rfl) htuple rfl

namespace Reflects

/-- the tree of a key, where one is listed, is the one found there -/
theorem step?_of_mem {values : List Value} {t : Tree} (h : Reflects A values t)
    {p : String × Tree} (hp : p ∈ t.properties) : t.step? (.key p.1) = some p.2 :=
  (lookup_iff_mem h.keys_nodup).mpr hp

/-- the tree of a key reflects what is found there, something is, and it was counted -/
theorem property {values : List Value} {t : Tree} (h : Reflects A values t) {p : String × Tree}
    (hp : p ∈ t.properties) : ReflectsBelow A (.key p.1) (valuesBelow (.key p.1) values)
      (some p.2) := by
  rw [← h.step?_of_mem hp]
  exact h.inner (.key p.1)

/-- the tree of the elements reflects them, and there are some -/
theorem element {values : List Value} {t u : Tree} (h : Reflects A values t)
    (hu : t.items = some u) :
    ReflectsBelow A .element (valuesBelow .element values) (some u) := by
  rw [← hu]
  exact h.inner .element

/-- what holds of all trees that reflect values of `P` holds of the trees below them as well -/
theorem everywhere {Q : Tree → Prop}
    (hP : ∀ {s : Step} {v w : Value}, P v → w ∈ v.follow s → P w)
    (hQ : ∀ values t, (∀ v ∈ values, P v) → Reflects A values t → Q t) {values : List Value}
    {t : Tree} (h : Reflects A values t) (hv : ∀ v ∈ values, P v) : t.Everywhere Q := by
  induction h with
  | @intro values t here keys absent present counted below ih =>
    have ht : Reflects A values t := .intro here keys absent present counted below
    refine .intro (hQ values t hv ht) (fun p hp => ?_) (fun u hu => ?_)
    · exact ih (.key p.1) p.2 (ht.step?_of_mem hp) (forall_valuesBelow hP hv)
    · exact ih .element u hu (forall_valuesBelow hP hv)

end Reflects
end Tree
end JsonShape
