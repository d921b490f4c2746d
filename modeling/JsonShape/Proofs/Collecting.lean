import JsonShape.Inference
import JsonShape.Proofs.Merging

/-!
# Collecting is merging

Observing a value in a tree that holds other evidence already, and merging that tree with the tree
of the value alone, come to the same.  So the samples of a fold may as well be observed one after
the other in a single tree.

One step of either is the same at a single position.  Below it, elements and members are followed
one by one, and every next one meets a tree into which the earlier ones were merged: what is needed
there is that merging is associative, and that observing keeps the trees within the caps.

* `Tree.Everywhere.observe`  a tree that fits the caps still does after an observation;
* `Tree.observe_eq_merge`    observing is merging with the tree of the value alone;
* `Tree.fold_eq_observeAll`  a fold is observing all samples in one tree;
* `Tree.collecting_eq_merging`  both together.
-/

set_option linter.unusedSectionVars false

namespace JsonShape

/-! ### one position -/

def Value.isNan : Value → Bool
  | num n => n.isNan
  | _ => false

/-- no part of the value is a nan -/
def Value.NanFree (v : Value) : Prop := ∀ p ∈ v.parts, p.2.isNan = false

instance (v : Value) : Decidable v.NanFree :=
  inferInstanceAs (Decidable (∀ p ∈ v.parts, p.2.isNan = false))

namespace Evidence
variable {caps : Caps}

theorem foldl_insert_eq_union {α : Type} [Ord α] [Std.TransOrd α] (s : OrdSet α) (l : List α) :
    l.foldl OrdSet.insert s = s.union (l.foldl OrdSet.insert ∅) := by
  rw [OrdSet.union_foldl_insert, OrdSet.union_empty]

theorem foldl_observe_eq_merge {α : Type} [LT α] [DecidableLT α] (b : Bounds α) (x : Option α) :
    x.toList.foldl Bounds.observe b = b.merge (x.toList.foldl Bounds.observe ∅) := by
  cases x with
  | none => exact (Bounds.merge_empty b).symm
  | some n => rfl

theorem foldl_keep_eq_upTo {cap : Int} {kept : List Value} (h : (kept.length : Int) ≤ cap)
    (l : List Value) : l.foldl (keep cap) kept = upTo cap (kept ++ l.foldl (keep cap) []) := by
  have hcap : 0 ≤ cap := by omega
  rw [foldl_keep h, foldl_keep hcap, upTo_of_nonneg hcap, List.nil_append, take_take_append_right]

/-- seeing a value is merging with the evidence of the value alone -/
theorem see_eq_merge (hd : 0 ≤ caps.distinct) {e : Evidence} (h : e.Within caps) (v : Value) :
    see caps e v = e.merge caps (see caps ∅ v) := by
  apply Evidence.ext
  · show _ = e.types.union (see caps ∅ v).types
    rw [see_types, see_types]
    exact foldl_insert_eq_union e.types _
  · show _ = (e.integerOnly && (see caps ∅ v).integerOnly)
    rw [see_integerOnly, see_integerOnly, foldl_and, foldl_and]
    rfl
  · show _ = e.numbers.merge (see caps ∅ v).numbers
    rw [see_numbers, see_numbers]
    exact foldl_observe_eq_merge e.numbers _
  · show _ = e.lengths.merge (see caps ∅ v).lengths
    rw [see_lengths, see_lengths]
    exact foldl_observe_eq_merge e.lengths _
  · show _ = e.sizes.merge (see caps ∅ v).sizes
    rw [see_sizes, see_sizes]
    exact foldl_observe_eq_merge e.sizes _
  · show _ = e.itemCount + (see caps ∅ v).itemCount
    rw [see_itemCount, see_itemCount]
    exact congrArg (e.itemCount + ·) (Int.zero_add _).symm
  · show _ = e.distinct.merge caps.distinct (see caps ∅ v).distinct
    rw [see_distinct, see_distinct]
    cases v.candidate? with
    | none => exact h.distinct.merge_empty.symm
    | some c => exact h.distinct.record_eq_merge hd c
  · show _ = e.formats.union (see caps ∅ v).formats
    rw [see_formats, see_formats]
    exact foldl_insert_eq_union e.formats _
  · show _ = upTo caps.examples (e.examples ++ (see caps ∅ v).examples)
    rw [see_examples, see_examples]
    exact foldl_keep_eq_upTo h.examples _
  · show _ = e.presence + (see caps ∅ v).presence
    rw [see_presence, see_presence]
    exact (Int.add_zero _).symm

theorem merge_bePresent (a b : Evidence) :
    a.merge caps b.bePresent = (a.merge caps b).bePresent :=
  congrArg (fun n => { a.merge caps b with presence := n }) (Int.add_assoc _ _ _).symm

theorem Within.empty (hd : 0 ≤ caps.distinct) (he : 0 ≤ caps.examples) :
    (∅ : Evidence).Within caps := ⟨⟨hd, nofun⟩, he⟩

theorem Within.see (hd : 0 ≤ caps.distinct) {e : Evidence} (h : e.Within caps) (v : Value) :
    (see caps e v).Within caps where
  distinct := by
    rw [see_distinct]
    cases v.candidate? with
    | none => exact h.distinct
    | some c => exact h.distinct.record hd c
  examples := by
    have hex := h.examples
    rw [see_examples, foldl_keep hex, List.length_take]
    omega

theorem Ordered.see {e : Evidence} (h : e.Ordered) {v : Value} (hv : v.isNan = false) :
    (see caps e v).Ordered := by
  rw [Ordered, see_numbers]
  cases v with
  | num n =>
    have hn : n.normal.isNan = false := by
      rw [Number.isNan_normal]
      exact hv
    exact Bounds.All.observe h hn
  | _ => exact h

end Evidence

namespace Tree
variable {caps : Caps} {limit depth : Int}

/-! ### what is asked of a tree -/

/-- the evidence is within the caps, no bound of a number is a nan, and no key occurs twice -/
structure Fits (caps : Caps) (t : Tree) : Prop where
  within : t.here.Within caps
  ordered : t.here.Ordered
  keys : (t.properties.map Prod.fst).Nodup

theorem Fits.fresh (hd : 0 ≤ caps.distinct) (he : 0 ≤ caps.examples) : Fits caps Tree.fresh :=
  ⟨.empty hd he, .empty, List.nodup_nil⟩

theorem Everywhere.ordered {t : Tree} (h : t.Everywhere (Fits caps)) : t.Ordered :=
  h.mono fun _ ht => ht.ordered

/-- what is asked of the subtrees of keys -/
def RowFits (caps : Caps) (l : List (String × Tree)) : Prop :=
  (l.map Prod.fst).Nodup ∧ ∀ p ∈ l, p.2.Everywhere (Fits caps)

theorem Everywhere.row {t : Tree} (h : t.Everywhere (Fits caps)) : RowFits caps t.properties :=
  ⟨h.here.keys, h.properties⟩

theorem Everywhere.getD_fresh (hd : 0 ≤ caps.distinct) (he : 0 ≤ caps.examples) {t : Option Tree}
    (h : ∀ u ∈ t, u.Everywhere (Fits caps)) : (t.getD Tree.fresh).Everywhere (Fits caps) := by
  cases t with
  | none => exact .leaf (.fresh hd he)
  | some u => exact h u rfl

/-- the tree of a key that is present once more -/
theorem Everywhere.presentAt (hd : 0 ≤ caps.distinct) (he : 0 ≤ caps.examples) (key : String)
    {l : List (String × Tree)} (hl : RowFits caps l) :
    (presentAt key l).Everywhere (Fits caps) := by
  have hchild : ((l.lookup key).getD Tree.fresh).Everywhere (Fits caps) :=
    .getD_fresh hd he fun _ hu => hl.2 _ (mem_of_lookup hu)
  exact .intro ⟨⟨hchild.here.within.distinct, hchild.here.within.examples⟩, hchild.here.ordered,
    hchild.here.keys⟩ hchild.properties hchild.items

theorem mem_setProperty {key : String} {t : Tree} {l : List (String × Tree)} {p : String × Tree}
    (h : p ∈ setProperty key t l) : p = (key, t) ∨ p ∈ l := by
  induction l with
  | nil => exact Or.inl (List.mem_singleton.mp h)
  | cons q r ih =>
    rw [setProperty] at h
    split at h
    · rcases List.mem_cons.mp h with rfl | hr
      · exact Or.inl rfl
      · exact Or.inr (List.mem_cons_of_mem q hr)
    · rcases List.mem_cons.mp h with rfl | hr
      · exact Or.inr List.mem_cons_self
      · exact (ih hr).imp_right (List.mem_cons_of_mem q)

theorem RowFits.nil : RowFits caps [] := ⟨List.nodup_nil, nofun⟩

theorem RowFits.setProperty {l : List (String × Tree)} (hl : RowFits caps l) (key : String)
    {t : Tree} (ht : t.Everywhere (Fits caps)) : RowFits caps (setProperty key t l) := by
  refine ⟨nodup_setProperty key t hl.1, fun p hp => ?_⟩
  rcases mem_setProperty hp with rfl | hp
  · exact ht
  · exact hl.2 p hp

/-! ### observing keeps it -/

/-- a scalar is seen at the root -/
theorem observe_scalar (hroom : ¬ limit < depth) {v : Value} (hv : v.scalar?.isSome = true)
    (t : Tree) :
    observe caps limit depth v t = ⟨{ t with here := Evidence.see caps t.here v }, .done⟩ := by
  cases v with
  | null => simp only [observe, hroom, if_false]; rfl
  | bool _ => simp only [observe, hroom, if_false]; rfl
  | num _ => simp only [observe, hroom, if_false]; rfl
  | str _ => simp only [observe, hroom, if_false]; rfl
  | _ => exact absurd hv Bool.false_ne_true

theorem observe_arr (hroom : ¬ limit < depth) (items : List Value) (t : Tree) :
    observe caps limit depth (.arr items) t
      = ⟨{ t with
            here := Evidence.see caps t.here (.arr items)
            items := (observeItems caps limit (depth + 1) items t.items).1 },
          (observeItems caps limit (depth + 1) items t.items).2⟩ := by
  simp only [observe, hroom, if_false]
  rfl

theorem observe_tuple (hroom : ¬ limit < depth) (items : List Value) (t : Tree) :
    observe caps limit depth (.tuple items) t
      = ⟨{ t with
            here := Evidence.see caps t.here (.tuple items)
            items := (observeItems caps limit (depth + 1) items t.items).1 },
          (observeItems caps limit (depth + 1) items t.items).2⟩ := by
  simp only [observe, hroom, if_false]
  rfl

theorem observe_obj (hroom : ¬ limit < depth) (members : List (String × Value)) (t : Tree) :
    observe caps limit depth (.obj members) t
      = ⟨{ t with
            here := Evidence.see caps t.here (.obj members)
            properties := (observeMembers caps limit (depth + 1) members t.properties).1 },
          (observeMembers caps limit (depth + 1) members t.properties).2⟩ := by
  simp only [observe, hroom, if_false]
  rfl

/-- samples are observed one after the other, as far as each is taken -/
theorem observeAll_result_cons (v : Value) (r : List Value) (t : Tree) :
    (observeAll caps limit (v :: r) t).result
      = (observe caps limit 0 v t).result.bind fun u => (observeAll caps limit r u).result := by
  rw [observeAll]
  cases h : (observe caps limit 0 v t).refusal with
  | some refusal => rw [Observed.result_of_refused h, Logged.bind_of_eq_error rfl]
  | none =>
    rw [Observed.result_of_taken h, Logged.bind_of_eq_ok rfl]
    rfl

end Tree

theorem Value.NanFree.self {v : Value} (h : v.NanFree) : v.isNan = false :=
  h (0, v) (self_mem_parts v)

theorem Value.NanFree.child {v w : Value} (h : v.NanFree) (hw : w ∈ v.children) : w.NanFree :=
  fun p hp => h (deeper p) (deeper_mem_parts_of_child hw hp)

theorem Value.NanFree.members {members : List (String × Value)} (h : (obj members).NanFree) :
    ∀ m ∈ members, m.2.NanFree := fun _ hm => h.child (List.mem_map_of_mem hm)

namespace Tree
variable {caps : Caps}

theorem Everywhere.see (hd : 0 ≤ caps.distinct) {t : Tree} (ht : t.Everywhere (Fits caps))
    {v : Value} (hv : v.isNan = false) {l : List (String × Tree)} {items : Option Tree}
    (hl : RowFits caps l) (hi : ∀ u ∈ items, u.Everywhere (Fits caps)) :
    Everywhere (Fits caps) ⟨Evidence.see caps t.here v, l, items⟩ :=
  .intro ⟨ht.here.within.see hd v, ht.here.ordered.see hv, hl.1⟩ hl.2 hi

section
variable (limit : Int) (hd : 0 ≤ caps.distinct) (he : 0 ≤ caps.examples)
include hd he

theorem Everywhere.items_of (depth : Int) {items : List Value} (h : ∀ v ∈ items, ∀ t : Tree,
      t.Everywhere (Fits caps) →
        (Tree.observe caps limit depth v t).tree.Everywhere (Fits caps))
    {t : Option Tree} (ht : ∀ u ∈ t, u.Everywhere (Fits caps)) :
    ∀ u ∈ (Tree.observeItems caps limit depth items t).1, u.Everywhere (Fits caps) := by
  refine observeItems_invariant (fun t => ∀ u ∈ t, u.Everywhere (Fits caps)) ?_ ht
  rintro v hv t ht u ⟨⟩
  exact h v hv _ (.getD_fresh hd he ht)

theorem RowFits.members_of (depth : Int) {members : List (String × Value)}
    (h : ∀ m ∈ members, ∀ t : Tree, t.Everywhere (Fits caps) →
      (Tree.observe caps limit depth m.2 t).tree.Everywhere (Fits caps))
    {l : List (String × Tree)} (hl : RowFits caps l) :
    RowFits caps (Tree.observeMembers caps limit depth members l).1 :=
  observeMembers_invariant (RowFits caps)
    (fun m hm _ hl => hl.setProperty m.1 (h m hm _ (.presentAt hd he m.1 hl))) hl

/-- a tree that fits the caps still does after an observation, however it ended -/
theorem Everywhere.observe (depth : Int) (v : Value) (hv : v.NanFree) {t : Tree}
    (ht : t.Everywhere (Fits caps)) :
    (Tree.observe caps limit depth v t).tree.Everywhere (Fits caps) := by
  induction v using Value.children_induction generalizing depth t with
  | h v ih =>
    have hbelow : ∀ w ∈ v.children, ∀ u : Tree, u.Everywhere (Fits caps) →
        (Tree.observe caps limit (depth + 1) w u).tree.Everywhere (Fits caps) :=
      fun w hw _ hu => ih w hw (depth + 1) (hv.child hw) hu
    by_cases hroom : limit < depth
    · rw [observe_of_lt hroom]
      exact ht
    · cases v using Value.scalar_cases with
      | scalar v hs =>
        rw [observe_scalar hroom hs]
        exact ht.see hd hv.self ht.row ht.items
      | arr items =>
        rw [observe_arr hroom]
        exact ht.see hd hv.self ht.row (.items_of limit hd he (depth + 1) hbelow ht.items)
      | tuple items =>
        rw [observe_tuple hroom]
        exact ht.see hd hv.self ht.row (.items_of limit hd he (depth + 1) hbelow ht.items)
      | obj members =>
        rw [observe_obj hroom]
        refine ht.see hd hv.self (ht.row.members_of limit hd he (depth + 1) fun m hm => ?_) ht.items
        exact hbelow m.2 (List.mem_map_of_mem hm)
      | foreign name =>
        rw [observe_foreign hroom]
        exact ht

theorem Everywhere.observeItems (depth : Int) (items : List Value) (h : ∀ v ∈ items, v.NanFree)
    {t : Option Tree} (ht : ∀ u ∈ t, u.Everywhere (Fits caps)) :
    ∀ u ∈ (Tree.observeItems caps limit depth items t).1, u.Everywhere (Fits caps) :=
  .items_of limit hd he depth (fun v hv _ => .observe limit hd he depth v (h v hv)) ht

theorem Everywhere.observeMembers (depth : Int) (members : List (String × Value))
    (h : ∀ m ∈ members, m.2.NanFree) {l : List (String × Tree)} (hl : RowFits caps l) :
    RowFits caps (Tree.observeMembers caps limit depth members l).1 :=
  hl.members_of limit hd he depth fun m hm _ => .observe limit hd he depth m.2 (h m hm)

end

/-! ### merging with little -/

theorem merge_root (t : Tree) (e : Evidence) :
    merge caps t ⟨e, [], none⟩ = { t with here := t.here.merge caps e } := by
  rw [merge_eq, mergeProperties_nil, mergeItems_none]

theorem merge_items (t : Tree) (e : Evidence) (items : Option Tree) :
    merge caps t ⟨e, [], items⟩
      = { t with here := t.here.merge caps e, items := mergeItems caps t.items items } := by
  rw [merge_eq, mergeProperties_nil]

theorem merge_properties (t : Tree) (e : Evidence) (l : List (String × Tree)) :
    merge caps t ⟨e, l, none⟩
      = { t with
          here := t.here.merge caps e
          properties := mergeProperties caps t.properties l } := by
  rw [merge_eq, mergeItems_none]

/-- a new key goes last, and a known one is merged in its place -/
theorem mergeProperties_singleton {l : List (String × Tree)} (hl : (l.map Prod.fst).Nodup)
    {key : String} {t u : Tree} (h : mergeItems caps (l.lookup key) (some u) = some t) :
    mergeProperties caps l [(key, u)] = setProperty key t l := by
  have hkeys : (mergeProperties caps l [(key, u)]).map Prod.fst
      = (setProperty key t l).map Prod.fst := by
    rw [keys_mergeProperties, keys_setProperty]
    by_cases hk : key ∈ l.map Prod.fst <;> simp [hk]
  refine (eq_of_lookup hkeys.symm (nodup_setProperty key t hl) fun k => ?_).symm
  rw [lookup_mergeProperties, lookup_setProperty, List.lookup_cons]
  by_cases hk : k = key
  · rw [if_pos hk, hk, beq_self_eq_true, h]
  · rw [if_neg hk, beq_eq_false_iff_ne.mpr hk]
    exact (mergeItems_none caps _).symm

section
variable (limit : Int) (hd : 0 ≤ caps.distinct) (he : 0 ≤ caps.examples)
include hd he

/-- a key that is present once more, with more evidence below it -/
theorem setProperty_merge {l : List (String × Tree)} (hl : RowFits caps l) (key : String) {u : Tree}
    (hu : u.Ordered) : setProperty key (merge caps (presentAt key l) u) l
      = mergeProperties caps l [(key, merge caps (presentAt key []) u)] := by
  refine (mergeProperties_singleton hl.1 ?_).symm
  cases h : l.lookup key with
  | none =>
    have hpresent : presentAt key l = presentAt key [] := by
      rw [presentAt, h]
      rfl
    rw [hpresent]
    rfl
  | some t =>
    have ht := hl.2 _ (mem_of_lookup h)
    -- one more object that holds the key is as good as a tree that was present once
    have hpresent : presentAt key l = merge caps t (presentAt key []) := by
      have hhere : t.here.bePresent = t.here.merge caps (Evidence.bePresent ∅) := by
        rw [Evidence.merge_bePresent, ht.here.within.merge_empty]
      rw [presentAt, h]
      show { t with here := t.here.bePresent } = merge caps t ⟨Evidence.bePresent ∅, [], none⟩
      rw [merge_root, hhere]
    have hfirst := Everywhere.presentAt hd he key RowFits.nil
    rw [hpresent, merge_assoc he ht.ordered hfirst.ordered hu]
    rfl

mutual

/-- observing a value is merging with the tree of the value alone, refused or not -/
theorem observe_eq_merge (depth : Int) (v : Value) (hv : v.NanFree) {t : Tree}
    (ht : t.Everywhere (Fits caps)) : observe caps limit depth v t
      = ⟨merge caps t (observe caps limit depth v fresh).tree,
          (observe caps limit depth v fresh).ending⟩ := by
  have hw := ht.here.within
  by_cases hroom : limit < depth
  · rw [observe_of_lt hroom, observe_of_lt hroom, merge_fresh hw]
  · have hscalar : v.scalar?.isSome = true → observe caps limit depth v t
        = ⟨merge caps t (observe caps limit depth v fresh).tree,
          (observe caps limit depth v fresh).ending⟩ := by
      intro hs
      rw [observe_scalar hroom hs, observe_scalar hroom hs, Evidence.see_eq_merge hd hw]
      exact congrArg (Observed.mk · .done) (merge_root t _).symm
    cases v with
    | null => exact hscalar rfl
    | bool _ => exact hscalar rfl
    | num _ => exact hscalar rfl
    | str _ => exact hscalar rfl
    | arr items =>
      rw [observe_arr hroom, observe_arr hroom, Evidence.see_eq_merge hd hw,
        observeItems_eq_merge (depth + 1) items (fun _ hw => hv.child hw) ht.items]
      exact congrArg (Observed.mk · _) (merge_items t _ _).symm
    | tuple items =>
      rw [observe_tuple hroom, observe_tuple hroom, Evidence.see_eq_merge hd hw,
        observeItems_eq_merge (depth + 1) items (fun _ hw => hv.child hw) ht.items]
      exact congrArg (Observed.mk · _) (merge_items t _ _).symm
    | obj members =>
      rw [observe_obj hroom, observe_obj hroom, Evidence.see_eq_merge hd hw,
        observeMembers_eq_merge (depth + 1) members hv.members ht.row]
      exact congrArg (Observed.mk · _) (merge_properties t _ _).symm
    | foreign name => rw [observe_foreign hroom, observe_foreign hroom, merge_fresh hw]

theorem observeItems_eq_merge (depth : Int) (items : List Value) (h : ∀ v ∈ items, v.NanFree)
    {t : Option Tree} (ht : ∀ u ∈ t, u.Everywhere (Fits caps)) :
    observeItems caps limit depth items t
      = (mergeItems caps t (observeItems caps limit depth items none).1,
          (observeItems caps limit depth items none).2) := by
  cases items with
  | nil => exact congrArg (Prod.mk · Ending.done) (mergeItems_none caps t).symm
  | cons v r =>
    obtain ⟨hv, hr⟩ := List.forall_mem_cons.mp h
    have hstart : (t.getD fresh).Everywhere (Fits caps) := .getD_fresh hd he ht
    have halone := Everywhere.observe limit hd he depth v hv (.leaf (.fresh hd he))
    have heq := observe_eq_merge depth v hv hstart
    have htree : some (observe caps limit depth v (t.getD fresh)).tree
        = mergeItems caps t (some (observe caps limit depth v fresh).tree) := by
      rw [heq]
      cases t with
      | none => exact congrArg some (fresh_merge halone.here.within)
      | some u => rfl
    have hending : (observe caps limit depth v (t.getD fresh)).ending
        = (observe caps limit depth v fresh).ending := by rw [heq]
    cases hrefusal : (observe caps limit depth v fresh).refusal with
    | some refusal =>
      rw [observeItems_of_refused (t := t) ((congrArg Ending.refusal hending).trans hrefusal),
        observeItems_of_refused (t := none) hrefusal, htree, hending]
      rfl
    | none =>
      have hnext : ∀ u ∈ some (observe caps limit depth v (t.getD fresh)).tree,
          u.Everywhere (Fits caps) := by
        rintro u ⟨⟩
        exact Everywhere.observe limit hd he depth v hv hstart
      have halone' : ∀ u ∈ some (observe caps limit depth v fresh).tree,
          u.Everywhere (Fits caps) := by
        rintro u ⟨⟩
        exact halone
      rw [observeItems_of_taken (t := t) ((congrArg Ending.refusal hending).trans hrefusal),
        observeItems_of_taken (t := none) hrefusal, Option.getD_none, Observed.log, hending]
      -- the rest is merged into what the first element left, in `t` or alone: a matter of grouping
      have hrest := Everywhere.observeItems limit hd he depth r hr (t := none) nofun
      rw [observeItems_eq_merge depth r hr hnext, observeItems_eq_merge depth r hr halone', htree]
      refine congrArg (Prod.mk · _) (mergeItems_assoc fun a ha b hb c hc => ?_)
      exact merge_assoc he (ht a ha).ordered (halone' b hb).ordered (hrest c hc).ordered

theorem observeMembers_eq_merge (depth : Int) (members : List (String × Value))
    (h : ∀ m ∈ members, m.2.NanFree) {l : List (String × Tree)} (hl : RowFits caps l) :
    observeMembers caps limit depth members l
      = (mergeProperties caps l (observeMembers caps limit depth members []).1,
          (observeMembers caps limit depth members []).2) := by
  cases members with
  | nil => exact congrArg (Prod.mk · Ending.done) (mergeProperties_nil l).symm
  | cons m r =>
    obtain ⟨key, v⟩ := m
    obtain ⟨hv, hr⟩ := List.forall_mem_cons.mp h
    have halone := Everywhere.observe limit hd he depth v hv (.leaf (.fresh hd he))
    have heq := observe_eq_merge depth v hv (Everywhere.presentAt hd he key hl)
    have heq' := observe_eq_merge depth v hv (Everywhere.presentAt hd he key RowFits.nil)
    have hrow : setProperty key (observe caps limit depth v (presentAt key l)).tree l
        = mergeProperties caps l
            (setProperty key (observe caps limit depth v (presentAt key [])).tree []) := by
      rw [heq, heq']
      exact setProperty_merge hd he hl key halone.ordered
    have hending : (observe caps limit depth v (presentAt key l)).ending
        = (observe caps limit depth v (presentAt key [])).ending := by rw [heq, heq']
    cases hrefusal : (observe caps limit depth v (presentAt key [])).refusal with
    | some refusal =>
      rw [observeMembers_of_refused ((congrArg Ending.refusal hending).trans hrefusal),
        observeMembers_of_refused hrefusal, hrow, hending]
    | none =>
      have hnext := hl.setProperty key (Everywhere.observe limit hd he depth v hv
        (.presentAt hd he key hl))
      have halone' := RowFits.nil.setProperty key (Everywhere.observe limit hd he depth v
        hv (.presentAt hd he key RowFits.nil))
      rw [observeMembers_of_taken ((congrArg Ending.refusal hending).trans hrefusal),
        observeMembers_of_taken hrefusal, Observed.log, hending]
      have hrest := Everywhere.observeMembers limit hd he depth r hr RowFits.nil
      rw [observeMembers_eq_merge depth r hr hnext, observeMembers_eq_merge depth r hr halone',
        hrow]
      refine congrArg (Prod.mk · _) (mergeProperties_assoc fun p hp u hu w hw => ?_)
      exact merge_assoc he (hl.2 p hp).ordered (halone'.2 _ (mem_of_lookup hu)).ordered
        (hrest.2 _ (mem_of_lookup hw)).ordered

end

/-! ### folds -/

/-- samples merged into a tree may as well be observed in it -/
theorem foldFrom_eq_observeAll (samples : List Value) (hs : ∀ v ∈ samples, v.NanFree) {t : Tree}
    (ht : t.Everywhere (Fits caps)) : foldFrom caps limit (some t) samples
      = (observeAll caps limit samples t).result.map some := by
  induction samples generalizing t with
  | nil => rfl
  | cons v r ih =>
    obtain ⟨hv, hr⟩ := List.forall_mem_cons.mp hs
    have hnext := ht.observe limit hd he 0 v hv
    have heq := observe_eq_merge limit hd he 0 v hv ht
    rw [foldFrom_cons, observeAll_result_cons, observeSample]
    rw [heq] at hnext ⊢
    cases hrefusal : (observe caps limit 0 v fresh).refusal with
    | some refusal =>
      rw [Observed.result_of_refused hrefusal, Observed.result_of_refused (by exact hrefusal)]
      rfl
    | none =>
      rw [Observed.result_of_taken hrefusal, Observed.result_of_taken (by exact hrefusal)]
      rw [Logged.bind_of_eq_ok rfl, Logged.bind_of_eq_ok rfl, mergeInto, ih hr hnext]
      rfl

/-- the trees of all samples, merged, are the tree in which all samples were observed; no samples
leave no tree -/
theorem fold_eq_observeAll (samples : List Value) (hs : ∀ v ∈ samples, v.NanFree) :
    fold caps limit samples = (observeAll caps limit samples fresh).result.map
      fun t => if samples.isEmpty then none else some t := by
  cases samples with
  | nil => rfl
  | cons v r =>
    obtain ⟨hv, hr⟩ := List.forall_mem_cons.mp hs
    have hnext : (observe caps limit 0 v fresh).tree.Everywhere (Fits caps) :=
      Everywhere.observe limit hd he 0 v hv (.leaf (.fresh hd he))
    rw [fold_cons, observeAll_result_cons, observeSample]
    cases hrefusal : (observe caps limit 0 v fresh).refusal with
    | some refusal =>
      rw [Observed.result_of_refused hrefusal]
      rfl
    | none =>
      rw [Observed.result_of_taken hrefusal, Logged.bind_of_eq_ok rfl, Logged.bind_of_eq_ok rfl,
        foldFrom_eq_observeAll limit hd he r hr hnext]
      rfl

end

/-- observing a value in a tree is merging with the tree of the value alone, whether or not it is
refused on the way; so a fold over samples is observing all of them in one tree -/
theorem collecting_eq_merging {caps : Caps} (hd : 0 ≤ caps.distinct) (he : 0 ≤ caps.examples)
    (limit : Int) :
    (∀ (depth : Int) (v : Value) (t : Tree), v.NanFree → t.Everywhere (Fits caps) →
        observe caps limit depth v t
          = ⟨merge caps t (observe caps limit depth v fresh).tree,
              (observe caps limit depth v fresh).ending⟩)
      ∧ ∀ samples : List Value, (∀ v ∈ samples, v.NanFree) →
        fold caps limit samples = (observeAll caps limit samples fresh).result.map
          fun t => if samples.isEmpty then none else some t :=
  ⟨fun depth v _ hv ht => observe_eq_merge limit hd he depth v hv ht,
    fold_eq_observeAll limit hd he⟩

/-- a text that was seen at the root, and a null under a key, as many as the caps allow -/
def filled : Tree :=
  let here : Evidence := Evidence.see ⟨1, 1⟩ ((∅ : Evidence).seeTag .object) (.str "x")
  ⟨here, [("a", ⟨(∅ : Evidence).bePresent.seeTag .null, [], none⟩)], none⟩

/-- an object with one more key, and with more than is kept under the known one -/
def fuller : Value :=
  .obj [("b", .str "y"), ("a", .arr [.int 1, .num threeHalves, .bool true])]

theorem collecting_eq_merging_filled :
    observe ⟨1, 1⟩ 2 0 fuller filled
        = ⟨merge ⟨1, 1⟩ filled (observe ⟨1, 1⟩ 2 0 fuller fresh).tree, .done⟩
      ∧ fold ⟨1, 1⟩ 2 [fuller, .null]
        = .ok (some (observeAll ⟨1, 1⟩ 2 [fuller, .null] fresh).tree) := by
  have hfits : filled.Everywhere (Fits ⟨1, 1⟩) := by
    refine .intro ⟨⟨⟨by decide, nofun⟩, by decide⟩, by decide, by decide⟩ ?_ nofun
    refine List.forall_mem_singleton.mpr (.leaf ?_)
    exact ⟨⟨⟨by decide, nofun⟩, by decide⟩, by decide, by decide⟩
  have hd : 0 ≤ (⟨1, 1⟩ : Caps).distinct := by decide
  have h := collecting_eq_merging hd (by decide) 2
  exact ⟨h.1 0 fuller filled (by decide) hfits, h.2 [fuller, .null] (by decide)⟩

end Tree
end JsonShape
