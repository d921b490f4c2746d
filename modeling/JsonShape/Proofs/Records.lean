import JsonShape.Inference
import JsonShape.Proofs.Merging

/-!
# Trees that reflect values

A tree reflects a list of values if the evidence at the root is a true account of them and, one step
down, there is a tree that reflects the values found there, or no tree where none are found.  How
often a key was present is the number of values below it, and the keys stand in the order in which
the values have them first.

This is the one invariant of collecting: it holds of a fresh tree, one more value keeps it, and the
merge of two trees reflects the values of both.  How much of the evidence it speaks of is up to the
account.  A tree records values if all its evidence is that of the values; without nans among them
it always does.  Their types and the number of their elements it tells in any case.

* `Account.gathered_kept`, `Account.outline_kept`  the two accounts are kept all along;
* `Tree.reflects_follow`  observing a value is not refused, and it is reflected last;
* `Tree.Reflects.merge`   the values of the first tree come before those of the second;
* `Tree.reflects_fold`    the tree of samples reflects them in order;
* `Tree.records_fold`     and records them if there are no nans in them.
-/

namespace JsonShape

/-- the values one step below those of a list -/
def valuesBelow (s : Step) (values : List Value) : List Value := values.flatMap (Value.follow s)

theorem valuesBelow_append (s : Step) (vs ws : List Value) :
    valuesBelow s (vs ++ ws) = valuesBelow s vs ++ valuesBelow s ws := List.flatMap_append

theorem valuesBelow_singleton (s : Step) (v : Value) : valuesBelow s [v] = v.follow s :=
  List.append_nil _

theorem mem_valuesBelow {s : Step} {values : List Value} {w : Value} :
    w ∈ valuesBelow s values ↔ ∃ v ∈ values, w ∈ v.follow s := List.mem_flatMap

/-- what holds of values and of all that lies below them holds one step down -/
theorem forall_valuesBelow {P : Value → Prop}
    (hP : ∀ {s : Step} {v w : Value}, P v → w ∈ v.follow s → P w) {s : Step}
    {values : List Value} (h : ∀ v ∈ values, P v) : ∀ w ∈ valuesBelow s values, P w := by
  intro w hw
  obtain ⟨v, hv, hvw⟩ := mem_valuesBelow.mp hw
  exact hP (h v hv) hvw

theorem regular_valuesBelow {s : Step} {values : List Value} (h : ∀ v ∈ values, v.Regular) :
    ∀ w ∈ valuesBelow s values, w.Regular := forall_valuesBelow Value.Regular.follow h

/-- what holds of values and of all that lies below them holds at every position -/
theorem forall_valuesAt {P : Value → Prop}
    (hP : ∀ {s : Step} {v w : Value}, P v → w ∈ v.follow s → P w) (p : Position)
    {values : List Value} (h : ∀ v ∈ values, P v) : ∀ w ∈ valuesAt p values, P w := by
  induction p generalizing values with
  | nil => exact h
  | cons s p ih => exact ih (forall_valuesBelow hP h)

theorem valuesAt_nil_values (p : Position) : valuesAt p [] = [] := by
  induction p with
  | nil => rfl
  | cons s p ih => exact ih

/-- the keys of all objects among the values, as often as they occur -/
def keysAmong (values : List Value) : List String := values.flatMap Value.keys

theorem keysAmong_append (vs ws : List Value) :
    keysAmong (vs ++ ws) = keysAmong vs ++ keysAmong ws := List.flatMap_append

theorem keysAmong_concat (values : List Value) (v : Value) :
    keysAmong (values ++ [v]) = keysAmong values ++ v.keys := by
  rw [keysAmong_append]
  exact congrArg (keysAmong values ++ ·) (List.append_nil _)

/-- how often a position was present at which so many values were found: only keys are counted -/
def Step.presence : Step → Nat → Int
  | .key _, n => n
  | .element, _ => 0

theorem Step.presence_add (s : Step) (m n : Nat) :
    s.presence (m + n) = s.presence m + s.presence n := by
  cases s with
  | key _ => exact Int.natCast_add m n
  | element => rfl

/-- the evidence, present so many times -/
def Evidence.withPresence (e : Evidence) (n : Int) : Evidence := { e with presence := n }

namespace Evidence
variable {caps : Caps}

theorem see_withPresence (e : Evidence) (n : Int) (v : Value) :
    see caps (e.withPresence n) v = (see caps e v).withPresence n := by
  cases v with
  | num x => cases h : x.isWhole <;> simp only [see, seeNumber, h] <;> rfl
  | _ => rfl

theorem gather_concat (values : List Value) (v : Value) :
    gather caps (values ++ [v]) = see caps (gather caps values) v := by
  rw [gather, List.foldl_append]
  rfl

theorem merge_withPresence (a b : Evidence) (m n : Int) :
    merge caps (a.withPresence m) (b.withPresence n) = (merge caps a b).withPresence (m + n) := rfl

end Evidence

/-! ### accounts -/

/-- the evidence tells the types of the values, and how many elements they have in all -/
structure Evidence.Outlines (values : List Value) (e : Evidence) : Prop where
  types : e.types = .ofList (values.filterMap Value.tag?)
  itemCount : e.itemCount = (valuesBelow .element values).length

/-- what is asked of the evidence of values: that it tells their outline, at the least -/
structure Account where
  Holds : List Value → Evidence → Prop
  outlines : ∀ {values e}, Holds values e → e.Outlines values

namespace Account
variable {caps : Caps}

/-- an account of values of some sort is kept as they are seen, and as evidence is merged -/
structure Kept (A : Account) (caps : Caps) (P : Value → Prop) : Prop where
  json : ∀ {v}, P v → v.Json
  follow : ∀ {s v w}, P v → w ∈ Value.follow s v → P w
  empty : A.Holds [] ∅
  present : ∀ {values e} (n : Int), A.Holds values e → A.Holds values (e.withPresence n)
  see : ∀ {values e v}, P v → A.Holds values e → A.Holds (values ++ [v]) (e.see caps v)
  merge : ∀ {vs ws a b}, (∀ v ∈ vs, P v) → (∀ w ∈ ws, P w) → A.Holds vs a → A.Holds ws b →
    A.Holds (vs ++ ws) (a.merge caps b)

/-- the evidence tells the outline of the values -/
def outline : Account := ⟨Evidence.Outlines, id⟩

/-- the evidence is that of the values -/
def gathered (caps : Caps) : Account where
  Holds values e := e = (Evidence.gather caps values).withPresence e.presence
  outlines h := by
    rw [h]
    exact ⟨Evidence.gather_types _, Evidence.gather_itemCount _⟩

theorem outline_kept (caps : Caps) : outline.Kept caps Value.Json where
  json h := h
  follow := Value.Json.follow
  empty := ⟨rfl, rfl⟩
  present _ h := ⟨h.types, h.itemCount⟩
  see {values e v} _ h := by
    constructor
    · rw [Evidence.see_types, h.types, List.filterMap_append, OrdSet.ofList, OrdSet.ofList,
        List.foldl_append]
      cases hv : v.tag? with
      | none => simp [hv]
      | some tag => simp [hv]
    · rw [Evidence.see_itemCount, h.itemCount, valuesBelow_append, valuesBelow_singleton,
        List.length_append]
      exact (Int.natCast_add _ _).symm
  merge _ _ ha hb := by
    constructor
    · show OrdSet.union _ _ = _
      rw [ha.types, hb.types, List.filterMap_append, OrdSet.ofList_append]
    · show _ + _ = _
      rw [ha.itemCount, hb.itemCount, valuesBelow_append, List.length_append]
      exact (Int.natCast_add _ _).symm

theorem gathered_kept (hd : 0 ≤ caps.distinct) (he : 0 ≤ caps.examples) :
    (gathered caps).Kept caps Value.Regular where
  json := Value.Regular.json
  follow := Value.Regular.follow
  empty := rfl
  present n h := by
    show _ = (Evidence.gather caps _).withPresence n
    rw [h]
    rfl
  see {values e v} _ h := by
    show e.see caps v = (Evidence.gather caps _).withPresence (e.see caps v).presence
    rw [Evidence.see_presence, Evidence.gather_concat, ← Evidence.see_withPresence, ← h]
  merge {vs ws a b} hv hw ha hb := by
    show a.merge caps b = (Evidence.gather caps (vs ++ ws)).withPresence (a.presence + b.presence)
    rw [Evidence.gather_append hd he hv hw, ← Evidence.merge_withPresence, ← ha, ← hb]

end Account

namespace Tree

/-- the evidence of the tree is a true account of these values, and that of the trees below it of
those below -/
inductive Reflects (A : Account) : List Value → Tree → Prop
  | intro {values : List Value} {t : Tree}
      (here : A.Holds values t.here)
      (keys : t.properties.map Prod.fst = (keysAmong values).eraseDups)
      (absent : ∀ s, t.step? s = none → valuesBelow s values = [])
      (present : ∀ s u, t.step? s = some u → valuesBelow s values ≠ [])
      (counted : ∀ s u, t.step? s = some u →
        u.here.presence = s.presence (valuesBelow s values).length)
      (below : ∀ s u, t.step? s = some u → Reflects A (valuesBelow s values) u) :
      Reflects A values t

/-- what was found one step down is reflected there, if anything was found -/
def ReflectsBelow (A : Account) (s : Step) (values : List Value) : Option Tree → Prop
  | none => values = []
  | some u => values ≠ [] ∧ u.here.presence = s.presence values.length ∧ Reflects A values u

/-- the tree holds the evidence of these values, and the trees below it that of those below -/
abbrev Records (caps : Caps) : List Value → Tree → Prop := Reflects (.gathered caps)

theorem Records.here {caps : Caps} {values : List Value} {t : Tree} (h : Records caps values t) :
    t.here = (Evidence.gather caps values).withPresence t.here.presence := by
  cases h with
  | intro hh _ _ _ _ _ => exact hh

variable {A : Account} {caps : Caps} {P : Value → Prop}

namespace Reflects

theorem holds {values : List Value} {t : Tree} (h : Reflects A values t) :
    A.Holds values t.here := by
  cases h with
  | intro hh _ _ _ _ _ => exact hh

theorem outlines {values : List Value} {t : Tree} (h : Reflects A values t) :
    t.here.Outlines values := A.outlines h.holds

theorem keys {values : List Value} {t : Tree} (h : Reflects A values t) :
    t.properties.map Prod.fst = (keysAmong values).eraseDups := by
  cases h with
  | intro _ hk _ _ _ _ => exact hk

theorem keys_nodup {values : List Value} {t : Tree} (h : Reflects A values t) :
    (t.properties.map Prod.fst).Nodup := by
  rw [h.keys]
  exact nodup_eraseDups _

theorem inner {values : List Value} {t : Tree} (h : Reflects A values t) (s : Step) :
    ReflectsBelow A s (valuesBelow s values) (t.step? s) := by
  cases h with
  | intro _ _ ha hp hc hb =>
    cases hs : t.step? s with
    | none => exact ha s hs
    | some u => exact ⟨hp s u hs, hc s u hs, hb s u hs⟩

theorem of_below {values : List Value} {t : Tree} (here : A.Holds values t.here)
    (keys : t.properties.map Prod.fst = (keysAmong values).eraseDups)
    (below : ∀ s, ReflectsBelow A s (valuesBelow s values) (t.step? s)) :
    Reflects A values t := by
  have hsome : ∀ s u, t.step? s = some u →
      ReflectsBelow A s (valuesBelow s values) (some u) := by
    intro s u hs
    rw [← hs]
    exact below s
  refine .intro here keys ?_ (fun s u hs => (hsome s u hs).1) (fun s u hs => (hsome s u hs).2.1)
    (fun s u hs => (hsome s u hs).2.2)
  intro s hs
  have h := below s
  rw [hs] at h
  exact h

/-- how often the root was present does not matter -/
theorem withPresence (hA : A.Kept caps P) {values : List Value} {t : Tree}
    (h : Reflects A values t) (n : Int) :
    Reflects A values { t with here := t.here.withPresence n } := by
  refine of_below (hA.present n h.holds) h.keys fun s => ?_
  cases s with
  | key k => exact h.inner (.key k)
  | element => exact h.inner .element

theorem fresh (hA : A.Kept caps P) : Reflects A [] Tree.fresh := by
  refine of_below hA.empty rfl fun s => ?_
  cases s with
  | key k => rfl
  | element => rfl

/-- a tree that was there already, or a fresh one -/
theorem getD_fresh (hA : A.Kept caps P) {s : Step} {values : List Value} {t : Option Tree}
    (h : ReflectsBelow A s values t) :
    Reflects A values (t.getD Tree.fresh)
      ∧ (t.getD Tree.fresh).here.presence = s.presence values.length := by
  cases t with
  | none =>
    have hnil : values = [] := h
    subst hnil
    exact ⟨fresh hA, by cases s <;> rfl⟩
  | some u => exact ⟨h.2.2, h.2.1⟩

/-! ### one more value -/

/-- one more value changes the root, and each step down by what is found there -/
theorem concat (hA : A.Kept caps P) {values : List Value} {t : Tree} (h : Reflects A values t)
    {v : Value} (hv : P v)
    {properties : List (String × Tree)} {items : Option Tree}
    (keys : properties.map Prod.fst = (keysAmong values ++ v.keys).eraseDups)
    (hp : ∀ k, ReflectsBelow A (.key k) (valuesBelow (.key k) values ++ v.follow (.key k))
      (properties.lookup k))
    (hi : ReflectsBelow A .element (valuesBelow .element values ++ v.follow .element) items) :
    Reflects A (values ++ [v]) ⟨Evidence.see caps t.here v, properties, items⟩ := by
  rw [← keysAmong_concat] at keys
  refine of_below (hA.see hv h.holds) keys fun s => ?_
  rw [valuesBelow_append, valuesBelow_singleton]
  cases s with
  | key k => exact hp k
  | element => exact hi

/-- a value without members changes the root and the elements -/
theorem concat_items (hA : A.Kept caps P) {values : List Value} {t : Tree} (h : Reflects A values t)
    {v : Value} (hv : P v) {items : Option Tree} (hk : ∀ k, v.follow (.key k) = [])
    (hi : ReflectsBelow A .element (valuesBelow .element values ++ v.follow .element) items) :
    Reflects A (values ++ [v]) { t with here := Evidence.see caps t.here v, items := items } := by
  have hkeys : v.keys = [] :=
    List.eq_nil_iff_forall_not_mem.mpr fun k hkv => Value.mem_keys.mp hkv (hk k)
  refine h.concat hA hv ?_ (fun k => ?_) hi
  · rw [hkeys, List.append_nil]
    exact h.keys
  · rw [hk, List.append_nil]
    exact h.inner (.key k)

/-- a value with nothing below it changes the root only -/
theorem concat_leaf (hA : A.Kept caps P) {values : List Value} {t : Tree} (h : Reflects A values t)
    {v : Value} (hv : P v) (hleaf : ∀ s, v.follow s = []) :
    Reflects A (values ++ [v]) { t with here := Evidence.see caps t.here v } := by
  refine h.concat_items hA hv (fun k => hleaf (.key k)) ?_
  rw [hleaf, List.append_nil]
  exact h.inner .element

end Reflects

/-- observing is not refused, and the value is reflected last; the root is present as before -/
def Follows (A : Account) (caps : Caps) (limit depth : Int) (v : Value) : Prop :=
  ∀ ⦃values : List Value⦄ ⦃t : Tree⦄, Reflects A values t →
    (observe caps limit depth v t).ending = .done
      ∧ Reflects A (values ++ [v]) (observe caps limit depth v t).tree
      ∧ (observe caps limit depth v t).tree.here.presence = t.here.presence

theorem observeItems_follows (hA : A.Kept caps P) {limit depth : Int} {items : List Value}
    (h : ∀ v ∈ items, Follows A caps limit depth v) {values : List Value} {t : Option Tree}
    (ht : ReflectsBelow A .element values t) :
    (observeItems caps limit depth items t).2 = .done
      ∧ ReflectsBelow A .element (values ++ items)
        (observeItems caps limit depth items t).1 := by
  induction items generalizing values t with
  | nil =>
    rw [List.append_nil]
    exact ⟨rfl, ht⟩
  | cons v r ih =>
    obtain ⟨hv, hr⟩ := List.forall_mem_cons.mp h
    obtain ⟨hrec, hpres⟩ := Reflects.getD_fresh hA ht
    obtain ⟨hdone, hnext, hkept⟩ := hv hrec
    have hbelow : ReflectsBelow A .element (values ++ [v])
        (some (observe caps limit depth v (t.getD fresh)).tree) :=
      ⟨List.concat_ne_nil v values, hkept.trans hpres, hnext⟩
    rw [observeItems_of_done hdone, List.append_cons]
    exact ih hr hbelow

theorem observeMembers_follows (hA : A.Kept caps P) {limit depth : Int}
    {members : List (String × Value)}
    (h : ∀ m ∈ members, Follows A caps limit depth m.2) (hm : (members.map Prod.fst).Nodup)
    {found : String → List Value} {keys : List String} {properties : List (String × Tree)}
    (hk : properties.map Prod.fst = keys.eraseDups)
    (hp : ∀ k, ReflectsBelow A (.key k) (found k) (properties.lookup k)) :
    (observeMembers caps limit depth members properties).2 = .done
      ∧ (observeMembers caps limit depth members properties).1.map Prod.fst
        = (keys ++ members.map Prod.fst).eraseDups
      ∧ ∀ k, ReflectsBelow A (.key k) (found k ++ (members.lookup k).toList)
          ((observeMembers caps limit depth members properties).1.lookup k) := by
  induction members generalizing found keys properties with
  | nil =>
    rw [List.map_nil, List.append_nil]
    refine ⟨rfl, hk, fun k => ?_⟩
    show ReflectsBelow A (.key k) (found k ++ []) (properties.lookup k)
    rw [List.append_nil]
    exact hp k
  | cons m r ih =>
    obtain ⟨key, v⟩ := m
    obtain ⟨hv, hr⟩ := List.forall_mem_cons.mp h
    obtain ⟨hkey, hmr⟩ := List.nodup_cons.mp hm
    obtain ⟨hrec, hpres⟩ := Reflects.getD_fresh hA (hp key)
    have hchild : Reflects A (found key) (presentAt key properties) := hrec.withPresence hA _
    have hcount : (presentAt key properties).here.presence = (found key).length + 1 := by
      show ((properties.lookup key).getD fresh).here.presence + 1 = _
      rw [hpres]
      rfl
    obtain ⟨hdone, hnext, hkept⟩ := hv hchild
    have hset : ∀ k, ReflectsBelow A (.key k) (if k = key then found key ++ [v] else found k)
        ((setProperty key (observe caps limit depth v (presentAt key properties)).tree
          properties).lookup k) := by
      intro k
      rw [lookup_setProperty]
      by_cases hkk : k = key
      · rw [if_pos hkk, if_pos hkk, hkk]
        refine ⟨List.concat_ne_nil v _, ?_, hnext⟩
        rw [hkept, hcount, List.length_append, List.length_singleton]
        rfl
      · rw [if_neg hkk, if_neg hkk]
        exact hp k
    have hnext : (setProperty key (observe caps limit depth v (presentAt key properties)).tree
        properties).map Prod.fst = (keys ++ [key]).eraseDups := by
      rw [keys_setProperty, hk, eraseDups_concat]
    obtain ⟨hdone', hkeys, hrest⟩ := ih hr hmr hnext hset
    rw [observeMembers_of_done hdone, List.map_cons, List.append_cons]
    refine ⟨hdone', hkeys, fun k => ?_⟩
    have hfound : found k ++ (((key, v) :: r).lookup k).toList
        = (if k = key then found key ++ [v] else found k) ++ (r.lookup k).toList := by
      rw [List.lookup_cons]
      by_cases hkk : k = key
      · have hout : r.lookup k = none := by
          rw [hkk]
          exact lookup_eq_none.mpr hkey
        rw [if_pos hkk, hout, hkk, beq_self_eq_true]
        exact (List.append_nil _).symm
      · rw [if_neg hkk, beq_eq_false_iff_ne.mpr hkk]
    rw [hfound]
    exact hrest k

/-- a value whose parts lie within the limit is followed to its end -/
theorem reflects_follow (hA : A.Kept caps P) {limit depth : Int} {v : Value} (hv : P v)
    (hd : ∀ p ∈ v.parts, depth + p.1 ≤ limit) : Follows A caps limit depth v := by
  induction v using Value.follow_induction generalizing depth with
  | h v ih =>
    have hroom : ¬ limit < depth := by
      have h0 := hd (0, v) (Value.self_mem_parts v)
      simp only at h0
      omega
    have hbelow : ∀ s, ∀ w ∈ v.follow s, Follows A caps limit (depth + 1) w := by
      intro s w hw
      refine ih s w hw (hA.follow hv hw) fun p hp => ?_
      have hdeep := hd _ (Value.deeper_mem_parts hw hp)
      simp only [Value.deeper] at hdeep
      omega
    intro values t ht
    have hleaf : (∀ s, v.follow s = []) →
        observe caps limit depth v t = ⟨{ t with here := Evidence.see caps t.here v }, .done⟩ →
        (observe caps limit depth v t).ending = .done
          ∧ Reflects A (values ++ [v]) (observe caps limit depth v t).tree
          ∧ (observe caps limit depth v t).tree.here.presence = t.here.presence := by
      intro hbare he
      rw [he]
      exact ⟨rfl, ht.concat_leaf hA hv hbare, Evidence.see_presence _ _⟩
    have hitems := observeItems_follows hA (hbelow .element) (ht.inner .element)
    cases v with
    | null =>
      exact hleaf (fun s => by cases s <;> rfl) (by simp only [observe, hroom, if_false]; rfl)
    | bool b =>
      exact hleaf (fun s => by cases s <;> rfl) (by simp only [observe, hroom, if_false]; rfl)
    | num n =>
      exact hleaf (fun s => by cases s <;> rfl) (by simp only [observe, hroom, if_false]; rfl)
    | str x =>
      exact hleaf (fun s => by cases s <;> rfl) (by simp only [observe, hroom, if_false]; rfl)
    | arr items =>
      simp only [observe, hroom, if_false]
      exact ⟨hitems.1, ht.concat_items hA hv (fun _ => rfl) hitems.2, rfl⟩
    | tuple items =>
      simp only [observe, hroom, if_false]
      exact ⟨hitems.1, ht.concat_items hA hv (fun _ => rfl) hitems.2, rfl⟩
    | obj members =>
      have hkeys := (hA.json hv).keys_nodup
      have hmem : ∀ m ∈ members, Follows A caps limit (depth + 1) m.2 := by
        intro m hm
        have hl : members.lookup m.1 = some m.2 := (lookup_iff_mem hkeys).mpr hm
        exact hbelow (.key m.1) m.2 (Option.mem_toList.mpr hl)
      obtain ⟨hdone, hnext, hmembers⟩ :=
        observeMembers_follows hA hmem hkeys ht.keys fun k => ht.inner (.key k)
      simp only [observe, hroom, if_false]
      refine ⟨hdone, ht.concat hA hv hnext hmembers ?_, rfl⟩
      show ReflectsBelow A .element (valuesBelow .element values ++ []) t.items
      rw [List.append_nil]
      exact ht.inner .element
    | foreign name => exact absurd (hA.json hv).self Bool.false_ne_true

/-! ### two trees -/

/-- a merged tree reflects what the first reflected, then what the second did -/
theorem Reflects.merge (hA : A.Kept caps P) {vs ws : List Value} {a b : Tree}
    (ha : Reflects A vs a) (hb : Reflects A ws b) (hv : ∀ v ∈ vs, P v) (hw : ∀ w ∈ ws, P w) :
    Reflects A (vs ++ ws) (Tree.merge caps a b) := by
  -- on the first tree: what only one of the two has below is taken over with its count
  induction ha generalizing ws b with
  | @intro vs a here keys absent present counted below ih =>
    refine .of_below ?_ ?_ fun s => ?_
    · rw [merge_mk]
      exact hA.merge hv hw here hb.holds
    · rw [merge_eq, keysAmong_append, eraseDups_append_eq, ← keys, ← hb.keys]
      exact keys_mergeProperties a.properties b.properties
    · rw [step?_merge, valuesBelow_append]
      have hbs := hb.inner s
      cases hsa : a.step? s with
      | none =>
        rw [absent s hsa]
        exact hbs
      | some t =>
        cases hsb : b.step? s with
        | none =>
          rw [hsb] at hbs
          have hnil : valuesBelow s ws = [] := hbs
          rw [hnil, List.append_nil]
          exact ⟨present s t hsa, counted s t hsa, below s t hsa⟩
        | some u =>
          rw [hsb] at hbs
          obtain ⟨_, hcount, hu⟩ := hbs
          refine ⟨List.append_ne_nil_of_left_ne_nil (present s t hsa) _, ?_, ?_⟩
          · show (Tree.merge caps t u).here.presence = _
            rw [merge_mk, List.length_append, Step.presence_add, ← counted s t hsa, ← hcount]
            rfl
          · exact ih s t hsa hu (forall_valuesBelow hA.follow hv) (forall_valuesBelow hA.follow hw)

/-! ### samples -/

variable {limit : Int}

theorem reflects_observeSample (hA : A.Kept caps P) {v : Value} (hv : P v)
    (hd : ∀ p ∈ v.parts, (p.1 : Int) ≤ limit) : ∃ t, observeSample caps limit v = .ok t
      ∧ Reflects A [v] t ∧ t.here.presence = 0 := by
  have hd' : ∀ p ∈ v.parts, (0 : Int) + p.1 ≤ limit := by
    intro p hp
    rw [Int.zero_add]
    exact hd p hp
  obtain ⟨hdone, hrec, hkept⟩ := reflects_follow hA hv hd' (Reflects.fresh hA)
  refine ⟨_, ?_, hrec, hkept⟩
  rw [observeSample, Observed.result_of_done hdone]

theorem reflects_foldFrom (hA : A.Kept caps P) {samples : List Value} (hs : ∀ v ∈ samples, P v)
    (hd : ∀ v ∈ samples, ∀ p ∈ v.parts, (p.1 : Int) ≤ limit) {seen : List Value} {m : Tree}
    (hm : Reflects A seen m) (hp : m.here.presence = 0) (hr : ∀ v ∈ seen, P v) :
    ∃ t, foldFrom caps limit (some m) samples = .ok (some t)
      ∧ Reflects A (seen ++ samples) t ∧ t.here.presence = 0 := by
  induction samples generalizing seen m with
  | nil =>
    rw [List.append_nil]
    exact ⟨m, rfl, hm, hp⟩
  | cons v r ih =>
    obtain ⟨hv, hrest⟩ := List.forall_mem_cons.mp hs
    obtain ⟨hdv, hdrest⟩ := List.forall_mem_cons.mp hd
    obtain ⟨t, ht, hrec, htp⟩ := reflects_observeSample hA hv hdv
    have hv' : ∀ w ∈ [v], P w := List.forall_mem_singleton.mpr hv
    have hsv : ∀ w ∈ seen ++ [v], P w := List.forall_mem_append.mpr ⟨hr, hv'⟩
    have hmt : (Tree.merge caps m t).here.presence = 0 := by
      rw [merge_eq]
      show m.here.presence + t.here.presence = 0
      rw [hp, htp]
      rfl
    rw [foldFrom_cons, ht, List.append_cons]
    exact ih hrest hdrest (hm.merge hA hrec hr hv') hmt hsv

/-- the tree of samples that are followed to their end reflects them in order; nothing held them -/
theorem reflects_fold (hA : A.Kept caps P) {samples : List Value} (hne : samples ≠ [])
    (hs : ∀ v ∈ samples, P v) (hd : ∀ v ∈ samples, ∀ p ∈ v.parts, (p.1 : Int) ≤ limit) :
    ∃ t, fold caps limit samples = .ok (some t)
      ∧ Reflects A samples t ∧ t.here.presence = 0 := by
  cases samples with
  | nil => exact absurd rfl hne
  | cons v r =>
    obtain ⟨hv, hrest⟩ := List.forall_mem_cons.mp hs
    obtain ⟨hdv, hdrest⟩ := List.forall_mem_cons.mp hd
    obtain ⟨t, ht, hrec, hp⟩ := reflects_observeSample hA hv hdv
    rw [fold_cons, ht]
    exact reflects_foldFrom hA hrest hdrest hrec hp (List.forall_mem_singleton.mpr hv)

/-- the tree of samples without nans records them -/
theorem records_fold {limit : Nat} {followed : Int}
    (hl : (min limit Value.assuredDepth : Nat) ≤ followed) (hd : 0 ≤ caps.distinct)
    (he : 0 ≤ caps.examples) {samples : List Value} (hne : samples ≠ [])
    (hs : ∀ v ∈ samples, v.Sample limit) : ∃ t, fold caps followed samples = .ok (some t)
      ∧ Records caps samples t ∧ t.here.presence = 0 :=
  reflects_fold (Account.gathered_kept hd he) hne (fun v hv => (hs v hv).regular)
    fun v hv => (hs v hv).followed.within hl

end Tree
end JsonShape
