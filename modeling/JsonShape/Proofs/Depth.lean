import JsonShape.Proofs.Collecting
import JsonShape.Proofs.Written

/-!
# How deep documents are

A schema has two objects for every level at which something was observed: its own, and the one that
holds the schemas of keys.  So in the document of samples that are nested within `n` levels, at most
`2 * n + 2` objects and lists lie one within the other, those aside that the options brought along.
Of the samples it only shows examples, and these are scalars.

* `Value.sortDepth_sortKeys`     a document is as deep before its keys are sorted as after;
* `Tree.Shallow.observe`, `Tree.Shallow.merge`  a tree has no more levels than what is observed;
* `Tree.Shallow.sortDepth_le`    a schema is at most twice as deep as its tree;
* `Schema.sortDepth_step?_le`    the schemas one step down lie within;
* `Document.sortDepth_unsorted_le`  how deep the document of a tree is at most.
-/

namespace JsonShape

/-! ### depth by members -/

namespace Value
variable {n : Nat}

theorem sortDepthItems_le {items : List Value} :
    sortDepthItems items ≤ n ↔ ∀ v ∈ items, v.sortDepth ≤ n := by
  induction items with
  | nil => simp [sortDepthItems]
  | cons v r ih => rw [sortDepthItems, Nat.max_le, ih, List.forall_mem_cons]

theorem sortDepthMembers_le {members : List (String × Value)} :
    sortDepthMembers members ≤ n ↔ ∀ m ∈ members, m.2.sortDepth ≤ n := by
  induction members with
  | nil => simp [sortDepthMembers]
  | cons m r ih => rw [sortDepthMembers, Nat.max_le, ih, List.forall_mem_cons]

theorem sortDepth_arr_le {items : List Value} :
    (arr items).sortDepth ≤ n + 1 ↔ ∀ v ∈ items, v.sortDepth ≤ n := by
  rw [sortDepth, Nat.add_le_add_iff_right, sortDepthItems_le]

theorem sortDepth_obj_le {members : List (String × Value)} :
    (obj members).sortDepth ≤ n + 1 ↔ ∀ m ∈ members, m.2.sortDepth ≤ n := by
  rw [sortDepth, Nat.add_le_add_iff_right, sortDepthMembers_le]

theorem sortDepth_le_of_mem {members : List (String × Value)} {m : String × Value}
    (h : m ∈ members) : m.2.sortDepth + 1 ≤ (obj members).sortDepth :=
  Nat.succ_le_succ (sortDepthMembers_le.mp (Nat.le_refl _) m h)

theorem sortDepth_obj_append (l r : List (String × Value)) :
    (obj (l ++ r)).sortDepth = max (obj l).sortDepth (obj r).sortDepth := by
  have happend : sortDepthMembers (l ++ r) = max (sortDepthMembers l) (sortDepthMembers r) := by
    induction l with
    | nil => exact (Nat.zero_max _).symm
    | cons m l ih => rw [List.cons_append, sortDepthMembers, sortDepthMembers, ih, Nat.max_assoc]
  rw [sortDepth, sortDepth, sortDepth, happend, Nat.add_max_add_right]

theorem sortDepth_obj_perm {l r : List (String × Value)} (h : l.Perm r) :
    (obj l).sortDepth = (obj r).sortDepth := by
  refine congrArg (· + 1) ?_
  induction h with
  | nil => rfl
  | cons m _ ih => rw [sortDepthMembers, sortDepthMembers, ih]
  | swap m n l => exact Nat.max_left_comm _ _ _
  | trans _ _ ih ih' => exact ih.trans ih'

/-- elements of the same depth make lists of the same depth -/
theorem sortDepth_arr_map {f : Value → Value} {items : List Value}
    (h : ∀ v ∈ items, (f v).sortDepth = v.sortDepth) :
    (arr (items.map f)).sortDepth = (arr items).sortDepth := by
  refine congrArg (· + 1) ?_
  induction items with
  | nil => rfl
  | cons v r ih =>
    obtain ⟨hv, hr⟩ := List.forall_mem_cons.mp h
    rw [List.map_cons, sortDepthItems, sortDepthItems, hv, ih hr]

/-- members of the same depth make objects of the same depth -/
theorem sortDepth_obj_map {f : String × Value → Value} {members : List (String × Value)}
    (h : ∀ m ∈ members, (f m).sortDepth = m.2.sortDepth) :
    (obj (members.map fun m => (m.1, f m))).sortDepth = (obj members).sortDepth := by
  refine congrArg (· + 1) ?_
  induction members with
  | nil => rfl
  | cons m r ih =>
    obtain ⟨hm, hr⟩ := List.forall_mem_cons.mp h
    rw [List.map_cons, sortDepthMembers, sortDepthMembers, hm, ih hr]

/-- sorting the keys of a value leaves it as deep as it is -/
theorem sortDepth_sortKeys (v : Value) : v.sortKeys.sortDepth = v.sortDepth := by
  induction v using children_induction with
  | h v ih =>
    cases v with
    | arr items =>
      rw [sortKeys, sortItems_eq_map]
      exact sortDepth_arr_map ih
    | obj members =>
      rw [sortKeys, sortDepth_obj_perm (sortByKey_perm _), sortMembers_eq_map]
      exact sortDepth_obj_map fun m hm => ih m.2 (List.mem_map_of_mem hm)
    | _ => rfl

/-- what lies in a value is nested less -/
theorem NestedWithin.child {v w : Value} (h : v.NestedWithin n) (hw : w ∈ v.children) :
    ∃ k, n = k + 1 ∧ w.NestedWithin k := by
  have hdeep : ∀ p ∈ w.parts, p.1 + 1 ≤ n := fun p hp => h _ (deeper_mem_parts_of_child hw hp)
  have hpos := hdeep _ (self_mem_parts w)
  refine ⟨n - 1, by omega, fun p hp => ?_⟩
  have hp' := hdeep p hp
  omega

end Value

/-! ### trees of so many levels -/

namespace Evidence
variable {caps : Caps}

/-- nothing is nested in the examples that are kept -/
def Flat (e : Evidence) : Prop := ∀ v ∈ e.examples, v.sortDepth = 0

theorem Flat.see {e : Evidence} (h : e.Flat) (v : Value) : (see caps e v).Flat := by
  have hexample : ∀ w ∈ v.example?, w.sortDepth = 0 := by
    intro w hw
    cases v <;> cases hw <;> rfl
  rw [Flat, see_examples]
  cases hv : v.example? with
  | none => exact h
  | some w =>
    show ∀ x ∈ keep caps.examples e.examples w, x.sortDepth = 0
    rw [keep]
    split
    · exact List.forall_mem_append.mpr ⟨h, List.forall_mem_singleton.mpr (hexample w hv)⟩
    · exact h

theorem Flat.merge {a b : Evidence} (ha : a.Flat) (hb : b.Flat) : (merge caps a b).Flat := by
  intro v hv
  have hmem : v ∈ a.examples ++ b.examples := by
    have hup : v ∈ upTo caps.examples (a.examples ++ b.examples) := hv
    rw [upTo] at hup
    split at hup
    · exact List.mem_of_mem_take hup
    · exact List.mem_of_mem_take hup
  exact (List.mem_append.mp hmem).elim (ha v) (hb v)

end Evidence

namespace Tree
variable {caps : Caps} {limit depth : Int} {n : Nat}

/-- a tree of at most so many levels, the root being one, in which no example is nested -/
def Shallow : Nat → Tree → Prop
  | 0, _ => False
  | n + 1, t => t.here.Flat ∧ (∀ p ∈ t.properties, Shallow n p.2) ∧ ∀ u ∈ t.items, Shallow n u

namespace Shallow

theorem fresh : Shallow (n + 1) Tree.fresh := ⟨nofun, nofun, nofun⟩

theorem presentAt (hn : n ≠ 0) (key : String) {l : List (String × Tree)}
    (hl : ∀ p ∈ l, Shallow n p.2) : Shallow n (presentAt key l) := by
  obtain ⟨k, rfl⟩ := Nat.exists_eq_succ_of_ne_zero hn
  have hchild : Shallow (k + 1) ((l.lookup key).getD Tree.fresh) := by
    cases h : l.lookup key with
    | none => exact fresh
    | some u => exact hl _ (mem_of_lookup h)
  exact hchild

theorem observeItems {items : List Value}
    (h : ∀ v ∈ items, n ≠ 0 ∧ ∀ t, Shallow n t → Shallow n (observe caps limit depth v t).tree)
    {t : Option Tree} (ht : ∀ u ∈ t, Shallow n u) :
    ∀ u ∈ (Tree.observeItems caps limit depth items t).1, Shallow n u := by
  refine observeItems_invariant (fun t => ∀ u ∈ t, Shallow n u) ?_ ht
  rintro v hv t ht u ⟨⟩
  obtain ⟨hn, hseen⟩ := h v hv
  obtain ⟨k, rfl⟩ := Nat.exists_eq_succ_of_ne_zero hn
  cases t with
  | none => exact hseen _ fresh
  | some u => exact hseen _ (ht u rfl)

theorem observeMembers {members : List (String × Value)}
    (h : ∀ m ∈ members,
      n ≠ 0 ∧ ∀ t, Shallow n t → Shallow n (observe caps limit depth m.2 t).tree)
    {l : List (String × Tree)} (hl : ∀ p ∈ l, Shallow n p.2) :
    ∀ p ∈ (Tree.observeMembers caps limit depth members l).1, Shallow n p.2 := by
  refine observeMembers_invariant (fun l => ∀ p ∈ l, Shallow n p.2) (fun m hm l hl p hp => ?_) hl
  obtain ⟨hn, hseen⟩ := h m hm
  rcases mem_setProperty hp with rfl | hp
  · exact hseen _ (.presentAt hn m.1 hl)
  · exact hl p hp

/-- a value adds no level below those that it has, however its observation ended -/
theorem observe {v : Value} (hv : v.NestedWithin n) {t : Tree} (ht : Shallow (n + 1) t) :
    Shallow (n + 1) (Tree.observe caps limit depth v t).tree := by
  induction v using Value.children_induction generalizing n depth t with
  | h v ih =>
    have hbelow : ∀ w ∈ v.children, n ≠ 0 ∧ ∀ u, Shallow n u →
        Shallow n (Tree.observe caps limit (depth + 1) w u).tree := by
      intro w hw
      obtain ⟨k, rfl, hk⟩ := hv.child hw
      exact ⟨Nat.succ_ne_zero k, fun u hu => ih w hw hk hu⟩
    obtain ⟨hflat, hproperties, hitems⟩ := ht
    by_cases hroom : limit < depth
    · rw [observe_of_lt hroom]
      exact ⟨hflat, hproperties, hitems⟩
    · cases v using Value.scalar_cases with
      | scalar v hs =>
        rw [observe_scalar hroom hs]
        exact ⟨hflat.see v, hproperties, hitems⟩
      | arr items =>
        rw [observe_arr hroom]
        exact ⟨hflat.see _, hproperties, observeItems hbelow hitems⟩
      | tuple items =>
        rw [observe_tuple hroom]
        exact ⟨hflat.see _, hproperties, observeItems hbelow hitems⟩
      | obj members =>
        rw [observe_obj hroom]
        refine ⟨hflat.see _, observeMembers (fun m hm => ?_) hproperties, hitems⟩
        exact hbelow m.2 (List.mem_map_of_mem hm)
      | foreign name =>
        rw [observe_foreign hroom]
        exact ⟨hflat, hproperties, hitems⟩

theorem merge {a b : Tree} (ha : Shallow n a) (hb : Shallow n b) :
    Shallow n (Tree.merge caps a b) := by
  induction n generalizing a b with
  | zero => exact ha
  | succ n ih =>
    obtain ⟨haf, hap, hai⟩ := ha
    obtain ⟨hbf, hbp, hbi⟩ := hb
    rw [merge_eq]
    refine ⟨haf.merge hbf, fun p hp => ?_, fun u hu => ?_⟩
    · rcases List.mem_append.mp hp with hshared | hnew
      · rw [mergeShared_eq_map] at hshared
        obtain ⟨q, hq, rfl⟩ := List.mem_map.mp hshared
        show Shallow n (joined caps q.2 (b.properties.lookup q.1))
        cases hl : b.properties.lookup q.1 with
        | none => exact hap q hq
        | some u => exact ih (hap q hq) (hbp _ (mem_of_lookup hl))
      · exact hbp p (List.mem_of_mem_filter hnew)
    · cases hi : a.items with
      | none =>
        rw [hi] at hu
        exact hbi u hu
      | some t =>
        rw [hi] at hu hai
        cases hj : b.items with
        | none =>
          rw [hj] at hu
          exact hai u hu
        | some t' =>
          rw [hj] at hu hbi
          cases hu
          exact ih (hai t rfl) (hbi t' rfl)

/-- the tree of samples has a level for their roots, and one for each level of the deepest -/
theorem foldFrom {samples : List Value} (hs : ∀ v ∈ samples, v.NestedWithin n)
    {merged : Option Tree} (hm : ∀ u ∈ merged, Shallow (n + 1) u) {t : Option Tree}
    (h : (foldFrom caps limit merged samples).result = .ok t) : ∀ u ∈ t, Shallow (n + 1) u := by
  induction samples generalizing merged with
  | nil =>
    cases h
    exact hm
  | cons v r ih =>
    obtain ⟨hv, hr⟩ := List.forall_mem_cons.mp hs
    rw [foldFrom_cons, observeSample] at h
    cases hrefusal : (Tree.observe caps limit 0 v Tree.fresh).refusal with
    | some refusal =>
      rw [Observed.result_of_refused hrefusal, Logged.bind_of_eq_error rfl] at h
      cases h
    | none =>
      rw [Observed.result_of_taken hrefusal, Logged.bind_of_eq_ok rfl] at h
      refine ih hr ?_ h
      rintro u ⟨⟩
      have hseen : Shallow (n + 1) (Tree.observe caps limit 0 v Tree.fresh).tree :=
        .observe hv fresh
      cases merged with
      | none => exact hseen
      | some m => exact (hm m rfl).merge hseen

theorem fold {samples : List Value} (hs : ∀ v ∈ samples, v.NestedWithin n) {t : Option Tree}
    (h : (fold caps limit samples).result = .ok t) : ∀ u ∈ t, Shallow (n + 1) u := by
  refine foldFrom hs ?_ h
  rintro u ⟨⟩

end Shallow
end Tree

/-! ### schemas -/

namespace Keywords
variable {P : String × Value → Prop} {name : String}

theorem forall_mem_nonempty {l : List Value} :
    (∀ m ∈ nonempty name l, P m) ↔ (l ≠ [] → P (name, .arr l)) := by
  cases l <;> simp [nonempty]

/-- nothing that a schema says of a position itself is nested, unless the options brought it -/
theorem sortDepth_members_le {k : Keywords} {d : Nat} (he : ∀ v ∈ k.examples, v.sortDepth = 0)
    (ho : ∀ o ∈ k.object, o.additional.sortDepth ≤ d) :
    ∀ m ∈ k.members, m.2.sortDepth ≤ d + 1 := by
  have hlist : ∀ {items : List Value}, (∀ v ∈ items, v.sortDepth = 0) →
      (Value.arr items).sortDepth ≤ d + 1 :=
    fun h => Value.sortDepth_arr_le.mpr fun v hv => h v hv ▸ Nat.zero_le d
  have hscalars : ∀ s : Scalar, s.toValue.sortDepth = 0 := fun s => by cases s <;> rfl
  have htype : k.type.toValue.sortDepth ≤ d + 1 := by
    cases k.type with
    | one tag => exact Nat.zero_le _
    | union tags => exact hlist (by simp [Value.sortDepth])
  have hobject : ∀ m ∈ objectMembers k.object, m.2.sortDepth ≤ d + 1 := by
    cases hk : k.object with
    | none => exact List.forall_mem_nil _
    | some o =>
      simp only [objectMembers, List.forall_mem_append, forall_mem_nonempty,
        List.forall_mem_singleton]
      exact ⟨fun _ => hlist (by simp [Value.sortDepth]), Nat.le_succ_of_le (ho o hk)⟩
  have hscalar : ∀ {α : Type} {f : α → Value} {name : String} (x : Option α),
      (∀ a, (f a).sortDepth = 0) → ∀ m ∈ optional name (x.map f), m.2.sortDepth ≤ d + 1 := by
    intro α f name x hf
    cases x with
    | none => exact List.forall_mem_nil _
    | some a => exact List.forall_mem_singleton.mpr (hf a ▸ Nat.zero_le _)
  simp only [members_eq, List.forall_mem_append, forall_mem_nonempty, List.forall_mem_singleton]
  exact ⟨⟨⟨⟨⟨⟨⟨⟨⟨⟨htype, hobject⟩, hscalar _ fun _ => rfl⟩, hscalar _ fun _ => rfl⟩,
    hscalar _ fun _ => rfl⟩, hscalar _ fun _ => rfl⟩, hscalar _ fun _ => rfl⟩,
    hscalar _ fun _ => rfl⟩, hscalar _ fun _ => rfl⟩,
    fun _ => hlist (by simpa using fun s _ => hscalars s)⟩, fun _ => hlist he⟩

end Keywords

namespace Schema
variable {s u : Schema} {d : Nat}

/-- a schema is two levels deeper than those of keys, and one deeper than that of elements -/
theorem sortDepth_toValue_le (hown : ∀ m ∈ s.own.members, m.2.sortDepth ≤ d + 1)
    (hp : ∀ p ∈ s.properties, p.2.toValue.sortDepth ≤ d)
    (hi : ∀ u ∈ s.items, u.toValue.sortDepth ≤ d) : s.toValue.sortDepth ≤ d + 2 := by
  rw [toValue, Value.sortDepth_obj_le, members_eq]
  simp only [List.forall_mem_append]
  refine ⟨⟨hown, ?_⟩, ?_⟩
  · rw [propertiesMembers]
    split
    · rw [List.forall_mem_singleton, Value.sortDepth_obj_le, List.forall_mem_map]
      exact hp
    · exact List.forall_mem_nil _
  · cases h : s.items with
    | none => exact List.forall_mem_nil _
    | some u => exact List.forall_mem_singleton.mpr (Nat.le_succ_of_le (hi u h))

/-- the schemas one step down lie within -/
theorem sortDepth_step?_le (ho : s.own.object = none → s.properties = []) {x : Step}
    (h : s.step? x = some u) : u.toValue.sortDepth ≤ s.toValue.sortDepth := by
  have hle : ∀ m ∈ s.members, m.2.sortDepth + 1 ≤ s.toValue.sortDepth :=
    fun _ hm => Value.sortDepth_le_of_mem hm
  rw [members_eq] at hle
  cases x with
  | key key =>
    have hmem : (key, u) ∈ s.properties := mem_of_lookup h
    have hsome : s.own.object.isSome = true := by
      cases hobj : s.own.object with
      | none =>
        rw [ho hobj] at hmem
        cases hmem
      | some o => rfl
    let written : List (String × Value) := s.properties.map fun p => (p.1, p.2.toValue)
    have houter : (Value.obj written).sortDepth + 1 ≤ s.toValue.sortDepth :=
      hle ("properties", .obj written) (by simp [propertiesMembers, hsome, written])
    have hinner : u.toValue.sortDepth + 1 ≤ (Value.obj written).sortDepth :=
      Value.sortDepth_le_of_mem (List.mem_map_of_mem (f := fun p => (p.1, p.2.toValue)) hmem)
    omega
  | element =>
    have hitems : s.items = some u := h
    have hin := hle ("items", u.toValue) (by simp [hitems, Keywords.optional])
    exact Nat.le_of_succ_le hin

theorem sortDepth_writtenAfter (heading : List (String × Value)) :
    (s.writtenAfter heading).sortDepth
      = max (Value.obj heading).sortDepth s.toValue.sortDepth := by
  rw [writtenAfter, Value.sortDepth_sortKeys, Value.sortDepth_obj_append]
  rfl

end Schema

/-- a schema is twice as deep as its tree at most, but for what the options say of further keys -/
theorem Tree.Shallow.sortDepth_le {n : Nat} {t : Tree} (h : t.Shallow n) (o : Options)
    (instances : Int) : (Schema.ofTree o instances t).toValue.sortDepth
      ≤ 2 * n + o.additionalProperties.sortDepth := by
  induction n generalizing t instances with
  | zero => exact h.elim
  | succ n ih =>
    obtain ⟨here, properties, items⟩ := t
    obtain ⟨hflat, hproperties, hitems⟩ := h
    have hle : 2 * (n + 1) + o.additionalProperties.sortDepth
        = 2 * n + o.additionalProperties.sortDepth + 2 := by omega
    rw [hle]
    refine Schema.sortDepth_toValue_le (fun m hm => ?_) (fun p hp => ?_) fun u hu => ?_
    · have hexamples : ∀ v ∈ (Schema.keywords o instances here properties).examples,
          v.sortDepth = 0 := by
        show ∀ v ∈ (if o.examples.isTruthy then here.examples else []), v.sortDepth = 0
        split
        · exact hflat
        · exact List.forall_mem_nil _
      have hobject : ∀ k ∈ (Schema.keywords o instances here properties).object,
          k.additional.sortDepth ≤ o.additionalProperties.sortDepth := by
        intro k hk
        obtain ⟨_, hsome⟩ := (Option.ite_none_right_eq_some).mp hk
        cases hsome
        exact Nat.le_refl _
      have hown := Keywords.sortDepth_members_le hexamples hobject m hm
      omega
    · have hp' : p ∈ if here.describesObjects then Schema.ofProperties o properties else [] := hp
      split at hp'
      · rw [Schema.ofProperties_eq_map] at hp'
        obtain ⟨q, hq, rfl⟩ := List.mem_map.mp hp'
        exact ih (hproperties q hq) _
      · cases hp'
    · obtain ⟨_, hitem⟩ := (Option.ite_none_right_eq_some).mp hu
      rw [Schema.ofItems_eq_map] at hitem
      obtain ⟨t, ht, rfl⟩ := Option.map_eq_some_iff.mp hitem
      exact ih (hitems t ht) _

/-! ### documents -/

/-- the depth of the deepest value among the options that a document may show -/
def Options.givenDepth (o : Options) : Nat :=
  max (max o.id.sortDepth o.title.sortDepth) o.additionalProperties.sortDepth

namespace Document
variable {o : Options}

theorem sortDepth_heading_le {schema : Option Schema} :
    (Value.obj (ofOptions o schema).heading).sortDepth ≤ o.givenDepth + 1 := by
  have hgiven : ∀ {name : String} {v : Value}, v.sortDepth ≤ o.givenDepth →
      ∀ m ∈ Keywords.optional name (truthy v), m.2.sortDepth ≤ o.givenDepth := by
    intro name v hv
    rw [truthy]
    split
    · exact List.forall_mem_singleton.mpr hv
    · exact List.forall_mem_nil _
  rw [Value.sortDepth_obj_le, heading]
  simp only [List.forall_mem_append, List.forall_mem_singleton]
  exact ⟨⟨Nat.zero_le _, hgiven (by rw [Options.givenDepth]; omega)⟩,
    hgiven (by rw [Options.givenDepth]; omega)⟩

/-- how deep the document of a tree of so many levels is at most -/
theorem sortDepth_unsorted_le {n : Nat} {t : Option Tree} (ht : ∀ u ∈ t, u.Shallow (n + 1))
    (count : Int) : (ofOptions o (t.map (Schema.ofTree o count))).unsorted.sortDepth
      ≤ 2 * n + 2 + o.givenDepth := by
  have hgiven : o.additionalProperties.sortDepth ≤ o.givenDepth := Nat.le_max_right _ _
  rw [unsorted_eq, Value.sortDepth_obj_append]
  refine Nat.max_le.mpr ⟨Nat.le_trans sortDepth_heading_le (by omega), ?_⟩
  cases t with
  | none =>
    show 0 + 1 ≤ _
    omega
  | some t =>
    have hschema := (ht t rfl).sortDepth_le o count
    show (Schema.ofTree o count t).toValue.sortDepth ≤ _
    omega

end Document
end JsonShape
