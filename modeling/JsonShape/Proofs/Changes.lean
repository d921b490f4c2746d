import JsonShape.Inference
import JsonShape.Proofs.Keys
import JsonShape.Proofs.Settings

/-!
# Changed options

Changes are set into the row of all choices before it is read again.  A change by name takes the
place of the old choice; one by the second spelling goes last, and so prevails over the name,
whichever of the two was said first.  What an option becomes does not depend on the order of the
changes.

* `Options.foldl_setPair`        the row after all changes;
* `Options.Becomes.prevails`     what an option becomes prevails in it;
* `Options.override_of_known`    changes of known names are judged by what the options become;
* `inferWith_exact`              what is inferred under changed options, or the fault.
-/

namespace JsonShape

namespace Options

/-! ### the row after changes -/

section
variable {row : List (String × Value)} {p : String × Value}

theorem setPair_of_mem (hrow : (row.map Prod.fst).Nodup) (h : p.1 ∈ row.map Prod.fst) :
    setPair row p = row.map fun q => if q.1 = p.1 then p else q := by
  induction row with
  | nil => cases h
  | cons q r ih =>
    obtain ⟨hq, hr⟩ := List.nodup_cons.mp hrow
    rw [setPair, List.map_cons]
    by_cases hp : q.1 = p.1
    · have hrest : ∀ x ∈ r, (if x.1 = p.1 then p else x) = x := by
        intro x hx
        refine if_neg fun hxp => hq ?_
        rw [hp, ← hxp]
        exact List.mem_map_of_mem hx
      rw [if_pos hp, if_pos hp, List.map_congr_left hrest, List.map_id']
    · have hmem : p.1 ∈ r.map Prod.fst :=
        (List.mem_cons.mp h).resolve_left fun h => hp h.symm
      rw [if_neg hp, if_neg hp, ih hr hmem]

theorem setPair_of_not_mem (h : p.1 ∉ row.map Prod.fst) : setPair row p = row ++ [p] := by
  induction row with
  | nil => rfl
  | cons q r ih =>
    rw [List.map_cons, List.mem_cons, not_or] at h
    rw [setPair, if_neg fun hq => h.1 hq.symm, ih h.2, List.cons_append]

end

/-- the pairs of a row keep their places and take the values of the changes; the changes of other
names follow -/
theorem foldl_setPair {row changes : List (String × Value)} (hrow : (row.map Prod.fst).Nodup)
    (hchanges : (changes.map Prod.fst).Nodup) :
    changes.foldl setPair row = (row.map fun q => (q.1, (changes.lookup q.1).getD q.2))
      ++ changes.filter fun p => p.1 ∉ row.map Prod.fst := by
  induction changes generalizing row with
  | nil => simp
  | cons p r ih =>
    obtain ⟨hp, hr⟩ := List.nodup_cons.mp hchanges
    have hnone : r.lookup p.1 = none := lookup_eq_none.mpr hp
    rw [List.foldl_cons]
    by_cases h : p.1 ∈ row.map Prod.fst
    · have hkeys : (row.map fun q => if q.1 = p.1 then p else q).map Prod.fst
          = row.map Prod.fst := by
        rw [List.map_map]
        refine List.map_congr_left fun q _ => ?_
        by_cases hq : q.1 = p.1
        · simp [hq]
        · simp [hq]
      rw [setPair_of_mem hrow h, ih (by rwa [hkeys]) hr, hkeys, List.map_map]
      congr 1
      · refine List.map_congr_left fun q _ => ?_
        rw [Function.comp_apply, List.lookup_cons]
        by_cases hq : q.1 = p.1
        · simp [hq, hnone]
        · simp [hq, beq_eq_false_iff_ne.mpr hq]
      · simp [h]
    · have hkeys : ((row ++ [p]).map Prod.fst).Nodup := by
        rw [List.map_append, List.map_singleton]
        exact List.nodup_append.mpr ⟨hrow, List.pairwise_singleton _ _,
          fun a ha b hb hab => h (by rwa [← List.mem_singleton.mp hb, ← hab])⟩
      rw [setPair_of_not_mem h, ih hkeys hr, List.map_append, List.map_singleton, hnone,
        List.append_assoc]
      congr 1
      · refine List.map_congr_left fun q hq => ?_
        have hne : q.1 ≠ p.1 := fun he => h (he ▸ List.mem_map_of_mem hq)
        rw [List.lookup_cons, beq_eq_false_iff_ne.mpr hne]
      · rw [List.filter_cons, if_pos (by simpa using h), List.singleton_append]
        congr 1
        refine List.filter_congr fun q hq => ?_
        have hne : q.1 ≠ p.1 := fun he => hp (he ▸ List.mem_map_of_mem hq)
        simp [hne]

/-! ### what options become -/

/-- what an option becomes: what its second spelling is changed to, else what its name is changed
to, else the choice that it had -/
inductive Becomes (o : Options) (changes : List (String × Value)) (f : Field) : Value → Prop where
  | byAlias {second : String} {v : Value} (spelling : f.alias? = some second)
      (said : (second, v) ∈ changes) : Becomes o changes f v
  | byName {v : Value} (unaliased : ∀ p ∈ changes, f.alias? ≠ some p.1)
      (said : (f.name, v) ∈ changes) : Becomes o changes f v
  | unchanged (unsaid : ∀ p ∈ changes, ¬ f.Spelled p.1) : Becomes o changes f (o.get f)

section
variable {o : Options} {changes : List (String × Value)} {f : Field} {v : Value}

theorem Becomes.congr {changes' : List (String × Value)} (h : ∀ p, p ∈ changes ↔ p ∈ changes') :
    o.Becomes changes f v → o.Becomes changes' f v
  | .byAlias spelling said => .byAlias spelling ((h _).mp said)
  | .byName unaliased said => .byName (fun p hp => unaliased p ((h p).mpr hp)) ((h _).mp said)
  | .unchanged unsaid => .unchanged fun p hp => unsaid p ((h p).mpr hp)

theorem exists_becomes (o : Options) (changes : List (String × Value)) (f : Field) :
    ∃ v, o.Becomes changes f v := by
  by_cases halias : ∃ p ∈ changes, f.alias? = some p.1
  · obtain ⟨p, hp, h⟩ := halias
    exact ⟨p.2, .byAlias h hp⟩
  · have hunaliased : ∀ p ∈ changes, f.alias? ≠ some p.1 := fun p hp h => halias ⟨p, hp, h⟩
    by_cases hname : ∃ p ∈ changes, p.1 = f.name
    · obtain ⟨p, hp, h⟩ := hname
      exact ⟨p.2, .byName hunaliased (h ▸ hp)⟩
    · refine ⟨o.get f, .unchanged fun p hp h => ?_⟩
      exact h.elim (fun h => hname ⟨p, hp, h⟩) (hunaliased p hp)

/-- the names of options, in the order of the row -/
theorem keys_toPairs (o : Options) : o.toPairs.map Prod.fst = Field.all.map Field.name := by
  rw [toPairs, List.map_map]
  rfl

theorem nodup_keys_toPairs (o : Options) : (o.toPairs.map Prod.fst).Nodup := by
  rw [keys_toPairs]
  decide +kernel

theorem name_mem_keys (o : Options) (f : Field) : f.name ∈ o.toPairs.map Prod.fst := by
  rw [keys_toPairs]
  exact List.mem_map_of_mem (Field.mem_all f)

/-- a second spelling is not the name of any option -/
theorem alias_not_mem_keys {second : String} (h : f.alias? = some second) :
    second ∉ o.toPairs.map Prod.fst := by
  rw [keys_toPairs]
  cases f <;> cases h <;> decide +kernel

/-- the changes that follow the row -/
def following (o : Options) (changes : List (String × Value)) : List (String × Value) :=
  changes.filter fun p => p.1 ∉ o.toPairs.map Prod.fst

theorem foldl_setPair_toPairs (o : Options) (distinct : (changes.map Prod.fst).Nodup) :
    changes.foldl setPair o.toPairs
      = (Field.all.map fun g => (g.name, (changes.lookup g.name).getD (o.get g)))
        ++ o.following changes := by
  rw [foldl_setPair o.nodup_keys_toPairs distinct, following, toPairs, List.map_map]
  rfl

/-- where the second spelling of an option is not changed, its name prevails -/
theorem prevails_name (distinct : (changes.map Prod.fst).Nodup)
    (unaliased : ∀ p ∈ changes, f.alias? ≠ some p.1) :
    Prevails (changes.foldl setPair o.toPairs) f ((changes.lookup f.name).getD (o.get f)) := by
  obtain ⟨before, after, hall⟩ := List.append_of_mem (Field.mem_all f)
  have hnodup : f ∉ after := by
    have h : (before ++ f :: after).Nodup := by
      rw [← hall]
      decide
    exact (List.nodup_cons.mp (List.nodup_append.mp h).2.1).1
  rw [foldl_setPair_toPairs o distinct, hall, List.map_append, List.map_cons, List.append_assoc,
    List.cons_append]
  refine .last rfl (.inl rfl) fun p hp hspelled => ?_
  rcases List.mem_append.mp hp with hp | hp
  · obtain ⟨g, hg, rfl⟩ := List.mem_map.mp hp
    exact hnodup (hspelled.unique (.inl rfl) ▸ hg)
  · obtain ⟨hp, hfollows⟩ := List.mem_filter.mp hp
    rcases hspelled with h | h
    · exact absurd (h ▸ o.name_mem_keys f) (by simpa using hfollows)
    · exact unaliased p hp h

/-- what an option becomes prevails in the row after the changes -/
theorem Becomes.prevails (distinct : (changes.map Prod.fst).Nodup) (h : o.Becomes changes f v) :
    Prevails (changes.foldl setPair o.toPairs) f v := by
  cases h with
  | @byAlias second v spelling said =>
    have hmem : (second, v) ∈ o.following changes :=
      List.mem_filter.mpr ⟨said, by simpa using alias_not_mem_keys spelling⟩
    obtain ⟨before, after, hsplit⟩ := List.append_of_mem hmem
    rw [foldl_setPair_toPairs o distinct, hsplit, ← List.append_assoc]
    refine .last rfl (.inr spelling) fun p hp hspelled => ?_
    have hfollows : p ∈ o.following changes := by
      rw [hsplit]
      exact List.mem_append_right _ (List.mem_cons_of_mem _ hp)
    rcases hspelled with hname | halias
    · have hkeys := (List.mem_filter.mp hfollows).2
      exact absurd (hname ▸ o.name_mem_keys f) (by simpa using hkeys)
    · have hdistinct : ((o.following changes).map Prod.fst).Nodup :=
        distinct.sublist (List.filter_sublist.map _)
      rw [hsplit, List.map_append, List.map_cons] at hdistinct
      have hone : second ∉ after.map Prod.fst :=
        (List.nodup_cons.mp (List.nodup_append.mp hdistinct).2.1).1
      rw [spelling] at halias
      rw [Option.some.inj halias] at hone
      exact hone (List.mem_map_of_mem hp)
  | byName unaliased said =>
    have h := prevails_name (o := o) distinct unaliased
    rwa [(lookup_iff_mem distinct).mpr said] at h
  | unchanged unsaid =>
    have h := prevails_name (o := o) distinct fun p hp halias => unsaid p hp (.inr halias)
    have hnone : changes.lookup f.name = none := by
      rw [lookup_eq_none]
      intro hname
      obtain ⟨p, hp, hpf⟩ := List.mem_map.mp hname
      exact unsaid p hp (.inl hpf)
    rwa [hnone] at h

/-- no changes are read as the row itself -/
theorem override_eq (o : Options) (changes : List (String × Value)) :
    o.override changes = ofPairs (changes.foldl setPair o.toPairs) := by
  cases changes with
  | nil => exact (ofPairs_toPairs o).symm
  | cons p r => rfl

/-- changes of known names are judged by what the options become -/
theorem override_of_known (distinct : (changes.map Prod.fst).Nodup)
    (known : ∀ p ∈ changes, Field.Known p.1) :
    ∃ choice, (∀ f v, o.Becomes changes f v ↔ v = choice f)
      ∧ o.override changes = ofChoice choice := by
  have hknown : ∀ p ∈ changes.foldl setPair o.toPairs, Field.Known p.1 := by
    rw [foldl_setPair_toPairs o distinct]
    intro p hp
    rcases List.mem_append.mp hp with hp | hp
    · obtain ⟨g, _, rfl⟩ := List.mem_map.mp hp
      exact ⟨g, .inl rfl⟩
    · exact known p (List.mem_filter.mp hp).1
  obtain ⟨choice, hchoice, hpairs⟩ := ofPairs_of_known hknown
  refine ⟨choice, fun f v => ⟨fun h => (hchoice f v).mp (h.prevails distinct), ?_⟩,
    (o.override_eq changes).trans hpairs⟩
  rintro rfl
  obtain ⟨v, hv⟩ := o.exists_becomes changes f
  rwa [← (hchoice f v).mp (hv.prevails distinct)]

/-- the first change of an unknown name is refused -/
theorem override_of_unknown (distinct : (changes.map Prod.fst).Nodup)
    {before after : List (String × Value)} {name : String}
    (split : changes = before ++ (name, v) :: after) (known : ∀ p ∈ before, Field.Known p.1)
    (h : ¬ Field.Known name) : o.override changes = .error (.unknown name) := by
  have hfollows : name ∉ o.toPairs.map Prod.fst := by
    intro hname
    obtain ⟨p, hp, rfl⟩ := List.mem_map.mp hname
    obtain ⟨f, _, rfl⟩ := List.mem_map.mp hp
    exact h ⟨f, .inl rfl⟩
  rw [override_eq, foldl_setPair_toPairs o distinct, following, split, List.filter_append,
    List.filter_cons, if_pos (by simpa using hfollows), ← List.append_assoc]
  refine ofPairs_of_unknown rfl (fun p hp => ?_) h
  rcases List.mem_append.mp hp with hp | hp
  · obtain ⟨g, _, rfl⟩ := List.mem_map.mp hp
    exact ⟨g, .inl rfl⟩
  · exact known p (List.mem_filter.mp hp).1

/-- the order of changes of known names does not matter -/
theorem override_perm {changes' : List (String × Value)} (h : changes'.Perm changes)
    (distinct : (changes.map Prod.fst).Nodup) (known : ∀ p ∈ changes, Field.Known p.1) :
    o.override changes' = o.override changes := by
  obtain ⟨choice, hchoice, hjudged⟩ := override_of_known (o := o) distinct known
  obtain ⟨choice', hchoice', hjudged'⟩ := override_of_known (o := o)
    ((h.map Prod.fst).nodup_iff.mpr distinct) fun p hp => known p (h.mem_iff.mp hp)
  have hsame : choice' = choice := by
    funext f
    exact (hchoice f _).mp (((hchoice' f _).mpr rfl).congr fun p => h.mem_iff)
  rw [hjudged, hjudged', hsame]

/-- changes to what is chosen already change nothing -/
theorem override_same (distinct : (changes.map Prod.fst).Nodup)
    (same : ∀ p ∈ changes, ∃ f : Field, f.Spelled p.1 ∧ p.2 = o.get f) :
    o.override changes = .ok o := by
  have hvalue : ∀ {f : Field} {p : String × Value}, p ∈ changes → f.Spelled p.1 →
      p.2 = o.get f := by
    intro f p hp hf
    obtain ⟨g, hg, hpg⟩ := same p hp
    rw [hpg, hg.unique hf]
  obtain ⟨choice, hchoice, hjudged⟩ := override_of_known (o := o) distinct
    fun p hp => (same p hp).imp fun _ h => h.1
  have hstays : ∀ {f : Field} {v : Value}, o.Becomes changes f v → v = o.get f := by
    intro f v h
    cases h with
    | byAlias spelling said => exact hvalue said (.inr spelling)
    | byName _ said => exact hvalue said (.inl rfl)
    | unchanged _ => rfl
  have hget : choice = o.get := funext fun f => hstays ((hchoice f _).mpr rfl)
  rw [hjudged, hget, ofChoice_get]

end

end Options

/-- options that are refused are refused before the changes; then the first change of an unknown
name is; otherwise what the options become is judged, whatever the order of the changes, and changes
to what is chosen already leave all as it was -/
theorem inferWith_exact (m : Machine) (request : Options.Request)
    {changes : List (String × Value)} (distinct : (changes.map Prod.fst).Nodup)
    (samples : List Value) :
    (∀ fault, request.read = .error fault → inferWith m request changes samples = .error fault)
      ∧ ∀ o, request.read = .ok o →
        (∀ before name v after, changes = before ++ (name, v) :: after →
            (∀ p ∈ before, Field.Known p.1) → ¬ Field.Known name →
              inferWith m request changes samples = .error (.unknown name))
          ∧ ((∀ p ∈ changes, Field.Known p.1) →
            (∃ choice outcome, (∀ f v, o.Becomes changes f v ↔ v = choice f)
                ∧ Options.Judged choice outcome
                ∧ inferWith m request changes samples
                  = outcome.map fun changed => infer m changed samples)
              ∧ ∀ changes', changes'.Perm changes →
                inferWith m request changes' samples = inferWith m request changes samples)
          ∧ ((∀ p ∈ changes, ∃ f : Field, f.Spelled p.1 ∧ p.2 = o.get f) →
            inferWith m request changes samples = .ok (infer m o samples)) := by
  refine ⟨fun fault hread => ?_, fun o hread => ?_⟩
  · rw [inferWith, hread]
    rfl
  · have hinfer : ∀ changes', inferWith m request changes' samples
        = (o.override changes').map fun changed => infer m changed samples := by
      intro changes'
      rw [inferWith, hread]
      show (o.override changes' >>= fun changed => pure (infer m changed samples)) = _
      cases o.override changes' <;> rfl
    refine ⟨fun before name v after split known h => ?_, fun known => ⟨?_, fun changes' h => ?_⟩,
      fun same => ?_⟩
    · rw [hinfer, Options.override_of_unknown distinct split known h]
      rfl
    · obtain ⟨choice, hchoice, hjudged⟩ := Options.override_of_known (o := o) distinct known
      refine ⟨choice, Options.ofChoice choice, hchoice, Options.ofChoice_judged choice, ?_⟩
      rw [hinfer, hjudged]
    · rw [hinfer, hinfer, Options.override_perm h distinct known]
    · rw [hinfer, Options.override_same distinct same]
      rfl

/-- a threshold and a title -/
def asked : Options.Request := .said [("enum_threshold", .int 3), ("title", .str "Orders")]

/-- another threshold, twice: the second time by name, and badly -/
def disputed : List (String × Value) :=
  [("enumThreshold", .int 5), ("enum_threshold", .bool true), ("max_depth", .int 7)]

theorem inferWith_exact_disputed :
    (∃ changed, inferWith .least asked disputed [.int 1] = .ok (infer .least changed [.int 1])
        ∧ changed.get .enumThreshold = .int 5 ∧ changed.get .title = .str "Orders"
        ∧ inferWith .least asked disputed.reverse [.int 1] = .ok (infer .least changed [.int 1]))
      ∧ inferWith .least asked (("color", .null) :: disputed) [.int 1] = .error (.unknown "color")
      ∧ inferWith .least (.said [("draft", .null)]) (("color", .null) :: disputed) [.int 1]
        = .error (.badDraft .null)
      ∧ ∃ o, inferWith .least asked [("enumThreshold", .int 3)] [.int 1]
        = .ok (infer .least o [.int 1]) := by
  have hdistinct : (disputed.map Prod.fst).Nodup := by decide
  have hdistinct' : ((("color", Value.null) :: disputed).map Prod.fst).Nodup := by decide
  obtain ⟨o, hread, htitle, hold⟩ : ∃ o, asked.read = .ok o ∧ o.get .title = .str "Orders"
      ∧ o.get .enumThreshold = .int 3 := ⟨_, rfl, rfl, rfl⟩
  have hknown : ∀ p ∈ disputed, Field.Known p.1 := by decide +kernel
  refine ⟨?_, ?_, ?_, o, ?_⟩
  · obtain ⟨⟨choice, outcome, hchoice, hjudged, hinfer⟩, hperm⟩ :=
      ((inferWith_exact .least asked hdistinct [.int 1]).2 o hread).2.1 hknown
    have hthreshold : choice .enumThreshold = .int 5 :=
      ((hchoice _ _).mp (.byAlias rfl List.mem_cons_self)).symm
    have hstays : choice .title = o.get .title :=
      ((hchoice _ _).mp (.unchanged (by decide +kernel))).symm
    obtain ⟨found, hfound⟩ : ∃ found, inferWith .least asked disputed [.int 1] = .ok found :=
      ⟨_, rfl⟩
    cases outcome with
    | error fault =>
      rw [hinfer] at hfound
      cases hfound
    | ok changed =>
      refine ⟨changed, hinfer, (hjudged.kept _ rfl _).trans hthreshold,
        (hjudged.kept _ rfl _).trans (hstays.trans htitle), ?_⟩
      exact (hperm _ (List.reverse_perm disputed)).trans hinfer
  · exact ((inferWith_exact .least asked hdistinct' [.int 1]).2 o hread).1 [] "color" .null _ rfl
      (by simp) (by decide +kernel)
  · exact (inferWith_exact .least _ hdistinct' [.int 1]).1 _ rfl
  · refine ((inferWith_exact .least asked (by decide) [.int 1]).2 o hread).2.2 fun p hp => ?_
    rw [List.mem_singleton.mp hp]
    exact ⟨.enumThreshold, .inr rfl, hold.symm⟩

end JsonShape
