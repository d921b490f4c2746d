import JsonShape.Proofs.Rewriting

/-!
# The set of samples

Without examples a schema depends only on which samples there are, not on their order nor on how
often each one is given.  Counts do enter: a key is required if it was present as often as there
were values.  But that only says that all the values have it, which is a matter of the set.

* `Keywords.ofValues_eq_of_mem`          keywords depend on the set of values;
* `Schema.Describes.written_eq_of_mem`   so does what is written at every depth;
* `infer_eq_of_mem`                      so does the inferred schema.
-/

namespace JsonShape
open Std

section
variable {vs ws : List Value}

theorem mem_filterMap_congr {α : Type} {facet : Value → Option α} (h : ∀ v, v ∈ vs ↔ v ∈ ws)
    (a : α) : a ∈ vs.filterMap facet ↔ a ∈ ws.filterMap facet := by
  rw [List.mem_filterMap, List.mem_filterMap]
  simp only [h]

theorem mem_valuesBelow_congr (h : ∀ v, v ∈ vs ↔ v ∈ ws) (x : Step) (v : Value) :
    v ∈ valuesBelow x vs ↔ v ∈ valuesBelow x ws := by
  rw [mem_valuesBelow, mem_valuesBelow]
  simp only [h]

theorem eq_nil_congr {α : Type} {l m : List α} (h : ∀ a, a ∈ l ↔ a ∈ m) : l = [] ↔ m = [] := by
  rw [List.eq_nil_iff_forall_not_mem, List.eq_nil_iff_forall_not_mem]
  simp only [h]

theorem Policy.asks_congr (policy : Policy) (h : ∀ v, v ∈ vs ↔ v ∈ ws) (key : String) :
    policy.Asks vs key ↔ policy.Asks ws key := by
  cases policy with
  | loose => exact Iff.rfl
  | observed =>
    show vs ≠ [] ∧ (∀ v ∈ vs, _) ↔ ws ≠ [] ∧ ∀ v ∈ ws, _
    rw [ne_eq, ne_eq, eq_nil_congr h]
    simp only [h]
  | strict =>
    show (∃ v ∈ vs, _) ↔ ∃ v ∈ ws, _
    simp only [h]

/-! ### one position -/

theorem Evidence.types_eq_of_mem (caps : Caps) (h : ∀ v, v ∈ vs ↔ v ∈ ws) :
    (gather caps vs).types = (gather caps ws).types := by
  apply OrdSet.ext_of_mem
  intro tag
  rw [mem_types, mem_types, Seen, Seen]
  simp only [h]

theorem Evidence.describes_eq_of_mem (caps : Caps) (h : ∀ v, v ∈ vs ↔ v ∈ ws) (x : Step) :
    (gather caps vs).describes x = (gather caps ws).describes x := by
  rw [Bool.eq_iff_iff, describes_iff, describes_iff, Seen, Seen, Seen, Seen]
  simp only [h]

theorem Evidence.candidates_eq_of_mem (h : ∀ v, v ∈ vs ↔ v ∈ ws) :
    candidates vs = candidates ws := by
  apply OrdSet.ext_of_mem
  intro c
  rw [mem_candidates, mem_candidates]
  simp only [h]

theorem Evidence.numbers_eq_of_mem {caps : Caps} (hr : ∀ v ∈ vs, v.Regular)
    (h : ∀ v, v ∈ vs ↔ v ∈ ws) : (gather caps vs).numbers = (gather caps ws).numbers := by
  rw [gather_numbers, gather_numbers]
  refine Bounds.ofList_eq_of_mem Number.weakOn_lt (normal?_not_nan hr) ?_ (mem_filterMap_congr h)
  intro a ha b hb hab hba
  have hnan := normal?_not_nan hr
  have hlevel := Number.level_of_not_lt (hnan a ha) (hnan b hb) hab hba
  have hnormal : ∀ c ∈ vs.filterMap Value.normal?, c.normal = c := by
    intro c hc
    obtain ⟨v, _, hv⟩ := List.mem_filterMap.mp hc
    obtain ⟨n, _, rfl⟩ := Option.map_eq_some_iff.mp hv
    exact Number.normal_normal n
  rw [← hnormal a ha, ← hnormal b hb]
  exact Number.normal_eq_normal hlevel

theorem Bounds.ofList_int_eq_of_mem {l m : List Int} (h : ∀ a, a ∈ l ↔ a ∈ m) :
    ofList l = ofList m :=
  ofList_eq_of_mem weakOn_int_lt (fun _ _ => trivial) (fun _ _ _ _ hab hba => by omega) h

/-- the keywords written for values depend on the set of the values -/
theorem Keywords.ofValues_eq_of_mem {o : Options} (hex : o.examples.isTruthy = false)
    (hr : ∀ v ∈ vs, v.Regular) (h : ∀ v, v ∈ vs ↔ v ∈ ws) : ofValues o vs = ofValues o ws := by
  have htypes := Evidence.types_eq_of_mem o.caps h
  have hobjects : (Evidence.gather o.caps vs).describesObjects
      = (Evidence.gather o.caps ws).describesObjects := by
    rw [Evidence.describesObjects, Evidence.describesObjects, htypes]
  have harrays : (Evidence.gather o.caps vs).describesArrays
      = (Evidence.gather o.caps ws).describesArrays := by
    rw [Evidence.describesArrays, Evidence.describesArrays, htypes]
  have hnumbers : (Evidence.gather o.caps vs).hasNumbers
      = (Evidence.gather o.caps ws).hasNumbers := by
    rw [Evidence.hasNumbers, Evidence.hasNumbers, htypes]
  have htype : (Evidence.gather o.caps vs).typeKeyword
      = (Evidence.gather o.caps ws).typeKeyword := by
    rw [Evidence.typeKeyword_gather, Evidence.typeKeyword_gather, htypes]
  apply Keywords.ext
  · exact htype
  · show (if _ then _ else _) = if _ then _ else _
    rw [hobjects, Policy.keysOf_eq (o.requiredPolicy.asks_congr h)]
  · show (Evidence.gather o.caps vs).sizes.spokenIf _ = Bounds.spokenIf _ _
    rw [harrays, Evidence.gather_sizes, Evidence.gather_sizes,
      Bounds.ofList_int_eq_of_mem (mem_filterMap_congr h)]
  · show (Evidence.gather o.caps vs).lengths.spokenIf _ = Bounds.spokenIf _ _
    rw [htypes, Evidence.gather_lengths, Evidence.gather_lengths,
      Bounds.ofList_int_eq_of_mem (mem_filterMap_congr h)]
  · show (if _ then _ else _) = if _ then _ else _
    rw [htypes, Evidence.gather_formats, Evidence.gather_formats,
      OrdSet.ofList_eq_of_mem (fun _ _ _ _ => LawfulEqOrd.eq_of_compare) (mem_filterMap_congr h)]
  · show (Evidence.gather o.caps vs).numbers.spokenIf _ = Bounds.spokenIf _ _
    rw [hnumbers, Evidence.numbers_eq_of_mem hr h]
  · rw [enum_eq, enum_eq, htype, Evidence.candidates_eq_of_mem h]
  · show (if _ then _ else _) = if _ then _ else _
    rw [hex]
    rfl

end

/-! ### all positions -/

/-- without examples schemas do not tell regular values apart from others with the same members -/
theorem indistinct_of_mem {o : Options} (hex : o.examples.isTruthy = false) :
    Indistinct o id fun vs ws => (∀ v ∈ vs, v.Regular) ∧ ∀ v, v ∈ vs ↔ v ∈ ws where
  below h x := ⟨regular_valuesBelow h.1, mem_valuesBelow_congr h.2 x⟩
  empty h := eq_nil_congr h.2
  describes h x := Evidence.describes_eq_of_mem o.caps h.2 x
  own h := by rw [Keywords.ofValues_eq_of_mem hex h.1 h.2]
  examples h := by rw [Keywords.ofValues_eq_of_mem hex h.1 h.2]

/-- what is written for values depends on the set of the values -/
theorem Schema.Describes.written_eq_of_mem {o : Options} (hex : o.examples.isTruthy = false)
    {vs ws : List Value} {s t : Schema} (hs : s.Describes o vs) (ht : t.Describes o ws)
    (hr : ∀ v ∈ vs, v.Regular) (h : ∀ v, v ∈ vs ↔ v ∈ ws) (heading : List (String × Value)) :
    s.writtenAfter heading = t.writtenAfter heading :=
  hs.written_eq (indistinct_of_mem hex) ht ⟨hr, h⟩ heading

/-- the schema inferred from samples depends on the set of the samples -/
theorem infer_eq_of_mem (m : Machine) {o : Options} (hex : o.examples.isTruthy = false)
    {xs ys : List Value} (hne : xs ≠ []) (hxs : ∀ v ∈ xs, v.Sample o.maxDepth)
    (h : ∀ v, v ∈ xs ↔ v ∈ ys) :
    (infer m o xs).Returns m o fun schema => (infer m o ys).answer = .ok schema := by
  have hys : ∀ v ∈ ys, v.Sample o.maxDepth := fun v hv => hxs v ((h v).mpr hv)
  have hne' : ys ≠ [] := fun hnil => hne ((eq_nil_congr h).mpr hnil)
  obtain ⟨s, hs, hdepth, has⟩ := Inference.answer_infer (m := m) hne hxs
  obtain ⟨t, ht, _, hat⟩ := Inference.answer_infer (m := m) hne' hys
  have hwritten : s.writtenAfter o.heading = t.writtenAfter o.heading :=
    hs.written_eq_of_mem hex ht (fun v hv => (hxs v hv).regular) h o.heading
  rw [← hwritten] at hat
  exact Inference.returns_of_answer has hdepth fun hroom =>
    hat.trans (Machine.answer_of_le hroom)

/-- the options made where nothing is said, but no examples -/
def Options.plain : Options := { Options.default with examples := .bool false }

theorem infer_eq_of_mem_swap : ∃ schema,
    (infer .least .plain [.obj [("a", .int 2), ("b", .null)], .arr [.str "x"]]).answer = .ok schema
      ∧ (infer .least .plain [.arr [.str "x"], .obj [("a", .int 2), ("b", .null)],
          .arr [.str "x"]]).answer = .ok schema := by
  refine (infer_eq_of_mem .least rfl (List.cons_ne_nil _ _) (by decide) fun v => ?_).exists_of_le
    (by decide)
  simp only [List.mem_cons, List.not_mem_nil, or_false]
  constructor
  · intro h
    exact h.symm.imp_right Or.inl
  · intro h
    rcases h with h | h | h
    · exact Or.inr h
    · exact Or.inl h
    · exact Or.inr h

end JsonShape
