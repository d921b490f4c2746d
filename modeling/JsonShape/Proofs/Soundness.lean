import JsonShape.Proofs.Answer

/-!
# Samples are valid

Every sample is valid for the schema inferred from the samples, unless keys are required that some
sample does not have.  It is enough to look at one position: the keywords written for a list of
values admit each of them.  One step down there is a list of values again.

* `Admitted.of_mem`                      the keywords written for values admit these;
* `Schema.Describes.validates_of_mem`    a schema validates the values that it describes;
* `infer_validates`                      the inferred schema validates the samples.
-/

namespace JsonShape

/-! ### one position -/

namespace Admitted
variable {o : Options} {ρ : Reading} {values : List Value} {v : Value}

/-- the keywords written for values admit these, but for objects that may not have all keys -/
theorem of_mem_of_keys (hp : ∀ members, v = .obj members → o.requiredPolicy ≠ .strict)
    (hr : ∀ v ∈ values, v.Regular) (hv : v ∈ values) : Admitted o ρ values v where
  type := Evidence.typeKeyword_of_mem hr hv
  required k hk members hmem key hkey := by
    obtain ⟨_, rfl⟩ := Keywords.mem_object_ofValues.mp hk
    rw [Policy.mem_keysOf] at hkey
    have hfollow := hkey.follow_ne_nil (hp members hmem) v hv
    rw [hmem] at hfollow
    cases hl : members.lookup key with
    | some _ => rfl
    | none =>
      have hnil : (Value.obj members).follow (.key key) = [] := congrArg Option.toList hl
      exact absurd hnil hfollow
  others k hk w hw := by
    have hnil : Value.others (keysAmong values) v = [] := by
      rw [Value.others_eq_nil]
      intro key hkey
      exact List.mem_flatMap.mpr ⟨v, hv, hkey⟩
    rw [hnil] at hw
    cases hw
  sizes n hn := by
    have hmem : n ∈ values.filterMap Value.size? := List.mem_filterMap.mpr ⟨v, hv, hn⟩
    refine Bounds.spokenIf_admits fun _ => ?_
    rw [Evidence.gather_sizes]
    exact Bounds.admits_of_mem weakOn_int_lt (fun _ _ => trivial) hmem
  lengths n hn := by
    have hmem : n ∈ values.filterMap Value.length? := List.mem_filterMap.mpr ⟨v, hv, hn⟩
    refine Bounds.spokenIf_admits fun _ => ?_
    rw [Evidence.gather_lengths]
    exact Bounds.admits_of_mem weakOn_int_lt (fun _ _ => trivial) hmem
  format f hf outcome hout := by
    obtain ⟨_, _, _, hall⟩ := Keywords.mem_format_ofValues.mp hf
    exact hall outcome (List.mem_filterMap.mpr ⟨v, hv, hout⟩)
  numbers n hn := by
    have hmem : n.normal ∈ values.filterMap Value.normal? :=
      List.mem_filterMap.mpr ⟨v, hv, congrArg (Option.map Number.normal) hn⟩
    refine Bounds.spokenIf_admits fun _ => ?_
    rw [Evidence.gather_numbers, ← Bounds.admits_normal]
    exact Bounds.admits_of_mem Number.weakOn_lt (Evidence.normal?_not_nan hr) hmem
  enum hne := by
    obtain ⟨htype, _, heq⟩ := Keywords.enum_ofValues hne
    have htag := Evidence.tag_of_enumerable htype (Evidence.typeKeyword_of_mem hr hv)
    obtain ⟨s, hs, hc⟩ := Value.candidate?_of_tag htag
    have hmem : s.normal.candidate ∈ (Evidence.candidates values).toList :=
      Evidence.mem_candidates.mpr ⟨v, hv, hc⟩
    obtain ⟨x, hx, hsame⟩ := Evidence.sameAs_enumeration.mpr hmem
    rw [heq]
    exact ⟨x, hx, s, hs, hsame⟩

/-- the keywords written for values admit these -/
theorem of_mem (hp : o.requiredPolicy ≠ .strict) (hr : ∀ v ∈ values, v.Regular) (hv : v ∈ values) :
    Admitted o ρ values v :=
  of_mem_of_keys (fun _ _ => hp) hr hv

end Admitted

/-! ### all positions -/

/-- a schema validates the values that it describes, at every depth -/
theorem Schema.Describes.validates_of_mem {o : Options} {ρ : Reading}
    (hp : o.requiredPolicy ≠ .strict) {v : Value} {values : List Value} {s : Schema}
    (h : s.Describes o values) (hr : ∀ v ∈ values, v.Regular) (hv : v ∈ values)
    {heading : List (String × Value)} (hh : (heading.map Prod.fst).Sublist headings) :
    (s.writtenAfter heading).validates ρ v = true := by
  induction v using Value.follow_induction generalizing values s heading with
  | h v ih =>
    have hbare : (([] : List (String × Value)).map Prod.fst).Sublist headings :=
      List.nil_sublist headings
    rw [h.validates_iff hh]
    refine ⟨Admitted.of_mem hp hr hv, fun x u hu w hw => ?_⟩
    have hmem : w ∈ valuesBelow x values := mem_valuesBelow.mpr ⟨v, hv, hw⟩
    rcases h.step? x with ⟨u', hu', _, _, hbelow⟩ | ⟨hnone, _⟩
    · rw [hu] at hu'
      cases hu'
      exact ih x w hw hbelow (regular_valuesBelow hr) hmem hbare
    · rw [hu] at hnone
      cases hnone

/-- the schema inferred from samples validates each of them -/
theorem infer_validates (m : Machine) {o : Options} (hp : o.requiredPolicy ≠ .strict) (ρ : Reading)
    {samples : List Value} (hne : samples ≠ []) (hs : ∀ v ∈ samples, v.Sample o.maxDepth) :
    (infer m o samples).Returns m o fun schema => ∀ v ∈ samples, schema.validates ρ v = true :=
  Inference.returns_of hne hs fun _ h _ hv =>
    h.validates_of_mem hp (fun w hw => (hs w hw).regular) hv o.heading_names

/-- two objects with the same keys, the values of different kinds -/
def twoRecords : List Value :=
  [.obj [("n", .int 1), ("list", .arr [.null, .str "a"])],
    .obj [("n", .num (.inf true)), ("list", .tuple [])]]

theorem infer_validates_twoRecords : ∃ schema,
    (infer .least .default twoRecords).answer = .ok schema
      ∧ ∀ v ∈ twoRecords, schema.validates (fun _ _ => false) v = true :=
  (infer_validates .least (by decide) _ (by decide) (by decide)).exists_of_le (by decide)

end JsonShape
