import JsonShape.Proofs.Answer

/-!
# More samples widen a schema

What is valid for the schema of some samples stays valid when there are more of them, if bounds are
written, no further keys are allowed, and not every key seen is required.  At one position the
reason is the same for each keyword: where the wider schema says something, the narrow one said it
of fewer values.

* `Admitted.append`                   at one position, what is admitted stays admitted;
* `Schema.Describes.validates_wider`  and so at all positions;
* `infer_widens`                      the schema inferred from more samples validates no less.
-/

namespace JsonShape

/-- no further keys are allowed, bounds are written, and not every key seen is required -/
structure Options.Tight (o : Options) : Prop where
  closed : o.additionalProperties = .bool false
  bounded : o.minmax.isTruthy = true
  lenient : o.requiredPolicy ≠ .strict

theorem Policy.Asks.of_append {policy : Policy} {vs ws : List Value} {key : String}
    (h : policy.Asks (vs ++ ws) key) (hp : policy ≠ .strict) (hne : vs ≠ []) :
    policy.Asks vs key := by
  have hall := h.follow_ne_nil hp
  cases policy with
  | loose => exact h
  | observed => exact ⟨hne, fun v hv => hall v (List.mem_append_left ws hv)⟩
  | strict => exact absurd rfl hp

namespace Admitted
variable {o : Options} {ρ : Reading} {values : List Value} {v : Value}

theorem exists_seen_tag (h : Admitted o ρ values v) (hne : values ≠ [])
    (hr : ∀ v ∈ values, v.Regular) : ∃ tag, Seen values tag ∧ tag.admits v = true := by
  obtain ⟨tag, hseen⟩ := exists_seen hne hr
  exact (Evidence.typeKeyword_admits hseen).mp h.type

theorem describes (h : Admitted o ρ values v) (hne : values ≠ []) (hr : ∀ v ∈ values, v.Regular)
    {x : Step} (hv : v.tag? = some x.tag) (hrival : ¬ Seen values x.rival) :
    (Evidence.gather o.caps values).describes x = true := by
  have hx : x.tag ≠ .integer := by
    cases x with
    | key _ => exact (by decide : Tag.object ≠ .integer)
    | element => exact (by decide : Tag.array ≠ .integer)
  exact Evidence.describes_iff.mpr ⟨Seen.of_admits (h.exists_seen_tag hne hr) hv hx, hrival⟩

/-- where objects are described and no further keys allowed, all keys are those of the values -/
theorem keys_known (h : Admitted o ρ values v) (ho : o.additionalProperties = .bool false)
    (hd : (Evidence.gather o.caps values).describesObjects = true) :
    ∀ k ∈ v.keys, k ∈ keysAmong values := by
  have hobject : (Keywords.ofValues o values).object
      = some ⟨o.requiredPolicy.keysOf values, o.additionalProperties⟩ := if_pos hd
  rw [← Value.others_eq_nil, List.eq_nil_iff_forall_not_mem]
  intro w hw
  have hfalse := h.others _ hobject w hw
  rw [ho] at hfalse
  cases hfalse

/-- where nothing was found one step down, what is admitted has nothing there -/
theorem follow_eq_nil (h : Admitted o ρ values v) (ho : o.Tight) {x : Step}
    (hd : (Evidence.gather o.caps values).describes x = true) (hnil : valuesBelow x values = []) :
    v.follow x = [] := by
  cases x with
  | key k =>
    apply Classical.byContradiction
    intro hne
    have hknown := h.keys_known ho.closed hd k (Value.mem_keys.mpr hne)
    exact mem_keysAmong.mp hknown hnil
  | element =>
    cases hsize : v.size? with
    | none =>
      cases v with
      | arr _ => cases hsize
      | tuple _ => cases hsize
      | _ => rfl
    | some n =>
      have hin := Bounds.admits_of_spokenIf (h.sizes n hsize)
        (Bool.and_eq_true_iff.mpr ⟨hd, ho.bounded⟩)
      rw [Evidence.gather_sizes, Bounds.admits_ofList weakOn_int_lt (fun _ _ => trivial)
        (sizes_ne_nil (Evidence.describesArrays_iff.mp hd).1) trivial] at hin
      obtain ⟨_, b, hb, hbn⟩ := hin
      obtain ⟨w, hw, hwb⟩ := List.mem_filterMap.mp hb
      have hempty : w.follow .element = [] := List.flatMap_eq_nil_iff.mp hnil w hw
      have hb0 := Value.length_of_size? hwb
      have hn := Value.length_of_size? hsize
      rw [hempty] at hb0
      have hlen : (v.follow .element).length = 0 := by
        simp only [List.length_nil] at hb0
        omega
      exact List.length_eq_zero_iff.mp hlen

end Admitted

namespace Admitted
variable {o : Options} {ρ : Reading} {vs ws : List Value} {v : Value}

/-- what more values describe, fewer of them do if they admit something of that kind -/
theorem describes_narrow (h : Admitted o ρ vs v) (hne : vs ≠ []) (hr : ∀ v ∈ vs, v.Regular)
    {x : Step} (hwide : (Evidence.gather o.caps (vs ++ ws)).describes x = true)
    (hv : v.tag? = some x.tag) : (Evidence.gather o.caps vs).describes x = true := by
  refine h.describes hne hr hv fun hrival => ?_
  exact (Evidence.describes_iff.mp hwide).2 (seen_append.mpr (Or.inl hrival))

theorem seen_string (h : Admitted o ρ vs v) (hne : vs ≠ []) (hr : ∀ v ∈ vs, v.Regular)
    (hv : v.tag? = some .string) : Seen vs .string :=
  Seen.of_admits (h.exists_seen_tag hne hr) hv (by decide)

theorem seen_number (h : Admitted o ρ vs v) (hne : vs ≠ []) (hr : ∀ v ∈ vs, v.Regular)
    (hv : v.tag? = some .integer ∨ v.tag? = some .number) :
    Seen vs .integer ∨ Seen vs .number := by
  rcases hv with hv | hv
  · exact Seen.of_admits_integer (h.exists_seen_tag hne hr) hv
  · exact Or.inr (Seen.of_admits (h.exists_seen_tag hne hr) hv (by decide))

/-- what the keywords of some values admit, those of more values do -/
theorem append (ho : o.Tight) (hne : vs ≠ []) (hvs : ∀ v ∈ vs, v.Regular)
    (hws : ∀ w ∈ ws, w.Regular) (hv : v.Regular) (h : Admitted o ρ vs v) :
    Admitted o ρ (vs ++ ws) v where
  type := by
    obtain ⟨tag, hseen, hadm⟩ := h.exists_seen_tag hne hvs
    have hmore : Seen (vs ++ ws) tag := seen_append.mpr (Or.inl hseen)
    show (Evidence.gather o.caps (vs ++ ws)).typeKeyword.admits v = true
    rw [Evidence.typeKeyword_admits hmore]
    exact ⟨tag, hmore, hadm⟩
  required k hk members hmem key hkey := by
    obtain ⟨hwide, rfl⟩ := Keywords.mem_object_ofValues.mp hk
    have hnarrow := h.describes_narrow (x := .key key) hne hvs hwide (congrArg Value.tag? hmem)
    have hobject := Keywords.mem_object_ofValues.mpr ⟨hnarrow, rfl⟩
    refine h.required _ hobject members hmem key ?_
    rw [Policy.mem_keysOf] at hkey ⊢
    exact hkey.of_append ho.lenient hne
  others k hk w hw := by
    obtain ⟨hwide, rfl⟩ := Keywords.mem_object_ofValues.mp hk
    have hnarrow := h.describes_narrow (x := .key "") hne hvs hwide (Value.tag?_of_mem_others hw)
    have hnil : Value.others (keysAmong (vs ++ ws)) v = [] := by
      rw [Value.others_eq_nil]
      intro key hkey
      rw [keysAmong, List.flatMap_append]
      exact List.mem_append_left _ (h.keys_known ho.closed hnarrow key hkey)
    rw [hnil] at hw
    cases hw
  sizes n hn := by
    refine Bounds.spokenIf_admits fun hon => ?_
    obtain ⟨hwide, _⟩ := Bool.and_eq_true_iff.mp hon
    have htag := Value.exists_size.mp ⟨n, hn⟩
    have hnarrow := h.describes_narrow (x := .element) hne hvs hwide htag
    have hin := Bounds.admits_of_spokenIf (h.sizes n hn)
      (Bool.and_eq_true_iff.mpr ⟨hnarrow, ho.bounded⟩)
    have hsome := sizes_ne_nil (Evidence.describesArrays_iff.mp hnarrow).1
    rw [Evidence.gather_sizes] at hin ⊢
    rw [List.filterMap_append]
    exact Bounds.admits_append weakOn_int_lt (fun _ _ => trivial) (fun _ _ => trivial) hsome trivial
      hin
  lengths n hn := by
    refine Bounds.spokenIf_admits fun _ => ?_
    have hseen := h.seen_string hne hvs (Value.exists_length.mp ⟨n, hn⟩)
    have hin := Bounds.admits_of_spokenIf (h.lengths n hn)
      (Bool.and_eq_true_iff.mpr ⟨Evidence.contains_types.mpr hseen, ho.bounded⟩)
    rw [Evidence.gather_lengths] at hin ⊢
    rw [List.filterMap_append]
    exact Bounds.admits_append weakOn_int_lt (fun _ _ => trivial) (fun _ _ => trivial)
      (lengths_ne_nil hseen) trivial hin
  format f hf outcome hout := by
    obtain ⟨hon, hname, _, hall⟩ := Keywords.mem_format_ofValues.mp hf
    have hseen := h.seen_string hne hvs (Value.exists_outcome.mp ⟨outcome, hout⟩)
    refine h.format f (Keywords.mem_format_ofValues.mpr ⟨hon, hname, outcomes_ne_nil hseen, ?_⟩)
      outcome hout
    intro x hx
    rw [List.filterMap_append] at hall
    exact hall x (List.mem_append_left _ hx)
  numbers n hn := by
    refine Bounds.spokenIf_admits fun _ => ?_
    have hseen := h.seen_number hne hvs (Value.exists_number.mp ⟨n, hn⟩)
    have hin := Bounds.admits_of_spokenIf (h.numbers n hn)
      (Bool.and_eq_true_iff.mpr ⟨Evidence.hasNumbers_iff.mpr hseen, ho.bounded⟩)
    rw [Evidence.gather_numbers] at hin ⊢
    rw [List.filterMap_append]
    exact Bounds.admits_append Number.weakOn_lt (Evidence.normal?_not_nan hvs)
      (Evidence.normal?_not_nan hws) (numbers_ne_nil hseen) (hv.number?_not_nan hn) hin
  enum henum := by
    obtain ⟨hwide, hfits, heq⟩ := Keywords.enum_ofValues henum
    rw [Evidence.candidates_append] at hfits heq
    have hnarrow : (Evidence.gather o.caps vs).typeKeyword.isEnumerable = true := by
      rw [Evidence.isEnumerable_iff] at hwide ⊢
      refine ⟨exists_seen hne hvs, ?_⟩
      rcases hwide.2 with hall | hall
      · exact Or.inl fun tag ht => hall tag (seen_append.mpr (Or.inl ht))
      · exact Or.inr fun tag ht => hall tag (seen_append.mpr (Or.inl ht))
    have hfits' := Evidence.fits_of_le hfits (OrdSet.size_le_size_union_left _ _)
    obtain ⟨hsome, heq'⟩ := Keywords.enum_of_enumerable hne hvs hnarrow hfits'
    obtain ⟨x, hx, t, ht, hsame⟩ := h.enum hsome
    rw [heq'] at hx
    have hmem := Evidence.sameAs_enumeration.mp ⟨x, hx, hsame⟩
    obtain ⟨y, hy, hyt⟩ := Evidence.sameAs_enumeration.mpr
      (Evidence.mem_candidates_append.mpr (Or.inl hmem))
    rw [heq, ← Evidence.candidates_append]
    exact ⟨y, hy, t, ht, hyt⟩

end Admitted
/-! ### all positions -/

/-- what a schema validates, one that describes more values does -/
theorem Schema.Describes.validates_wider {o : Options} {ρ : Reading} (ho : o.Tight) {v : Value}
    {vs ws : List Value} {s t : Schema} (hs : s.Describes o vs) (ht : t.Describes o (vs ++ ws))
    (hne : vs ≠ []) (hvs : ∀ v ∈ vs, v.Regular) (hws : ∀ w ∈ ws, w.Regular) (hv : v.Regular)
    {heading : List (String × Value)} (hh : (heading.map Prod.fst).Sublist headings)
    (h : (s.writtenAfter heading).validates ρ v = true) :
    (t.writtenAfter heading).validates ρ v = true := by
  induction v using Value.follow_induction generalizing vs ws s t heading with
  | h v ih =>
    have hbare : (([] : List (String × Value)).map Prod.fst).Sublist headings :=
      List.nil_sublist headings
    obtain ⟨hadm, hbelow⟩ := (hs.validates_iff hh).mp h
    rw [ht.validates_iff hh]
    refine ⟨hadm.append ho hne hvs hws hv, fun x u hu w hw => ?_⟩
    have htag := Value.tag?_of_mem_follow hw
    rcases ht.step? x with ⟨u', hu', hwide, _, hdu⟩ | ⟨hnone, _⟩
    · rw [hu] at hu'
      cases hu'
      have hnarrow := hadm.describes_narrow hne hvs hwide htag
      rw [valuesBelow_append] at hdu
      rcases hs.step? x with ⟨n, hn, _, hsome, hdn⟩ | ⟨_, hnil⟩
      · exact ih x w hw hdn hdu hsome (regular_valuesBelow hvs) (regular_valuesBelow hws)
          (hv.follow hw) hbare (hbelow x n hn w hw)
      · -- nothing was found here, so nothing may be found in what is valid
        have hempty := hadm.follow_eq_nil ho hnarrow (hnil hnarrow)
        rw [hempty] at hw
        cases hw
    · rw [hu] at hnone
      cases hnone

/-- what is valid for the schema of samples is valid for that of more samples -/
theorem infer_widens (m : Machine) {o : Options} (ho : o.Tight) (ρ : Reading) {xs ys : List Value}
    (hne : xs ≠ []) (hxs : ∀ v ∈ xs, v.Sample o.maxDepth) (hys : ∀ v ∈ ys, v.Sample o.maxDepth)
    {v : Value} (hv : v.Regular) :
    (infer m o xs).Returns m o fun narrow => (infer m o (xs ++ ys)).Returns m o fun wide =>
      narrow.validates ρ v = true → wide.validates ρ v = true := by
  have hmore : ∀ v ∈ xs ++ ys, v.Sample o.maxDepth := List.forall_mem_append.mpr ⟨hxs, hys⟩
  refine Inference.returns_of hne hxs fun s hs => ?_
  refine Inference.returns_of (List.append_ne_nil_of_left_ne_nil hne ys) hmore fun t ht => ?_
  exact hs.validates_wider ho ht hne (fun w hw => (hxs w hw).regular)
    (fun w hw => (hys w hw).regular) hv o.heading_names

/-- the options made where nothing is said, but no further keys and no examples -/
def Options.closedPlain : Options :=
  { Options.default with additionalProperties := .bool false, examples := .bool false }

theorem Options.tight_closedPlain : closedPlain.Tight := ⟨rfl, rfl, by decide⟩

/-- an empty array is valid as another one was seen, and still is when a null comes up, which was
not valid before -/
theorem infer_widens_arrays : ∃ narrow wide,
    (infer .least .closedPlain [.arr [.int 1], .arr []]).answer = .ok narrow
      ∧ (infer .least .closedPlain [.arr [.int 1], .arr [], .null]).answer = .ok wide
      ∧ narrow.validates (fun _ _ => false) (.tuple []) = true
      ∧ wide.validates (fun _ _ => false) (.tuple []) = true
      ∧ narrow.validates (fun _ _ => false) .null = false
      ∧ wide.validates (fun _ _ => false) .null = true := by
  have hxs : ∀ v ∈ [Value.arr [.int 1], .arr []], v.Sample Options.closedPlain.maxDepth := by decide
  have hys : ∀ v ∈ [Value.null], v.Sample Options.closedPlain.maxDepth := by decide
  have hv : (Value.tuple []).Regular := by decide
  obtain ⟨narrow, hn, h⟩ := (infer_widens .least Options.tight_closedPlain (fun _ _ => false)
    (List.cons_ne_nil _ _) hxs hys hv).exists_of_le (by decide)
  obtain ⟨wide, hw, hvalid⟩ := h.exists_of_le (by decide)
  have hnarrow : (infer .least .closedPlain [.arr [.int 1], .arr []]).answer.toOption.map
      (fun narrow => (narrow.validates (fun _ _ => false) (.tuple []),
        narrow.validates (fun _ _ => false) .null)) = some (true, false) := by decide
  have hwide : (infer .least .closedPlain [.arr [.int 1], .arr [], .null]).answer.toOption.map
      (fun wide => wide.validates (fun _ _ => false) .null) = some true := by decide
  rw [hn] at hnarrow
  have hw' : (infer .least .closedPlain [.arr [.int 1], .arr [], .null]).answer = .ok wide := hw
  rw [hw'] at hwide
  obtain ⟨hempty, hnull⟩ := Prod.mk.inj (Option.some.inj hnarrow)
  exact ⟨narrow, wide, hn, hw, hempty, hvalid hempty, hnull, Option.some.inj hwide⟩

end JsonShape
