import JsonShape.Proofs.Soundness
import JsonShape.Proofs.Widening

/-!
# Valid values change nothing

A schema is closed if the values that are valid for it are just those that may be added to the
samples without changing it.  That valid values change nothing is shown for one position first:
every keyword is a fixed point under the values that it admits.  One step down the values are valid
again, and where nothing was found nothing is added.

* `Keywords.ofValues_append`         the keywords do not change by values that they admit;
* `Schema.Describes.written_append`  nor does the schema, at any depth;
* `infer_append_eq_iff`              a value is valid if and only if it changes nothing.
-/

namespace JsonShape
open Std

theorem number_ne_integer : Tag.number ≠ .integer := by decide

/-- the values are of the types of those before them -/
def Typed (vs ws : List Value) : Prop := ∀ w ∈ ws, ∃ tag, Seen vs tag ∧ tag.admits w = true

namespace Typed
variable {vs ws : List Value} {caps : Caps}

theorem seen_append (h : Typed vs ws) {tag : Tag} (hne : tag ≠ .integer) :
    Seen (vs ++ ws) tag ↔ Seen vs tag := by
  rw [JsonShape.seen_append]
  constructor
  · intro hs
    rcases hs with hs | ⟨w, hw, ht⟩
    · exact hs
    · exact Seen.of_admits (h w hw) ht hne
  · exact Or.inl

/-- whole numbers may be new, but only where there were other numbers -/
theorem seen_integer (h : Typed vs ws) (hs : Seen (vs ++ ws) .integer) :
    Seen vs .integer ∨ Seen vs .number := by
  rcases JsonShape.seen_append.mp hs with hs | ⟨w, hw, ht⟩
  · exact Or.inl hs
  · exact Seen.of_admits_integer (h w hw) ht

theorem typeKeyword (h : Typed vs ws) : (Evidence.gather caps (vs ++ ws)).typeKeyword
    = (Evidence.gather caps vs).typeKeyword := by
  rw [Evidence.typeKeyword_gather, Evidence.typeKeyword_gather]
  apply TypeKeyword.unify_eq_unify
  intro tag
  have hnumber := h.seen_append number_ne_integer
  rw [TypeKeyword.mem_absorbed, TypeKeyword.mem_absorbed, Evidence.mem_types, Evidence.mem_types,
    Evidence.mem_types, Evidence.mem_types, hnumber]
  by_cases ht : tag = .integer
  · rw [ht]
    constructor
    · intro hs
      obtain ⟨hs, hn⟩ := hs
      refine ⟨(h.seen_integer hs).resolve_right fun hnum => hn ⟨rfl, hnum⟩, hn⟩
    · intro hs
      exact ⟨JsonShape.seen_append.mpr (Or.inl hs.1), hs.2⟩
  · rw [h.seen_append ht]

theorem describesObjects (h : Typed vs ws) : (Evidence.gather caps (vs ++ ws)).describesObjects
    = (Evidence.gather caps vs).describesObjects := by
  rw [Bool.eq_iff_iff, Evidence.describesObjects_iff, Evidence.describesObjects_iff,
    h.seen_append (by decide), h.seen_append (by decide)]

theorem describesArrays (h : Typed vs ws) : (Evidence.gather caps (vs ++ ws)).describesArrays
    = (Evidence.gather caps vs).describesArrays := by
  rw [Bool.eq_iff_iff, Evidence.describesArrays_iff, Evidence.describesArrays_iff,
    h.seen_append (by decide), h.seen_append (by decide)]

theorem describes (h : Typed vs ws) (x : Step) :
    (Evidence.gather caps (vs ++ ws)).describes x = (Evidence.gather caps vs).describes x := by
  cases x with
  | key _ => exact h.describesObjects
  | element => exact h.describesArrays

theorem hasNumbers (h : Typed vs ws) : (Evidence.gather caps (vs ++ ws)).hasNumbers
    = (Evidence.gather caps vs).hasNumbers := by
  rw [Bool.eq_iff_iff, Evidence.hasNumbers_iff, Evidence.hasNumbers_iff,
    h.seen_append number_ne_integer]
  constructor
  · intro hs
    rcases hs with hs | hs
    · exact h.seen_integer hs
    · exact Or.inr hs
  · exact Or.imp_left fun hs => JsonShape.seen_append.mpr (Or.inl hs)

theorem contains_string (h : Typed vs ws) :
    (Evidence.gather caps (vs ++ ws)).types.contains .string
      = (Evidence.gather caps vs).types.contains .string := by
  rw [Bool.eq_iff_iff, Evidence.contains_types, Evidence.contains_types, h.seen_append (by decide)]

end Typed
/-! ### one position -/

theorem Format.name_ne_of_detect {x : String} {f : Format} (h : detect x = some f) :
    f.name ≠ "" := by
  have hnames : ∀ entry ∈ recognisers, entry.1.name ≠ "" := by decide
  obtain ⟨accepts, hmem, _⟩ := mem_of_detect h
  exact hnames (f, accepts) hmem

namespace Admitted
variable {o : Options} {ρ : Reading} {vs ws : List Value}

/-- what a policy asks for is found in all values that are admitted -/
theorem follow_ne_nil {v : Value} {key : String} (h : Admitted o ρ vs v) (hne : vs ≠ [])
    (hr : ∀ v ∈ vs, v.Regular) (hp : o.requiredPolicy ≠ .strict)
    (ha : o.requiredPolicy.Asks vs key) : v.follow (.key key) ≠ [] := by
  have hall := ha.follow_ne_nil hp
  have hobject : ∀ tag, Seen vs tag → tag = .object := by
    intro tag ht
    obtain ⟨u, hu, hut⟩ := ht
    obtain ⟨w, hw⟩ := List.exists_mem_of_ne_nil _ (hall u hu)
    rw [Value.tag?_of_mem_follow hw] at hut
    exact (Option.some.inj hut).symm
  obtain ⟨tag, hseen, hadm⟩ := h.exists_seen_tag hne hr
  have htag := hobject tag hseen
  rw [htag] at hseen hadm
  have hv : v.tag? = some .object := by
    rcases Tag.admits_iff.mp hadm with hv | ⟨hnum, _⟩
    · exact hv
    · exact absurd hnum (by decide)
  have hdescribes : (Evidence.gather o.caps vs).describesObjects = true :=
    Evidence.describesObjects_iff.mpr ⟨hseen, fun harr => absurd (hobject _ harr) (by decide)⟩
  have hreq := h.required _ (Keywords.mem_object_ofValues.mpr ⟨hdescribes, rfl⟩)
  obtain ⟨members, rfl⟩ := Value.exists_members.mpr hv
  have hsome := hreq members rfl key (Policy.mem_keysOf.mpr ha)
  intro hnil
  have hnone : members.lookup key = none := Option.toList_eq_nil_iff.mp hnil
  rw [hnone] at hsome
  cases hsome

theorem asks_append (h : ∀ w ∈ ws, Admitted o ρ vs w) (hne : vs ≠ [])
    (hr : ∀ v ∈ vs, v.Regular) (hp : o.requiredPolicy ≠ .strict) (key : String) :
    o.requiredPolicy.Asks (vs ++ ws) key ↔ o.requiredPolicy.Asks vs key := by
  constructor
  · intro ha
    exact ha.of_append hp hne
  · intro ha
    have hnew : ∀ w ∈ ws, w.follow (.key key) ≠ [] := fun w hw =>
      (h w hw).follow_ne_nil hne hr hp ha
    have hall := ha.follow_ne_nil hp
    generalize o.requiredPolicy = policy at ha hp ⊢
    cases policy with
    | loose => exact ha
    | observed =>
      exact ⟨List.append_ne_nil_of_left_ne_nil hne ws, List.forall_mem_append.mpr ⟨hall, hnew⟩⟩
    | strict => exact absurd rfl hp

end Admitted
theorem Bounds.spokenIf_congr {α : Type} {a b : Bounds α} {on : Bool}
    (h : on = true → a = b) : a.spokenIf on = b.spokenIf on := by
  cases on with
  | true => exact h rfl
  | false => rfl

/-- every candidate of values that are admitted is among those enumerated -/
theorem Evidence.candidates_append_admitted {o : Options} {ρ : Reading} {vs ws : List Value}
    (h : ∀ w ∈ ws, Admitted o ρ vs w) (hne : (Keywords.ofValues o vs).enum ≠ [])
    (heq : (Keywords.ofValues o vs).enum = (candidates vs).toList.map Candidate.value) :
    candidates (vs ++ ws) = candidates vs := by
  apply OrdSet.ext_of_mem
  intro c
  rw [mem_candidates_append]
  constructor
  · intro hc
    rcases hc with hc | hc
    · exact hc
    · obtain ⟨w, hw, hwc⟩ := mem_candidates.mp hc
      obtain ⟨s, hs, rfl⟩ := Candidate.of_value hwc
      obtain ⟨x, hx, t, ht, hsame⟩ := (h w hw).enum hne
      have hts : t = s := Option.some.inj (ht.symm.trans hs)
      rw [heq] at hx
      rw [← hts]
      exact sameAs_enumeration.mp ⟨x, hx, hsame⟩
  · exact Or.inl

/-- the strings that are admitted agree on the same format, if any -/
theorem Format.agreed_append_admitted {o : Options} {ρ : Reading} {vs ws : List Value}
    (h : ∀ w ∈ ws, Admitted o ρ vs w) (hstr : Seen vs .string)
    (hon : o.detectFormats.isTruthy = true) :
    agreed (Evidence.gather o.caps (vs ++ ws)).formats
      = agreed (Evidence.gather o.caps vs).formats := by
  have hne := outcomes_ne_nil hstr
  apply Option.ext
  intro f
  rw [Evidence.gather_formats, Evidence.gather_formats, agreed_ofList, agreed_ofList,
    List.filterMap_append, List.forall_mem_append]
  constructor
  · intro hall
    exact ⟨hne, hall.2.1⟩
  · intro hall
    refine ⟨List.append_ne_nil_of_left_ne_nil hne _, hall.2, fun x hx => ?_⟩
    have hname : f.name ≠ "" := by
      obtain ⟨y, hy⟩ := List.exists_mem_of_ne_nil _ hne
      have hyf := hall.2 y hy
      obtain ⟨v, _, hv⟩ := List.mem_filterMap.mp hy
      rw [hyf] at hv
      cases v with
      | str t => exact name_ne_of_detect (Option.some.inj hv)
      | _ => cases hv
    obtain ⟨w, hw, hwx⟩ := List.mem_filterMap.mp hx
    exact (h w hw).format f (Keywords.mem_format_ofValues.mpr ⟨hon, hname, hall⟩) x hwx

/-- the keywords written for values do not change by values that they admit -/
theorem Keywords.ofValues_append {o : Options} {ρ : Reading} {vs ws : List Value} (ho : o.Tight)
    (hex : o.examples.isTruthy = false) (hne : vs ≠ []) (hvs : ∀ v ∈ vs, v.Regular)
    (hws : ∀ w ∈ ws, w.Regular) (h : ∀ w ∈ ws, Admitted o ρ vs w) :
    ofValues o (vs ++ ws) = ofValues o vs := by
  have ht : Typed vs ws := fun w hw => (h w hw).exists_seen_tag hne hvs
  apply Keywords.ext
  · exact ht.typeKeyword
  · show (if _ then _ else _) = if _ then _ else _
    rw [ht.describesObjects, Policy.keysOf_eq (Admitted.asks_append h hne hvs ho.lenient)]
  · show (Evidence.gather o.caps (vs ++ ws)).sizes.spokenIf _ = Bounds.spokenIf _ _
    rw [ht.describesArrays]
    refine Bounds.spokenIf_congr fun hon => ?_
    have harr := (Evidence.describesArrays_iff.mp (Bool.and_eq_true_iff.mp hon).1).1
    rw [Evidence.gather_sizes, Evidence.gather_sizes, List.filterMap_append]
    refine Bounds.ofList_append_admits weakOn_int_lt (fun _ _ => trivial) (fun _ _ => trivial)
      (sizes_ne_nil harr) fun n hn => ?_
    obtain ⟨w, hw, hwn⟩ := List.mem_filterMap.mp hn
    have hin := Bounds.admits_of_spokenIf ((h w hw).sizes n hwn) hon
    rwa [Evidence.gather_sizes] at hin
  · show (Evidence.gather o.caps (vs ++ ws)).lengths.spokenIf _ = Bounds.spokenIf _ _
    rw [ht.contains_string]
    refine Bounds.spokenIf_congr fun hon => ?_
    have hstr := Evidence.contains_types.mp (Bool.and_eq_true_iff.mp hon).1
    rw [Evidence.gather_lengths, Evidence.gather_lengths, List.filterMap_append]
    refine Bounds.ofList_append_admits weakOn_int_lt (fun _ _ => trivial) (fun _ _ => trivial)
      (lengths_ne_nil hstr) fun n hn => ?_
    obtain ⟨w, hw, hwn⟩ := List.mem_filterMap.mp hn
    have hin := Bounds.admits_of_spokenIf ((h w hw).lengths n hwn) hon
    rwa [Evidence.gather_lengths] at hin
  · show (if _ then _ else _) = if _ then _ else _
    rw [ht.contains_string]
    split
    · rename_i hon
      obtain ⟨hstr, hdetect⟩ := Bool.and_eq_true_iff.mp hon
      exact Format.agreed_append_admitted h (Evidence.contains_types.mp hstr) hdetect
    · rfl
  · show (Evidence.gather o.caps (vs ++ ws)).numbers.spokenIf _ = Bounds.spokenIf _ _
    rw [ht.hasNumbers]
    refine Bounds.spokenIf_congr fun hon => ?_
    have hnum := Evidence.hasNumbers_iff.mp (Bool.and_eq_true_iff.mp hon).1
    rw [Evidence.gather_numbers, Evidence.gather_numbers, List.filterMap_append]
    refine Bounds.ofList_append_admits Number.weakOn_lt (Evidence.normal?_not_nan hvs)
      (Evidence.normal?_not_nan hws) (numbers_ne_nil hnum) fun n hn => ?_
    obtain ⟨w, hw, hwn⟩ := List.mem_filterMap.mp hn
    obtain ⟨m, hm, rfl⟩ := Option.map_eq_some_iff.mp hwn
    have hin := Bounds.admits_of_spokenIf ((h w hw).numbers m hm) hon
    rwa [Evidence.gather_numbers, ← Bounds.admits_normal] at hin
  · rw [enum_eq, enum_eq, ht.typeKeyword]
    cases htype : (Evidence.gather o.caps vs).typeKeyword.isEnumerable with
    | false => rfl
    | true =>
      cases hfits : Evidence.fits o.caps o.enumThreshold (Evidence.candidates vs).size with
      | true =>
        obtain ⟨hsome, heq⟩ := enum_of_enumerable hne hvs htype hfits
        rw [Evidence.candidates_append_admitted h hsome heq, hfits]
      | false =>
        have hmore : Evidence.fits o.caps o.enumThreshold
            (Evidence.candidates (vs ++ ws)).size = false := by
          rw [← Bool.not_eq_true] at hfits ⊢
          rw [Evidence.candidates_append]
          exact fun hm => hfits (Evidence.fits_of_le hm (OrdSet.size_le_size_union_left _ _))
        rw [hmore]
        rfl
  · show (if _ then _ else _) = if _ then _ else _
    rw [hex]
    rfl

/-! ### all positions -/

/-- values that are valid do not change what is written -/
theorem Schema.Describes.written_append {o : Options} {ρ : Reading} (ho : o.Tight)
    (hex : o.examples.isTruthy = false) {vs ws : List Value} {s t : Schema}
    (hs : s.Describes o vs) (ht : t.Describes o (vs ++ ws)) (hne : vs ≠ [])
    (hvs : ∀ v ∈ vs, v.Regular) (hws : ∀ w ∈ ws, w.Regular) {heading : List (String × Value)}
    (hh : (heading.map Prod.fst).Sublist headings)
    (h : ∀ w ∈ ws, (s.writtenAfter heading).validates ρ w = true) :
    s.writtenAfter heading = t.writtenAfter heading := by
  induction vs, s, hs using induction generalizing ws t heading with
  | h vs s hs ih =>
    have hbare : (([] : List (String × Value)).map Prod.fst).Sublist headings :=
      List.nil_sublist headings
    have hvalid := fun w hw => (hs.validates_iff hh).mp (h w hw)
    have hadm : ∀ w ∈ ws, Admitted o ρ vs w := fun w hw => (hvalid w hw).1
    have htyped : Typed vs ws := fun w hw => (hadm w hw).exists_seen_tag hne hvs
    have hown : s.own = t.own := by
      rw [hs.own, ht.own, Keywords.ofValues_append ho hex hne hvs hws hadm]
    refine writtenAfter_congr hown hs.keys_nodup ht.keys_nodup (fun x => ?_) heading
    have hbelow := valuesBelow_append x vs ws
    rcases hs.step? x with ⟨u, hu, hd, hsome, hdu⟩ | ⟨hnone, hnil⟩
    · rcases ht.step? x with ⟨u', hu', _, _, hdu'⟩ | ⟨_, hnil'⟩
      · rw [hbelow] at hdu'
        rw [hu, hu']
        have hvalid' : ∀ w ∈ valuesBelow x ws, u.written.validates ρ w = true := by
          intro w hw
          obtain ⟨v, hv, hvw⟩ := mem_valuesBelow.mp hw
          exact (hvalid v hv).2 x u hu w hvw
        exact congrArg some (ih x u hu hdu hdu' hsome (regular_valuesBelow hvs)
          (regular_valuesBelow hws) hbare hvalid')
      · have hempty := hnil' ((htyped.describes x).trans hd)
        rw [hbelow] at hempty
        exact absurd (List.append_eq_nil_iff.mp hempty).1 hsome
    · rcases ht.step? x with ⟨u', _, hd', hsome', _⟩ | ⟨hnone', _⟩
      · -- nothing was found here, so nothing is added
        have hd := (htyped.describes x).symm.trans hd'
        have hnew : valuesBelow x ws = [] := by
          rw [valuesBelow, List.flatMap_eq_nil_iff]
          intro w hw
          exact (hadm w hw).follow_eq_nil ho hd (hnil hd)
        rw [hbelow, hnil hd, hnew] at hsome'
        exact absurd rfl hsome'
      · rw [hnone, hnone']

/-- a value is valid for the schema of samples if and only if it can be added without changing it -/
theorem infer_append_eq_iff (m : Machine) {o : Options} (ho : o.Tight)
    (hex : o.examples.isTruthy = false) (ρ : Reading) {xs : List Value} {v : Value} (hne : xs ≠ [])
    (hxs : ∀ w ∈ xs, w.Sample o.maxDepth) (hv : v.Sample o.maxDepth) :
    (infer m o xs).Returns m o fun schema =>
      schema.validates ρ v = true ↔ (infer m o (xs ++ [v])).answer = .ok schema := by
  have hv' : ∀ w ∈ [v], w.Sample o.maxDepth := List.forall_mem_singleton.mpr hv
  have hmore : ∀ w ∈ xs ++ [v], w.Sample o.maxDepth := List.forall_mem_append.mpr ⟨hxs, hv'⟩
  have hregular : ∀ w ∈ xs ++ [v], w.Regular := fun w hw => (hmore w hw).regular
  obtain ⟨hrx, hrv⟩ := List.forall_mem_append.mp hregular
  obtain ⟨s, hs, hdepth, has⟩ := Inference.answer_infer (m := m) hne hxs
  obtain ⟨t, ht, _, hat⟩ := Inference.answer_infer (m := m) (List.concat_ne_nil v xs) hmore
  refine Inference.returns_of_answer has hdepth fun hroom => ?_
  rw [hat]
  constructor
  · intro hvalid
    have heq := hs.written_append ho hex ht hne hrx hrv o.heading_names
      (List.forall_mem_singleton.mpr hvalid)
    rw [← heq]
    exact Machine.answer_of_le hroom
  · intro hsame
    have hvalid : (t.writtenAfter o.heading).validates ρ v = true :=
      ht.validates_of_mem ho.lenient hregular (List.mem_append_right xs List.mem_cons_self)
        o.heading_names
    rw [← (Machine.answer_eq_ok.mp hsame).2]
    exact hvalid

/-- one of the numbers that were seen is valid and changes nothing, one between them does and is
not -/
theorem infer_append_eq_iff_between : ∃ schema,
    (infer .least .closedPlain [.int 1, .int 3]).answer = .ok schema
      ∧ schema.validates (fun _ _ => false) (.int 3) = true
      ∧ (infer .least .closedPlain ([.int 1, .int 3] ++ [.int 3])).answer = .ok schema
      ∧ schema.validates (fun _ _ => false) (.int 2) = false
      ∧ (infer .least .closedPlain ([.int 1, .int 3] ++ [.int 2])).answer ≠ .ok schema := by
  have hne : [Value.int 1, .int 3] ≠ [] := List.cons_ne_nil _ _
  have hxs : ∀ w ∈ [Value.int 1, .int 3], w.Sample Options.closedPlain.maxDepth := by decide
  obtain ⟨schema, ha, hseen⟩ := (infer_append_eq_iff .least Options.tight_closedPlain rfl
    (fun _ _ => false) (v := .int 3) hne hxs (by decide)).exists_of_le (by decide)
  have hnew := (infer_append_eq_iff .least Options.tight_closedPlain rfl (fun _ _ => false)
    (v := .int 2) hne hxs (by decide)).of_answer ha
  have hvalid : (infer .least .closedPlain [.int 1, .int 3]).answer.toOption.map
      (fun schema => (schema.validates (fun _ _ => false) (.int 3),
        schema.validates (fun _ _ => false) (.int 2))) = some (true, false) := by decide
  rw [ha] at hvalid
  obtain ⟨hthree, htwo⟩ := Prod.mk.inj (Option.some.inj hvalid)
  exact ⟨schema, ha, hthree, hseen.mp hthree, htwo,
    fun h => absurd (hnew.mpr h) (by rw [htwo]; exact Bool.false_ne_true)⟩

end JsonShape
