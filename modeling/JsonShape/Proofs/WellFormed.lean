import JsonShape.Proofs.Enumeration
import JsonShape.Proofs.Instances
import JsonShape.Proofs.ObjectKeys
import JsonShape.Proofs.Soundness

/-!
# Inferred schemas are well formed

Keywords are written apart from each other, from fields of the evidence that are kept apart.  Still
they fit: the type names what the other keywords are about, bounds stand in pairs and in order, what
is required has a schema, what is enumerated runs from the least number to the greatest, and the
examples are valid.  This holds of every fragment, under all options.

* `TypeKeyword.unify_proper`           the type of some tags is one, or several in order;
* `Schema.member?_bounds`              under the word of a bound stands what was written for it;
* `Schema.Describes.wellFormed`        a schema that describes values is well formed;
* `infer_wellFormed`                   so is every fragment of an inferred schema.
-/

namespace JsonShape
open Value

/-! ### what is well formed -/

/-- the types of JSON Schema -/
def Tag.all : List Tag := [.null, .boolean, .integer, .number, .string, .array, .object]

/-- one type, or several in ascending order; whole numbers do not stand beside all numbers -/
def TypeKeyword.Proper : TypeKeyword → Prop
  | one tag => tag ∈ Tag.all
  | union tags => 2 ≤ tags.length ∧ (tags.map Tag.name).Pairwise (· < ·) ∧ tags ⊆ Tag.all
      ∧ ¬ (.integer ∈ tags ∧ .number ∈ tags)

namespace Value

/-- both keywords are absent, or they are a lower and an upper one -/
def Paired {α : Type} (write : α → Value) (ordered : α → α → Prop) (lower upper : Option Value) :
    Prop :=
  lower = none ∧ upper = none
    ∨ ∃ l g, lower = some (write l) ∧ upper = some (write g) ∧ ordered l g

/-- the keyword is a list of such entries, and there are some -/
def Lists {α : Type} (write : α → Value) (P : List α → Prop) (keyword : Option Value) : Prop :=
  ∃ entries : List α, entries ≠ [] ∧ P entries ∧ keyword = some (arr (entries.map write))

/-- a length or a size and one that is not less -/
def LengthsOrdered (l g : Int) : Prop := 0 ≤ l ∧ l ≤ g

/-- two numbers, neither a nan, of which the second is not less -/
def NumbersOrdered (l g : Number) : Prop := l.isNan = false ∧ g.isNan = false ∧ ¬ g < l

/-- the keywords of the fragment, which is of this type, fit each other and the options -/
structure WellFormed (o : Options) (type : TypeKeyword) (fragment : Value) : Prop where
  named : fragment.member? "type" = some type.toValue
  proper : type.Proper
  properties : (fragment.member? "properties").isSome = true
    ↔ .object ∈ type.tags ∧ .array ∉ type.tags
  items : (fragment.member? "items").isSome = true → .array ∈ type.tags ∧ .object ∉ type.tags
  itemsCounted : .array ∈ type.tags → .object ∉ type.tags → o.minmax.isTruthy = true →
    ((fragment.member? "items").isSome = true
      ↔ ∃ n, fragment.member? "maxItems" = some (int n) ∧ 0 < n)
  numbers : Paired num NumbersOrdered (fragment.member? "minimum") (fragment.member? "maximum")
  lengths : Paired int LengthsOrdered (fragment.member? "minLength") (fragment.member? "maxLength")
  sizes : Paired int LengthsOrdered (fragment.member? "minItems") (fragment.member? "maxItems")
  required : fragment.member? "required" = none
    ∨ Lists str (fun names => names.Pairwise (· < ·) ∧ names ⊆ fragment.propertyNames)
        (fragment.member? "required")
  enum : fragment.member? "enum" = none
    ∨ type = .one .string
        ∧ Lists str (fun entries => entries.Pairwise (· < ·)) (fragment.member? "enum")
    ∨ (type = .one .integer ∨ type = .one .number)
        ∧ Lists num (fun entries => entries.Pairwise (· < ·) ∧ (o.minmax.isTruthy = true →
            fragment.member? "minimum" = entries.head?.map num
              ∧ fragment.member? "maximum" = entries.getLast?.map num)) (fragment.member? "enum")
  examples : fragment.member? "examples" = none
    ∨ Lists id (fun entries => entries.length ≤ o.maxExamples
        ∧ ∀ v ∈ entries, ∀ ρ, fragment.validates ρ v = true) (fragment.member? "examples")

/-! ### types -/

theorem tag?_mem_all {v : Value} {tag : Tag} (h : v.tag? = some tag) : tag ∈ Tag.all := by
  cases v with
  | num n =>
    cases hn : n.isWhole with
    | true =>
      rw [tag?, hn] at h
      cases h
      decide
    | false =>
      rw [tag?, hn] at h
      cases h
      decide
  | foreign _ => cases h
  | _ =>
    cases h
    decide

end Value

namespace TypeKeyword
variable {seen : OrdSet Tag}

theorem unify_proper (hne : seen.toList ≠ []) (hall : seen.toList ⊆ Tag.all) :
    (unify seen).Proper := by
  have hsub : absorbed seen ⊆ Tag.all := fun tag htag => hall (mem_absorbed.mp htag).1
  unfold unify
  split
  · rename_i hnil
    exact absurd hnil (absorbed_ne_nil hne)
  · rename_i tag hone
    rw [hone] at hsub
    exact hsub List.mem_cons_self
  · rename_i hnil hone
    refine ⟨?_, ?_, hsub, fun h => ?_⟩
    · match hl : absorbed seen with
      | [] => exact absurd hl hnil
      | [tag] => exact absurd hl (hone tag)
      | _ :: _ :: r =>
        rw [List.length_cons, List.length_cons]
        omega
    · apply List.pairwise_map.mpr
      exact absorbed_ascending.imp fun hab => compareOfLessAndEq_eq_lt.mp hab
    · exact (mem_absorbed.mp h.1).2 ⟨rfl, (mem_absorbed.mp h.2).1⟩

end TypeKeyword

namespace Evidence
variable {caps : Caps} {values : List Value}

theorem typeKeyword_proper (hne : values ≠ []) (hr : ∀ v ∈ values, v.Regular) :
    (gather caps values).typeKeyword.Proper := by
  obtain ⟨tag, htag⟩ := exists_seen hne hr
  rw [typeKeyword_gather]
  refine TypeKeyword.unify_proper (List.ne_nil_of_mem (mem_types.mpr htag)) fun tag ht => ?_
  obtain ⟨v, _, hv⟩ := mem_types.mp ht
  exact tag?_mem_all hv

/-- a type has the tags that were seen, but for whole numbers beside all numbers -/
theorem mem_tags (hne : values ≠ []) (hr : ∀ v ∈ values, v.Regular) {tag : Tag} :
    tag ∈ (gather caps values).typeKeyword.tags
      ↔ Seen values tag ∧ ¬ (tag = .integer ∧ Seen values .number) := by
  obtain ⟨seen, hseen⟩ := exists_seen hne hr
  have htypes : seen ∈ (gather caps values).types.toList := mem_types.mpr hseen
  have hsome := TypeKeyword.absorbed_ne_nil (List.ne_nil_of_mem htypes)
  rw [typeKeyword_gather, TypeKeyword.tags_unify hsome, TypeKeyword.mem_absorbed, mem_types,
    mem_types]

theorem mem_tags_of_ne (hne : values ≠ []) (hr : ∀ v ∈ values, v.Regular) {tag : Tag}
    (ht : tag ≠ .integer) : tag ∈ (gather caps values).typeKeyword.tags ↔ Seen values tag := by
  rw [mem_tags hne hr]
  exact and_iff_left fun h => ht h.1

/-- where objects, or arrays, are described, the type says so -/
theorem describes_iff_tags (hne : values ≠ []) (hr : ∀ v ∈ values, v.Regular) {x : Step} :
    (gather caps values).describes x = true ↔ x.tag ∈ (gather caps values).typeKeyword.tags
      ∧ x.rival ∉ (gather caps values).typeKeyword.tags := by
  have hapart : x.tag ≠ .integer ∧ x.rival ≠ .integer := by
    cases x with
    | key _ => exact (by decide : Tag.object ≠ .integer ∧ Tag.array ≠ .integer)
    | element => exact (by decide : Tag.array ≠ .integer ∧ Tag.object ≠ .integer)
  rw [describes_iff, mem_tags_of_ne hne hr hapart.1, mem_tags_of_ne hne hr hapart.2]

/-- values of an enumerated type have that type -/
theorem exists_of_enumerable (hne : values ≠ []) (hr : ∀ v ∈ values, v.Regular)
    (h : (gather caps values).typeKeyword.isEnumerable = true) :
    ∃ tag, (gather caps values).typeKeyword = .one tag ∧ Seen values tag := by
  cases ht : (gather caps values).typeKeyword with
  | union tags =>
    rw [ht] at h
    cases h
  | one tag =>
    have hmem : tag ∈ (gather caps values).typeKeyword.tags := by
      rw [ht]
      exact List.mem_singleton_self tag
    exact ⟨tag, rfl, ((mem_tags hne hr).mp hmem).1⟩

theorem typeKeyword_of_strings (hne : values ≠ []) (hr : ∀ v ∈ values, v.Regular)
    (h : ∀ v ∈ values, ∃ s, v = str s) :
    (gather caps values).typeKeyword = .one .string := by
  have hkind : (gather caps values).typeKeyword.isEnumerable = true :=
    (isEnumerable_iff_kind hne hr).mpr (Or.inl h)
  obtain ⟨tag, hone, v, hv, ht⟩ := exists_of_enumerable hne hr hkind
  rw [exists_str.mp (h v hv)] at ht
  rw [hone, Option.some.inj ht]

theorem typeKeyword_of_numbers (hne : values ≠ []) (hr : ∀ v ∈ values, v.Regular)
    (h : ∀ v ∈ values, ∃ n, v = num n) : (gather caps values).typeKeyword = .one .integer
      ∨ (gather caps values).typeKeyword = .one .number := by
  have hkind : (gather caps values).typeKeyword.isEnumerable = true :=
    (isEnumerable_iff_kind hne hr).mpr (Or.inr h)
  obtain ⟨tag, hone, v, hv, ht⟩ := exists_of_enumerable hne hr hkind
  have hnum := exists_num.mp (h v hv)
  rw [ht] at hnum
  rw [hone]
  exact hnum.imp (fun hi => congrArg TypeKeyword.one (Option.some.inj hi))
    fun hn => congrArg TypeKeyword.one (Option.some.inj hn)

/-- there are elements exactly if the largest array has some -/
theorem elements_iff {e : Evidence} (h : e.Contents caps values) :
    valuesBelow .element values ≠ [] ↔ ∃ n, e.sizes.greatest = some n ∧ 0 < n := by
  have hspans := h.sizes.greatest
  constructor
  · intro hne
    obtain ⟨v, hv, hfollow⟩ := valuesBelow_ne_nil.mp hne
    have hpos := List.length_pos_iff.mpr hfollow
    have hle := length_elements_le hspans v hv
    cases hg : e.sizes.greatest with
    | none =>
      rw [hg] at hle
      have hzero : ((v.follow .element).length : Int) ≤ 0 := hle
      omega
    | some n =>
      rw [hg] at hle
      have hn : ((v.follow .element).length : Int) ≤ n := hle
      exact ⟨n, rfl, by omega⟩
  · intro h
    obtain ⟨n, hg, hn⟩ := h
    rw [hg] at hspans
    obtain ⟨v, hv, hsize⟩ := List.mem_filterMap.mp hspans.1
    rw [← length_of_size? hsize] at hn
    exact valuesBelow_ne_nil.mpr ⟨v, hv, List.length_pos_iff.mp (by omega)⟩

/-- an example is one of the values, and a scalar -/
theorem mem_of_mem_examples (he : 0 ≤ caps.examples) {v : Value}
    (h : v ∈ (gather caps values).examples) : v ∈ values ∧ v.example? = some v := by
  rw [gather_examples he] at h
  obtain ⟨w, hw, hwv⟩ := List.mem_filterMap.mp (List.mem_of_mem_take h)
  have heq : w = v := by
    cases w <;> cases hwv <;> rfl
  rw [heq] at hw hwv
  exact ⟨hw, hwv⟩

end Evidence

/-- what a policy asks for is a key of some value -/
theorem Policy.Asks.exists_key {policy : Policy} {values : List Value} {key : String}
    (h : policy.Asks values key) : ∃ v ∈ values, key ∈ v.keys := by
  simp only [mem_keys]
  cases policy with
  | loose => exact absurd h id
  | observed =>
    obtain ⟨v, hv⟩ := List.exists_mem_of_ne_nil _ h.1
    exact ⟨v, hv, h.2 v hv⟩
  | strict => exact h

/-! ### bounds -/

namespace Bounds
variable {α : Type} [LT α] {b : Bounds α}

/-- bounds that are spoken of where there are some stand in a pair -/
theorem paired {write : α → Value} {ordered : α → α → Prop} {on : Bool} {p : Prop}
    (h : b.SetIf p) (hon : on = true → p)
    (hordered : ∀ l ∈ b.least, ∀ g ∈ b.greatest, ordered l g) :
    Paired write ordered ((b.spokenIf on).least.map write)
      ((b.spokenIf on).greatest.map write) := by
  cases on with
  | false => exact Or.inl ⟨rfl, rfl⟩
  | true =>
    obtain ⟨l, hl⟩ := Option.isSome_iff_exists.mp (h.least.mpr (hon rfl))
    obtain ⟨g, hg⟩ := Option.isSome_iff_exists.mp (h.greatest.mpr (hon rfl))
    exact Or.inr ⟨l, g, congrArg (Option.map write) hl, congrArg (Option.map write) hg,
      hordered l hl g hg⟩

/-- bounds of lengths that are spoken of where there are some stand in a pair -/
theorem lengths_paired {b : Bounds Int} {l : List Int} {on : Bool} {p : Prop} (hs : b.Spans l)
    (hl : ∀ n ∈ l, 0 ≤ n) (h : b.SetIf p) (hon : on = true → p) :
    Paired int LengthsOrdered ((b.spokenIf on).least.map int)
      ((b.spokenIf on).greatest.map int) :=
  paired h hon fun n hn g hg => ⟨(hs.all hl).1 n hn, Int.not_lt.mp (h.ordered n hn g hg)⟩

end Bounds

/-- the first of a list in order is the foremost -/
theorem IsForemost.eq_head? {α : Type} {R : α → α → Prop} {l : List α} {x : Option α}
    (h : IsForemost R l x) (hl : l.Pairwise R) : x = l.head? := by
  cases x with
  | none =>
    have hnil : l = [] := h
    rw [hnil]
    rfl
  | some m =>
    cases hl with
    | nil => cases h.1
    | @cons a r ha _ =>
      rcases List.mem_cons.mp h.1 with hm | hm
      · rw [hm]
        rfl
      · exact absurd (ha m hm) (h.2 a List.mem_cons_self)

/-- an ascending list runs from the lower to the upper bound -/
theorem Bounds.Spans.ends {α : Type} [LT α] {b : Bounds α} {l : List α} (h : b.Spans l)
    (hl : l.Pairwise (· < ·)) : b.least = l.head? ∧ b.greatest = l.getLast? := by
  refine ⟨h.least.eq_head? hl, ?_⟩
  have hreverse : IsForemost (fun x y => y < x) l.reverse b.greatest :=
    h.greatest.congr fun _ => List.mem_reverse.symm
  rw [← List.head?_reverse]
  exact hreverse.eq_head? (List.pairwise_reverse.mpr hl)

/-! ### reading keywords -/

namespace Keywords

/-- the words of the bounds, and what is written for each -/
def bounds (k : Keywords) : List (String × Option Value) :=
  [("minItems", k.sizes.least.map int), ("maxItems", k.sizes.greatest.map int),
    ("minLength", k.lengths.least.map int), ("maxLength", k.lengths.greatest.map int),
    ("minimum", k.numbers.least.map num), ("maximum", k.numbers.greatest.map num)]

theorem lookup_bounds (k : Keywords) : ∀ p ∈ k.bounds, k.members.lookup p.1 = p.2 := by
  intro p hp
  rw [members_eq]
  simp only [bounds, List.mem_cons, List.not_mem_nil, or_false] at hp
  rcases hp with rfl | rfl | rfl | rfl | rfl | rfl <;>
    simp only [List.lookup_append, Schema.lookup_type, Schema.lookup_objectMembers,
      Schema.lookup_optional, Schema.lookup_nonempty] <;> simp

end Keywords

namespace Schema
variable {o : Options} {values : List Value} {s : Schema}

theorem member?_bounds : ∀ p ∈ s.own.bounds, s.written.member? p.1 = p.2 := by
  intro p hp
  have hword : p.1 ∈ ownWords ∧ p.2.map sortKeys = p.2 := by
    simp only [Keywords.bounds, List.mem_cons, List.not_mem_nil, or_false] at hp
    have hnumber : ∀ {α : Type} (x : Option α) (f : α → Number),
        (x.map fun a => num (f a)).map sortKeys = x.map fun a => num (f a) := by
      intro α x f
      cases x <;> rfl
    rcases hp with rfl | rfl | rfl | rfl | rfl | rfl <;>
      exact ⟨by simp [ownWords], hnumber _ _⟩
  rw [member?_own hword.1, Keywords.lookup_bounds _ p hp, hword.2]

theorem member?_numbers : s.written.member? "minimum" = s.own.numbers.least.map num
    ∧ s.written.member? "maximum" = s.own.numbers.greatest.map num :=
  ⟨s.member?_bounds ("minimum", s.own.numbers.least.map num) (by simp [Keywords.bounds]),
    s.member?_bounds ("maximum", s.own.numbers.greatest.map num) (by simp [Keywords.bounds])⟩

theorem member?_lengths : s.written.member? "minLength" = s.own.lengths.least.map int
    ∧ s.written.member? "maxLength" = s.own.lengths.greatest.map int :=
  ⟨s.member?_bounds ("minLength", s.own.lengths.least.map int) (by simp [Keywords.bounds]),
    s.member?_bounds ("maxLength", s.own.lengths.greatest.map int) (by simp [Keywords.bounds])⟩

theorem member?_sizes : s.written.member? "minItems" = s.own.sizes.least.map int
    ∧ s.written.member? "maxItems" = s.own.sizes.greatest.map int :=
  ⟨s.member?_bounds ("minItems", s.own.sizes.least.map int) (by simp [Keywords.bounds]),
    s.member?_bounds ("maxItems", s.own.sizes.greatest.map int) (by simp [Keywords.bounds])⟩

theorem member?_type : s.written.member? "type" = some s.own.type.toValue := by
  have hlookup : s.own.members.lookup "type" = some s.own.type.toValue := by
    rw [Keywords.members_eq]
    rfl
  rw [member?_own (by decide), hlookup]
  cases s.own.type with
  | one tag => rfl
  | union tags =>
    show some (arr (sortItems _)) = _
    rw [sortItems_eq_map, List.map_map]
    rfl

theorem member?_examples : s.written.member? "examples" = (listed s.own.examples).map sortKeys := by
  have hlookup : s.own.members.lookup "examples" = listed s.own.examples := by
    rw [Keywords.members_eq]
    simp only [List.lookup_append, lookup_type, lookup_objectMembers, lookup_optional,
      lookup_nonempty]
    simp
  rw [member?_own (by decide), hlookup]

/-! ### a schema that describes values -/

namespace Describes

theorem own_type (h : s.Describes o values) :
    s.own.type = (Evidence.gather o.caps values).typeKeyword := by
  rw [h.own]
  rfl

theorem contents_gather (hr : ∀ v ∈ values, v.Regular) :
    (Evidence.gather o.caps values).Contents o.caps values :=
  Evidence.gather_contents (Int.natCast_nonneg _) (Int.natCast_nonneg _) hr

theorem consistent_gather (hr : ∀ v ∈ values, v.Regular) :
    (Evidence.gather o.caps values).Consistent o.caps :=
  Evidence.gather_consistent (Int.natCast_nonneg _) (Int.natCast_nonneg _) hr

theorem numbers_paired (h : s.Describes o values) (hr : ∀ v ∈ values, v.Regular) :
    Paired num NumbersOrdered (s.written.member? "minimum") (s.written.member? "maximum") := by
  obtain ⟨hmin, hmax⟩ := s.member?_numbers
  have hc := consistent_gather (o := o) hr
  rw [hmin, hmax, h.own]
  refine Bounds.paired hc.numbers (fun hon => ?_) fun l hl g hg =>
    ⟨(hc.settled.1 l hl).number, (hc.settled.2 g hg).number, hc.numbers.ordered l hl g hg⟩
  have hnumbers := (Bool.and_eq_true_iff.mp hon).1
  rw [Evidence.hasNumbers_iff] at hnumbers
  rwa [Evidence.mem_types, Evidence.mem_types]

theorem lengths_paired (h : s.Describes o values) (hr : ∀ v ∈ values, v.Regular) :
    Paired int LengthsOrdered (s.written.member? "minLength") (s.written.member? "maxLength") := by
  obtain ⟨hmin, hmax⟩ := s.member?_lengths
  have hspans := (contents_gather (o := o) hr).lengths
  rw [hmin, hmax, h.own]
  refine Bounds.lengths_paired hspans (fun n hn => ?_) (consistent_gather hr).lengths fun hon => ?_
  · obtain ⟨v, _, hv⟩ := List.mem_filterMap.mp hn
    cases v <;> cases hv
    exact Int.natCast_nonneg _
  · exact OrdSet.contains_iff_mem.mp (Bool.and_eq_true_iff.mp hon).1

theorem sizes_paired (h : s.Describes o values) (hr : ∀ v ∈ values, v.Regular) :
    Paired int LengthsOrdered (s.written.member? "minItems") (s.written.member? "maxItems") := by
  obtain ⟨hmin, hmax⟩ := s.member?_sizes
  have hspans := (contents_gather (o := o) hr).sizes
  rw [hmin, hmax, h.own]
  refine Bounds.lengths_paired hspans (fun n hn => ?_) (consistent_gather hr).sizes fun hon => ?_
  · obtain ⟨v, _, hv⟩ := List.mem_filterMap.mp hn
    rw [← length_of_size? hv]
    exact Int.natCast_nonneg _
  · have harrays := (Bool.and_eq_true_iff.mp hon).1
    exact OrdSet.contains_iff_mem.mp (Bool.and_eq_true_iff.mp harrays).1

/-- there is a schema for elements where arrays are described, and some have elements -/
theorem items_isSome (h : s.Describes o values) : (s.written.member? "items").isSome = true
    ↔ (Evidence.gather o.caps values).describesArrays = true
      ∧ valuesBelow .element values ≠ [] := by
  rw [member?_items, Option.isSome_map]
  rcases h.step? .element with ⟨u, hu, hd, hne, _⟩ | ⟨hnone, hnil⟩
  · have hitems : s.items = some u := hu
    rw [hitems]
    exact ⟨fun _ => ⟨hd, hne⟩, fun _ => rfl⟩
  · have hitems : s.items = none := hnone
    rw [hitems]
    exact ⟨fun hs => absurd hs Bool.false_ne_true, fun hs => absurd (hnil hs.1) hs.2⟩

/-- where arrays are described and their sizes are told, there is a schema for elements exactly if
the greatest of the sizes is not zero -/
theorem items_counted (h : s.Describes o values) (hr : ∀ v ∈ values, v.Regular)
    (hd : (Evidence.gather o.caps values).describesArrays = true)
    (hon : o.minmax.isTruthy = true) : (s.written.member? "items").isSome = true
      ↔ ∃ n, s.written.member? "maxItems" = some (int n) ∧ 0 < n := by
  obtain ⟨_, hmax⟩ := s.member?_sizes
  have hsizes : (Keywords.ofValues o values).sizes = (Evidence.gather o.caps values).sizes := by
    show Bounds.spokenIf (_ && _) _ = _
    rw [hd, hon]
    rfl
  have helements := Evidence.elements_iff (contents_gather (o := o) hr)
  rw [h.items_isSome, and_iff_right hd, hmax, h.own, hsizes, helements]
  constructor
  · intro hg
    obtain ⟨n, hn, hpos⟩ := hg
    exact ⟨n, by rw [hn]; rfl, hpos⟩
  · intro hg
    obtain ⟨n, hn, hpos⟩ := hg
    obtain ⟨m, hm, hmn⟩ := Option.map_eq_some_iff.mp hn
    cases hmn
    exact ⟨n, hm, hpos⟩

/-- what is required is listed in order, and has a schema -/
theorem required_listed (h : s.Describes o values) (hne : values ≠ []) :
    s.written.member? "required" = none
      ∨ Lists str (fun names => names.Pairwise (· < ·) ∧ names ⊆ s.written.propertyNames)
        (s.written.member? "required") := by
  have htells := h.tellsKeys hne
  rw [htells.written]
  by_cases hnil : s.written.requiredNames = []
  · exact Or.inl (by rw [hnil]; rfl)
  · refine Or.inr ⟨_, hnil, ⟨htells.requiredAscending, fun k hk => ?_⟩, listed_of_ne_nil ?_⟩
    · obtain ⟨hd, hasked⟩ := (h.mem_requiredNames k).mp hk
      exact (h.mem_propertyNames k).mpr ⟨hd, hasked.exists_key⟩
    · exact fun hmap => hnil (List.map_eq_nil_iff.mp hmap)

/-- an enumeration that is written has entries, if there is anything to enumerate -/
theorem lists_of_enumerates {α : Type} [LT α] {write : α → Value} {bound : Nat} {l : List α}
    {keyword : Option Value} (h : Enumerates write bound l keyword) (hne : l ≠ []) :
    keyword = none ∨ Lists write (fun entries => entries.Pairwise (· < ·)
      ∧ ∀ a, a ∈ entries ↔ a ∈ l) keyword := by
  obtain ⟨entries, hs, hmem, rfl⟩ := h
  obtain ⟨a, ha⟩ := List.exists_mem_of_ne_nil _ hne
  split
  · exact Or.inr ⟨entries, List.ne_nil_of_mem ((hmem a).mpr ha), ⟨hs, hmem⟩, rfl⟩
  · exact Or.inl rfl

/-- an ascending list of all the numbers runs from the minimum to the maximum -/
theorem ends_of_numbers (h : s.Describes o values) (hr : ∀ v ∈ values, v.Regular)
    (hnumbers : (Evidence.gather o.caps values).hasNumbers = true)
    (hon : o.minmax.isTruthy = true) {entries : List Number} (hs : entries.Pairwise (· < ·))
    (hmem : ∀ n, n ∈ entries ↔ n ∈ values.filterMap normal?) :
    s.written.member? "minimum" = entries.head?.map num
      ∧ s.written.member? "maximum" = entries.getLast?.map num := by
  obtain ⟨hmin, hmax⟩ := s.member?_numbers
  have hbounds :
      (Keywords.ofValues o values).numbers = (Evidence.gather o.caps values).numbers := by
    show Bounds.spokenIf (_ && _) _ = _
    rw [hnumbers, hon]
    rfl
  have hspans := (contents_gather (o := o) hr).numbers.congr fun n => (hmem n).symm
  obtain ⟨hleast, hgreatest⟩ := hspans.ends hs
  rw [hmin, hmax, h.own, hbounds, hleast, hgreatest]
  exact ⟨rfl, rfl⟩

/-- what is enumerated is listed in order, for the type that it is of -/
theorem enum_listed (h : s.Describes o values) (hne : values ≠ []) (hr : ∀ v ∈ values, v.Regular) :
    s.written.member? "enum" = none
      ∨ (Evidence.gather o.caps values).typeKeyword = .one .string
        ∧ Lists str (fun entries => entries.Pairwise (· < ·)) (s.written.member? "enum")
      ∨ ((Evidence.gather o.caps values).typeKeyword = .one .integer
          ∨ (Evidence.gather o.caps values).typeKeyword = .one .number)
        ∧ Lists num (fun entries => entries.Pairwise (· < ·) ∧ (o.minmax.isTruthy = true →
            s.written.member? "minimum" = entries.head?.map num
              ∧ s.written.member? "maximum" = entries.getLast?.map num))
          (s.written.member? "enum") := by
  have htells := h.tellsEnum hne hr
  obtain ⟨v, hv⟩ := List.exists_mem_of_ne_nil _ hne
  by_cases hs : ∀ v ∈ values, ∃ s, v = str s
  · obtain ⟨x, rfl⟩ := hs v hv
    have hsome : values.filterMap text? ≠ [] :=
      List.ne_nil_of_mem (List.mem_filterMap.mpr ⟨_, hv, rfl⟩)
    refine (lists_of_enumerates (htells.strings hs) hsome).imp id fun hlists => Or.inl ?_
    obtain ⟨entries, hentries, ⟨hascending, _⟩, hword⟩ := hlists
    exact ⟨Evidence.typeKeyword_of_strings hne hr hs, entries, hentries, hascending, hword⟩
  · by_cases hn : ∀ v ∈ values, ∃ n, v = num n
    · obtain ⟨n, rfl⟩ := hn v hv
      have hsome : values.filterMap normal? ≠ [] :=
        List.ne_nil_of_mem (List.mem_filterMap.mpr ⟨_, hv, rfl⟩)
      have hnumbers : (Evidence.gather o.caps values).hasNumbers = true := by
        rw [Evidence.hasNumbers_iff]
        exact (exists_num.mp ⟨n, rfl⟩).imp (fun ht => ⟨_, hv, ht⟩) fun ht => ⟨_, hv, ht⟩
      refine (lists_of_enumerates (htells.numbers hn) hsome).imp id fun hlists => Or.inr ?_
      obtain ⟨entries, hentries, ⟨hascending, hmem⟩, hword⟩ := hlists
      exact ⟨Evidence.typeKeyword_of_numbers hne hr hn, entries, hentries,
        ⟨hascending, fun hon => h.ends_of_numbers hr hnumbers hon hascending hmem⟩, hword⟩
    · exact Or.inl (htells.others hs hn)

/-- a scalar among the values is valid, whatever keys are required -/
theorem validates_scalar (h : s.Describes o values) (hr : ∀ v ∈ values, v.Regular) {v : Value}
    (hv : v ∈ values) (he : v.example? = some v) (ρ : Reading) :
    s.written.validates ρ v = true := by
  have hbare : (([] : List (String × Value)).map Prod.fst).Sublist headings :=
    List.nil_sublist headings
  refine (h.validates_iff hbare).mpr ⟨Admitted.of_mem_of_keys (fun members hm => ?_) hr hv, ?_⟩
  · rw [hm] at he
    cases he
  · intro x u _ w hw
    rcases mem_follow hw with ⟨items, hv | hv, _, _⟩ | ⟨members, k, hv, _, _⟩ <;>
      exact absurd he (by rw [hv]; nofun)

/-- the examples are few, and valid -/
theorem examples_listed (h : s.Describes o values) (hr : ∀ v ∈ values, v.Regular) :
    s.written.member? "examples" = none
      ∨ Lists id (fun entries => entries.length ≤ o.maxExamples
          ∧ ∀ v ∈ entries, ∀ ρ, s.written.validates ρ v = true) (s.written.member? "examples") := by
  have hcap : (0 : Int) ≤ o.caps.examples := Int.natCast_nonneg _
  have hexamples : s.own.examples
      = if o.examples.isTruthy then (Evidence.gather o.caps values).examples else [] := by
    rw [h.own]
    rfl
  have hmem : ∀ v ∈ s.own.examples, v ∈ values ∧ v.example? = some v := by
    intro v hv
    rw [hexamples] at hv
    split at hv
    · exact Evidence.mem_of_mem_examples hcap hv
    · cases hv
  have hsorted : (listed s.own.examples).map sortKeys = listed s.own.examples := by
    refine listed_sorted fun v hv => ?_
    have he := (hmem v hv).2
    cases v <;> first | rfl | cases he
  rw [member?_examples, hsorted]
  by_cases hnil : s.own.examples = []
  · exact Or.inl (by rw [hnil]; rfl)
  · refine Or.inr ⟨_, hnil, ⟨?_, fun v hv ρ => ?_⟩, ?_⟩
    · rw [hexamples]
      split
      · rw [Evidence.gather_examples hcap, List.length_take]
        exact Nat.min_le_left _ _
      · exact Nat.zero_le _
    · exact h.validates_scalar hr (hmem v hv).1 (hmem v hv).2 ρ
    · rw [List.map_id]
      exact listed_of_ne_nil hnil

/-- a schema that describes values is well formed -/
theorem wellFormed (h : s.Describes o values) (hne : values ≠ []) (hr : ∀ v ∈ values, v.Regular) :
    s.written.WellFormed o (Evidence.gather o.caps values).typeKeyword where
  named := by rw [member?_type, h.own_type]
  proper := Evidence.typeKeyword_proper hne hr
  properties := by
    have hd : (Evidence.gather o.caps values).describesObjects = true ↔ _ :=
      Evidence.describes_iff_tags hne hr (x := .key "")
    rw [(h.tellsKeys hne).described, ← Evidence.describesObjects_iff]
    exact hd
  items hitems :=
    (Evidence.describes_iff_tags hne hr (x := .element)).mp (h.items_isSome.mp hitems).1
  itemsCounted harray hobject hon :=
    h.items_counted hr ((Evidence.describes_iff_tags hne hr (x := .element)).mpr ⟨harray, hobject⟩)
      hon
  numbers := h.numbers_paired hr
  lengths := h.lengths_paired hr
  sizes := h.sizes_paired hr
  required := h.required_listed hne
  enum := h.enum_listed hne hr
  examples := h.examples_listed hr

end Describes
end Schema

/-! ### samples -/

/-- every fragment of an inferred schema is well formed -/
theorem infer_wellFormed (m : Machine) {o : Options} {samples : List Value} (hne : samples ≠ [])
    (hs : ∀ v ∈ samples, v.Sample o.maxDepth) :
    (infer m o samples).Returns m o fun schema => ∀ p fragment,
      schema.withoutHeading.fragment? p = some fragment →
        ∃ type, fragment.WellFormed o type := by
  have hr : ∀ v ∈ samples, v.Regular := fun v hv => (hs v hv).regular
  refine Inference.returns_fragments (Inference.gathered_kept o) hne hr
    (fun v hv => (hs v hv).followed) fun p s hd hfound => ?_
  exact ⟨_, Schema.Describes.wellFormed hd hfound (forall_valuesAt Value.Regular.follow p hr)⟩

theorem infer_wellFormed_sizes : ∃ schema fragment type,
    (infer .least .default sizes).answer = .ok schema
      ∧ schema.withoutHeading.fragment? [.key "size"] = some fragment
      ∧ fragment.WellFormed .default type := by
  have hne : sizes ≠ [] := List.cons_ne_nil _ _
  have hs : ∀ v ∈ sizes, v.Sample Options.default.maxDepth := by decide
  obtain ⟨schema, ha, hschema⟩ := (infer_wellFormed .least hne hs).exists_of_le (by decide)
  have hfragment : ((infer .least .default sizes).answer.toOption.map fun schema =>
      (schema.withoutHeading.fragment? [.key "size"]).isSome) = some true := by decide +kernel
  rw [ha] at hfragment
  obtain ⟨fragment, hf⟩ := Option.isSome_iff_exists.mp (Option.some.inj hfragment)
  obtain ⟨type, hw⟩ := hschema _ _ hf
  exact ⟨schema, fragment, type, ha, hf, hw⟩

end JsonShape
