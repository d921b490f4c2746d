import JsonShape.OrdSet

/-!
# Sets by their members

An `OrdSet` is determined by its members, so that two ways of building a set are compared member by
member.  Two members are never level; a set of a list keeps the first of level ones.

* `OrdSet.ext_of_mem`          sets with the same members are equal;
* `OrdSet.mem_insert`          an insertion adds its argument unless a level member is there;
* `OrdSet.sameAs_of_contains`  sets with level members for each other's are the same;
* `OrdSet.ofList_append`       the set of two lists is the union of their sets;
* `OrdSet.ofList_eq_of_mem`    where level means equal, only the members of the list matter;
* `OrdSet.toList_ofList_map`   a function that keeps the order goes through.
-/

set_option linter.unusedSectionVars false

namespace JsonShape
open Std

section
variable {α : Type} [Ord α] [TransOrd α]

theorem nodup_of_ascending {l : List α} (h : l.Pairwise (fun a b => compare a b = .lt)) :
    l.Nodup := by
  refine h.imp ?_
  rintro a b hab rfl
  rw [ReflOrd.compare_self] at hab
  cases hab

/-- ascending lists with the same members are the same list -/
theorem eq_of_ascending {l m : List α} (hl : l.Pairwise (fun a b => compare a b = .lt))
    (hm : m.Pairwise (fun a b => compare a b = .lt)) (h : ∀ a, a ∈ l ↔ a ∈ m) : l = m := by
  have hp : l.Perm m :=
    (List.perm_ext_iff_of_nodup (nodup_of_ascending hl) (nodup_of_ascending hm)).mpr h
  refine List.Perm.eq_of_pairwise ?_ hl hm hp
  intro a b _ _ hab hba
  exact absurd hba (OrientedCmp.not_lt_of_lt hab)

theorem mem_insertInto_iff {a x : α} {l : List α}
    (h : l.Pairwise (fun a b => compare a b = .lt)) :
    x ∈ insertInto a l ↔ x ∈ l ∨ x = a ∧ ∀ b ∈ l, compare a b ≠ .eq := by
  induction l with
  | nil => simp [insertInto]
  | cons b r ih =>
    obtain ⟨hb, hr⟩ := List.pairwise_cons.mp h
    cases hc : compare a b with
    | lt =>
      -- the rest lies above `b`, so nothing in it is level with `a` either
      have hlt : ∀ c ∈ b :: r, compare a c = .lt := by
        intro c hcm
        rcases List.mem_cons.mp hcm with rfl | hcr
        · exact hc
        · exact TransCmp.lt_trans hc (hb c hcr)
      have hne : ∀ c ∈ b :: r, compare a c ≠ .eq := by
        intro c hcm he
        rw [hlt c hcm] at he
        cases he
      simp only [insertInto, hc]
      rw [List.mem_cons, or_comm]
      exact or_congr_right ⟨fun e => ⟨e, hne⟩, fun e => e.1⟩
    | eq =>
      simp only [insertInto, hc]
      constructor
      · intro hx
        exact Or.inl hx
      · rintro (hx | ⟨_, hx⟩)
        · exact hx
        · exact absurd hc (hx b List.mem_cons_self)
    | gt =>
      have hne : (∀ c ∈ b :: r, compare a c ≠ .eq) ↔ ∀ c ∈ r, compare a c ≠ .eq := by
        rw [List.forall_mem_cons, hc]
        simp
      rw [hne]
      simp only [insertInto, hc, List.mem_cons, ih hr, or_assoc]

end

namespace OrdSet
variable {α : Type} [Ord α]

theorem contains_iff {s : OrdSet α} {a : α} :
    s.contains a = true ↔ ∃ b ∈ s.toList, compare a b = .eq := by
  simp [contains]

theorem contains_eq_false_iff {s : OrdSet α} {a : α} :
    s.contains a = false ↔ ∀ b ∈ s.toList, compare a b ≠ .eq := by
  simp [contains]

theorem contains_iff_mem [LawfulEqOrd α] {s : OrdSet α} {a : α} :
    s.contains a = true ↔ a ∈ s.toList := by
  rw [contains_iff]
  constructor
  · rintro ⟨b, hb, hab⟩
    rw [LawfulEqOrd.eq_of_compare hab]
    exact hb
  · intro ha
    exact ⟨a, ha, ReflOrd.compare_self⟩

theorem length_insertInto {a : α} {l : List α} (h : ∀ b ∈ l, compare a b ≠ .eq) :
    (insertInto a l).length = l.length + 1 := by
  induction l with
  | nil => rfl
  | cons b r ih =>
    cases hc : compare a b with
    | lt => simp only [insertInto, hc, List.length_cons]
    | eq => exact absurd hc (h b List.mem_cons_self)
    | gt =>
      simp only [insertInto, hc, List.length_cons]
      rw [ih fun c hcr => h c (List.mem_cons_of_mem b hcr)]

variable [TransOrd α]

theorem ext_of_mem {s t : OrdSet α} (h : ∀ a, a ∈ s.toList ↔ a ∈ t.toList) : s = t :=
  ext (eq_of_ascending s.ascending t.ascending h)

theorem contains_of_mem {s : OrdSet α} {a : α} (h : a ∈ s.toList) : s.contains a = true :=
  contains_iff.mpr ⟨a, h, ReflOrd.compare_self⟩

theorem contains_congr {s : OrdSet α} {a b : α} (h : compare a b = .eq) :
    s.contains a = s.contains b := by
  simp only [contains, TransCmp.congr_left h]

/-! ### insertion -/

theorem mem_insert {s : OrdSet α} {a x : α} :
    x ∈ (s.insert a).toList ↔ x ∈ s.toList ∨ x = a ∧ s.contains a = false := by
  rw [toList_insert, mem_insertInto_iff s.ascending, contains_eq_false_iff]

theorem insert_of_contains {s : OrdSet α} {a : α} (h : s.contains a = true) : s.insert a = s := by
  apply ext_of_mem
  intro x
  rw [mem_insert, h]
  simp

theorem contains_insert {s : OrdSet α} {a b : α} :
    (s.insert a).contains b = (s.contains b || compare b a == .eq) := by
  cases ha : s.contains a with
  | true =>
    rw [insert_of_contains ha]
    cases hc : compare b a == .eq with
    | false => rw [Bool.or_false]
    | true => rw [contains_congr (beq_iff_eq.mp hc), ha, Bool.or_true]
  | false =>
    rw [Bool.eq_iff_iff, Bool.or_eq_true, contains_iff, contains_iff, beq_iff_eq]
    simp only [mem_insert, ha, and_true]
    constructor
    · rintro ⟨c, hc | rfl, hbc⟩
      · exact Or.inl ⟨c, hc, hbc⟩
      · exact Or.inr hbc
    · rintro (⟨c, hc, hbc⟩ | hba)
      · exact ⟨c, Or.inl hc, hbc⟩
      · exact ⟨a, Or.inr rfl, hba⟩

theorem size_insert_of_not_contains {s : OrdSet α} {a : α} (h : s.contains a = false) :
    (s.insert a).size = s.size + 1 :=
  length_insertInto (contains_eq_false_iff.mp h)

/-- the member level with `a`, if there is one -/
def levelWith (s : OrdSet α) (a : α) : α := (s.toList.find? fun b => compare a b == .eq).getD a

theorem levelWith_spec {s : OrdSet α} {a : α} (h : s.contains a = true) :
    s.levelWith a ∈ s.toList ∧ compare a (s.levelWith a) = .eq := by
  obtain ⟨b, hb, hab⟩ := contains_iff.mp h
  have hsome : (s.toList.find? fun b => compare a b == .eq).isSome = true :=
    List.find?_isSome.mpr ⟨b, hb, beq_iff_eq.mpr hab⟩
  obtain ⟨c, hc⟩ := Option.isSome_iff_exists.mp hsome
  have hlevel := List.find?_some hc
  rw [levelWith, hc, Option.getD_some]
  exact ⟨List.mem_of_find?_eq_some hc, beq_iff_eq.mp hlevel⟩

/-- a set is no larger than one that has a level member for each of its own -/
theorem size_le_of_contains {s t : OrdSet α} (h : ∀ a ∈ s.toList, t.contains a = true) :
    s.size ≤ t.size := by
  have hasc : (s.toList.map t.levelWith).Pairwise (fun a b => compare a b = .lt) := by
    refine List.pairwise_map.mpr (s.ascending.imp_of_mem ?_)
    intro a b ha hb hab
    rw [← TransCmp.congr_left (levelWith_spec (h a ha)).2,
      ← TransCmp.congr_right (levelWith_spec (h b hb)).2]
    exact hab
  have hsub : s.toList.map t.levelWith ⊆ t.toList := by
    intro b hb
    obtain ⟨a, ha, rfl⟩ := List.mem_map.mp hb
    exact (levelWith_spec (h a ha)).1
  have hle := (nodup_of_ascending hasc).length_le_of_subset hsub
  rwa [List.length_map] at hle

/-! ### union -/

theorem mem_foldl_insert {s : OrdSet α} {l : List α}
    (hl : l.Pairwise (fun a b => compare a b = .lt)) {x : α} :
    x ∈ (l.foldl insert s).toList ↔ x ∈ s.toList ∨ x ∈ l ∧ s.contains x = false := by
  induction l generalizing s with
  | nil => simp
  | cons a r ih =>
    obtain ⟨ha, hr⟩ := List.pairwise_cons.mp hl
    rw [List.foldl_cons, ih hr, mem_insert, contains_insert, List.mem_cons]
    have hne : x ∈ r → (compare x a == .eq) = false := by
      intro hx
      have h := OrientedCmp.gt_of_lt (ha x hx)
      rw [h]
      rfl
    constructor
    · rintro ((hx | ⟨rfl, hx⟩) | ⟨hx, hc⟩)
      · exact Or.inl hx
      · exact Or.inr ⟨Or.inl rfl, hx⟩
      · exact Or.inr ⟨Or.inr hx, (Bool.or_eq_false_iff.mp hc).1⟩
    · rintro (hx | ⟨rfl | hx, hc⟩)
      · exact Or.inl (Or.inl hx)
      · exact Or.inl (Or.inr ⟨rfl, hc⟩)
      · exact Or.inr ⟨hx, Bool.or_eq_false_iff.mpr ⟨hc, hne hx⟩⟩

theorem mem_union {s t : OrdSet α} {x : α} :
    x ∈ (s.union t).toList ↔ x ∈ s.toList ∨ x ∈ t.toList ∧ s.contains x = false :=
  mem_foldl_insert t.ascending

theorem contains_union {s t : OrdSet α} {a : α} :
    (s.union t).contains a = (s.contains a || t.contains a) := by
  rw [Bool.eq_iff_iff, Bool.or_eq_true, contains_iff]
  constructor
  · rintro ⟨b, hb, hab⟩
    rcases mem_union.mp hb with hb | ⟨hb, _⟩
    · exact Or.inl (contains_iff.mpr ⟨b, hb, hab⟩)
    · exact Or.inr (contains_iff.mpr ⟨b, hb, hab⟩)
  · intro h
    cases hs : s.contains a with
    | true =>
      obtain ⟨b, hb, hab⟩ := contains_iff.mp hs
      exact ⟨b, mem_union.mpr (Or.inl hb), hab⟩
    | false =>
      rw [hs] at h
      obtain ⟨b, hb, hab⟩ := contains_iff.mp (h.resolve_left Bool.false_ne_true)
      exact ⟨b, mem_union.mpr (Or.inr ⟨hb, contains_congr hab ▸ hs⟩), hab⟩

theorem union_insert (s t : OrdSet α) (a : α) : s.union (t.insert a) = (s.union t).insert a := by
  apply ext_of_mem
  intro x
  rw [mem_union, mem_insert, mem_insert, mem_union, contains_union, Bool.or_eq_false_iff]
  constructor
  · rintro (hx | ⟨hx | ⟨rfl, ht⟩, hs⟩)
    · exact Or.inl (Or.inl hx)
    · exact Or.inl (Or.inr ⟨hx, hs⟩)
    · exact Or.inr ⟨rfl, hs, ht⟩
  · rintro ((hx | ⟨hx, hs⟩) | ⟨rfl, hs, ht⟩)
    · exact Or.inl hx
    · exact Or.inr ⟨Or.inl hx, hs⟩
    · exact Or.inr ⟨Or.inr ⟨rfl, ht⟩, hs⟩

theorem union_foldl_insert (s t : OrdSet α) (l : List α) :
    s.union (l.foldl insert t) = l.foldl insert (s.union t) := by
  induction l generalizing t with
  | nil => rfl
  | cons a r ih => rw [List.foldl_cons, List.foldl_cons, ih, union_insert]

theorem union_assoc (s t u : OrdSet α) : (s.union t).union u = s.union (t.union u) :=
  (union_foldl_insert s t u.toList).symm

@[simp] theorem empty_union (s : OrdSet α) : (∅ : OrdSet α).union s = s := by
  apply ext_of_mem
  intro x
  rw [mem_union]
  simp [contains]

theorem size_le_size_union_left (s t : OrdSet α) : s.size ≤ (s.union t).size := by
  apply size_le_of_contains
  intro a ha
  rw [contains_union, contains_of_mem ha, Bool.true_or]

theorem size_le_size_union_right (s t : OrdSet α) : t.size ≤ (s.union t).size := by
  apply size_le_of_contains
  intro a ha
  rw [contains_union, contains_of_mem ha, Bool.or_true]

/-! ### level sets -/

/-- beyond level first members, level members are found in what follows -/
theorem exists_level_tail {a b : α} {r s : List α} (hab : compare a b = .eq)
    (ha : ∀ c ∈ r, compare a c = .lt) (h : ∀ c ∈ a :: r, ∃ d ∈ b :: s, compare c d = .eq) :
    ∀ c ∈ r, ∃ d ∈ s, compare c d = .eq := by
  intro c hc
  obtain ⟨d, hd, hcd⟩ := h c (List.mem_cons_of_mem a hc)
  rcases List.mem_cons.mp hd with rfl | hds
  · have hac := ha c hc
    rw [TransCmp.congr_right hcd, hab] at hac
    cases hac
  · exact ⟨d, hds, hcd⟩

/-- ascending lists with level members for each other's are level one by one -/
theorem level_of_ascending {l m : List α} (hl : l.Pairwise (fun a b => compare a b = .lt))
    (hm : m.Pairwise (fun a b => compare a b = .lt)) (hlm : ∀ a ∈ l, ∃ b ∈ m, compare a b = .eq)
    (hml : ∀ b ∈ m, ∃ a ∈ l, compare b a = .eq) :
    l.length = m.length ∧ ∀ p ∈ l.zip m, compare p.1 p.2 = .eq := by
  induction l generalizing m with
  | nil =>
    cases m with
    | nil => exact ⟨rfl, nofun⟩
    | cons b s =>
      obtain ⟨c, hc, _⟩ := hml b List.mem_cons_self
      cases hc
  | cons a r ih =>
    cases m with
    | nil =>
      obtain ⟨c, hc, _⟩ := hlm a List.mem_cons_self
      cases hc
    | cons b s =>
      obtain ⟨ha, hr⟩ := List.pairwise_cons.mp hl
      obtain ⟨hb, hs⟩ := List.pairwise_cons.mp hm
      -- the lesser of two first members would have nothing level with it on the other side
      have hab : compare a b = .eq := by
        obtain ⟨c, hc, hac⟩ := hlm a List.mem_cons_self
        obtain ⟨d, hd, hbd⟩ := hml b List.mem_cons_self
        rcases List.mem_cons.mp hc with rfl | hcs
        · exact hac
        · rcases List.mem_cons.mp hd with rfl | hdr
          · exact OrientedCmp.eq_symm hbd
          · have hba := hb c hcs
            rw [← TransCmp.congr_right hac, TransCmp.congr_left hbd] at hba
            exact absurd hba (OrientedCmp.not_lt_of_lt (ha d hdr))
      obtain ⟨hlen, hlevel⟩ := ih hr hs (exists_level_tail hab ha hlm)
        (exists_level_tail (OrientedCmp.eq_symm hab) hb hml)
      refine ⟨congrArg (· + 1) hlen, fun p hp => ?_⟩
      rw [List.zip_cons_cons] at hp
      rcases List.mem_cons.mp hp with rfl | hps
      · exact hab
      · exact hlevel p hps

/-- sets are the same if they have level members for each other's -/
theorem sameAs_of_contains {s t : OrdSet α} (h : ∀ a, s.contains a = t.contains a) :
    s.sameAs t = true := by
  have hst : ∀ a ∈ s.toList, ∃ b ∈ t.toList, compare a b = .eq := by
    intro a ha
    rw [← contains_iff, ← h]
    exact contains_of_mem ha
  have hts : ∀ b ∈ t.toList, ∃ a ∈ s.toList, compare b a = .eq := by
    intro b hb
    rw [← contains_iff, h]
    exact contains_of_mem hb
  obtain ⟨hlen, hall⟩ := level_of_ascending s.ascending t.ascending hst hts
  rw [sameAs, Bool.and_eq_true, beq_iff_eq, List.all_eq_true]
  exact ⟨hlen, fun p hp => beq_iff_eq.mpr (hall p hp)⟩

theorem sameAs_refl (s : OrdSet α) : s.sameAs s = true := sameAs_of_contains fun _ => rfl

/-- the two unions may keep different ones of level members -/
theorem union_sameAs_union (s t : OrdSet α) : (s.union t).sameAs (t.union s) = true :=
  sameAs_of_contains fun a => by rw [contains_union, contains_union, Bool.or_comm]

/-! ### sets of lists -/

theorem ofList_append (l m : List α) : ofList (l ++ m) = (ofList l).union (ofList m) := by
  show (l ++ m).foldl insert ∅ = (ofList l).union (m.foldl insert ∅)
  rw [List.foldl_append, union_foldl_insert, union_empty]
  rfl

theorem contains_foldl_insert {s : OrdSet α} {l : List α} {a : α} :
    (l.foldl insert s).contains a = (s.contains a || l.any fun b => compare a b == .eq) := by
  induction l generalizing s with
  | nil => simp
  | cons b r ih => rw [List.foldl_cons, ih, contains_insert, List.any_cons, Bool.or_assoc]

theorem contains_ofList {l : List α} {a : α} :
    (ofList l).contains a = true ↔ ∃ b ∈ l, compare a b = .eq := by
  rw [ofList, contains_foldl_insert]
  simp [contains]

theorem mem_of_mem_foldl_insert {s : OrdSet α} {l : List α} {x : α}
    (h : x ∈ (l.foldl insert s).toList) : x ∈ s.toList ∨ x ∈ l := by
  induction l generalizing s with
  | nil => exact Or.inl h
  | cons a r ih =>
    rcases ih h with hx | hx
    · rcases mem_insert.mp hx with hx | ⟨rfl, _⟩
      · exact Or.inl hx
      · exact Or.inr List.mem_cons_self
    · exact Or.inr (List.mem_cons_of_mem a hx)

theorem mem_of_mem_ofList {l : List α} {x : α} (h : x ∈ (ofList l).toList) : x ∈ l := by
  rcases mem_of_mem_foldl_insert h with hx | hx
  · cases hx
  · exact hx

/-- in a list where level means equal, all members go into the set -/
theorem mem_ofList_iff {l : List α} (hl : ∀ a ∈ l, ∀ b ∈ l, compare a b = .eq → a = b) {x : α} :
    x ∈ (ofList l).toList ↔ x ∈ l := by
  constructor
  · exact mem_of_mem_ofList
  · intro hx
    have hc : (ofList l).contains x = true :=
      contains_ofList.mpr ⟨x, hx, ReflOrd.compare_self⟩
    obtain ⟨b, hb, hxb⟩ := contains_iff.mp hc
    rw [hl x hx b (mem_of_mem_ofList hb) hxb]
    exact hb

theorem mem_ofList [LawfulEqOrd α] {l : List α} {x : α} : x ∈ (ofList l).toList ↔ x ∈ l :=
  mem_ofList_iff fun _ _ _ _ => LawfulEqOrd.eq_of_compare

theorem ofList_eq_of_mem {l m : List α} (hl : ∀ a ∈ l, ∀ b ∈ l, compare a b = .eq → a = b)
    (h : ∀ a, a ∈ l ↔ a ∈ m) : ofList l = ofList m := by
  have hm : ∀ a ∈ m, ∀ b ∈ m, compare a b = .eq → a = b := by
    intro a ha b hb
    exact hl a ((h a).mpr ha) b ((h b).mpr hb)
  apply ext_of_mem
  intro a
  rw [mem_ofList_iff hl, mem_ofList_iff hm, h]

/-! ### images -/

section
variable {β : Type} [Ord β] [TransOrd β] {f : α → β}

theorem insertInto_map (hf : ∀ a b, compare (f a) (f b) = compare a b) (a : α) (l : List α) :
    insertInto (f a) (l.map f) = (insertInto a l).map f := by
  induction l with
  | nil => rfl
  | cons b r ih =>
    rw [List.map_cons, insertInto, insertInto, hf]
    cases compare a b with
    | lt => rfl
    | eq => rfl
    | gt => exact congrArg (f b :: ·) ih

/-- a function that keeps the order takes the set of a list to that of the images -/
theorem toList_ofList_map (hf : ∀ a b, compare (f a) (f b) = compare a b) (l : List α) :
    (ofList (l.map f)).toList = (ofList l).toList.map f := by
  have hfold : ∀ (s : OrdSet α) (t : OrdSet β), t.toList = s.toList.map f →
      ((l.map f).foldl insert t).toList = (l.foldl insert s).toList.map f := by
    induction l with
    | nil => exact fun _ _ h => h
    | cons a r ih =>
      intro s t h
      refine ih (s.insert a) (t.insert (f a)) ?_
      rw [toList_insert, toList_insert, h, insertInto_map hf]
  exact hfold ∅ ∅ rfl

end

end OrdSet
end JsonShape
