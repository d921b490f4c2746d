import Mathlib.Data.List.Forall2
import JsonShape.Format.Pattern

/-!
# Layouts, fields and patterns

A layout and a pattern may describe the same strings, and so may a pattern and a row of patterns for
the fields about a separator.  Both are shown part by part, along the pattern.

* `Pattern.LaidOut.append`, `or`, `optional`   layouts are composed as patterns are;
* `Pattern.Fields.cons`                         one more field before the others;
* `Pattern.Fields.times`                        fields that repeat.
-/

namespace JsonShape

open Format

section
variable {α β : Type} {R : α → β → Prop}

theorem forall₂_replicate {a : α} {n : Nat} {l : List β} :
    List.Forall₂ R (List.replicate n a) l ↔ l.length = n ∧ ∀ b ∈ l, R a b := by
  induction n generalizing l with
  | zero =>
    rw [List.replicate_zero, List.forall₂_nil_left_iff, List.length_eq_zero_iff]
    constructor
    · rintro rfl
      exact ⟨rfl, by simp⟩
    · exact And.left
  | succ n ih =>
    rw [List.replicate_succ, List.forall₂_cons_left_iff]
    constructor
    · rintro ⟨b, r, hb, hr, rfl⟩
      obtain ⟨hlength, hall⟩ := ih.mp hr
      exact ⟨congrArg Nat.succ hlength, List.forall_mem_cons.mpr ⟨hb, hall⟩⟩
    · rintro ⟨hlength, hall⟩
      cases l with
      | nil => cases hlength
      | cons b r =>
        obtain ⟨hb, hr⟩ := List.forall_mem_cons.mp hall
        exact ⟨b, r, hb, ih.mpr ⟨Nat.succ.inj hlength, hr⟩, rfl⟩

end

namespace Format

theorem fits_iff {slots cs : List Char} :
    fits slots cs = true ↔ List.Forall₂ (fun slot c => slotFits slot c = true) slots cs := by
  induction slots generalizing cs with
  | nil => cases cs <;> simp [fits]
  | cons slot r ih => cases cs <;> simp [fits, ih]

end Format

namespace Pattern

/-! ### layouts -/

/-- whether one of the layouts is filled exactly where the pattern matches -/
def LaidOut (p : Pattern) (layouts : List (List Char)) : Prop :=
  ∀ cs, (∃ layout ∈ layouts, fits layout cs = true) ↔ p.Matches cs

section
variable {p q : Pattern} {ls ms : List (List Char)}

theorem LaidOut.append (hp : LaidOut p ls) (hq : LaidOut q ms) :
    LaidOut (p ++ q) (ls.flatMap fun l => ms.map (l ++ ·)) := by
  intro cs
  simp only [List.mem_flatMap, List.mem_map, matches_append]
  constructor
  · rintro ⟨_, ⟨l, hl, m, hm, rfl⟩, hfits⟩
    obtain ⟨a, b, rfl, ha, hb⟩ := fits_append.mp hfits
    exact ⟨a, b, (hp a).mp ⟨l, hl, ha⟩, (hq b).mp ⟨m, hm, hb⟩, rfl⟩
  · rintro ⟨a, b, ha, hb, rfl⟩
    obtain ⟨l, hl, hla⟩ := (hp a).mpr ha
    obtain ⟨m, hm, hmb⟩ := (hq b).mpr hb
    exact ⟨l ++ m, ⟨l, hl, m, hm, rfl⟩, fits_append.mpr ⟨a, b, rfl, hla, hmb⟩⟩

theorem LaidOut.or (hp : LaidOut p ls) (hq : LaidOut q ms) : LaidOut (p ||| q) (ls ++ ms) := by
  intro cs
  simp only [List.mem_append, or_and_right, exists_or, matches_or]
  exact or_congr (hp cs) (hq cs)

theorem LaidOut.optional (hp : LaidOut p ls) : LaidOut (optional p) ([] :: ls) := by
  intro cs
  rw [matches_optional, List.exists_mem_cons_iff, fits_iff, List.forall₂_nil_left_iff, hp cs]

/-- a character of a class may be one of several slots -/
theorem laidOut_one {accepts : Char → Bool} {slots : List Char}
    (h : ∀ c, accepts c = true ↔ ∃ slot ∈ slots, slotFits slot c = true) :
    LaidOut (one accepts) (slots.map ([·])) := by
  intro cs
  simp only [List.mem_map, exists_exists_and_eq_and, fits_iff, List.forall₂_cons_left_iff,
    List.forall₂_nil_left_iff]
  constructor
  · rintro ⟨slot, hslot, c, _, hc, rfl, rfl⟩
    exact ⟨c, (h c).mpr ⟨slot, hslot, hc⟩, rfl⟩
  · rintro ⟨c, hc, rfl⟩
    obtain ⟨slot, hslot, hfits⟩ := (h c).mp hc
    exact ⟨slot, hslot, c, [], hfits, rfl, rfl⟩

theorem laidOut_times {accepts : Char → Bool} {slot : Char} (h : ∀ c, slotFits slot c = accepts c)
    (n : Nat) : LaidOut ((one accepts).times n) [List.replicate n slot] := by
  intro cs
  rw [matches_times_one]
  simp only [List.mem_singleton, exists_eq_left, fits_iff, forall₂_replicate, h]

/-- in a layout, everything but the two letters stands for itself -/
theorem laidOut_text {text : String} (h : 'd' ∉ text.toList ∧ 'h' ∉ text.toList) :
    LaidOut (.text text) [text.toList] := by
  have hself : ∀ {slots cs : List Char}, 'd' ∉ slots ∧ 'h' ∉ slots →
      (List.Forall₂ (fun slot c => slotFits slot c = true) slots cs ↔ cs = slots) := by
    intro slots cs h
    induction slots generalizing cs with
    | nil => rw [List.forall₂_nil_left_iff]
    | cons slot r ih =>
      simp only [List.mem_cons, not_or] at h
      obtain ⟨⟨hd, hdr⟩, hh, hhr⟩ := h
      have hslot : ∀ c, slotFits slot c = true ↔ c = slot := by
        intro c
        rw [slotFits, if_neg (Ne.symm hd), if_neg (Ne.symm hh), beq_iff_eq]
      rw [List.forall₂_cons_left_iff]
      constructor
      · rintro ⟨c, r', hc, hr, rfl⟩
        rw [(hslot c).mp hc, (ih ⟨hdr, hhr⟩).mp hr]
      · rintro rfl
        exact ⟨slot, r, (hslot slot).mpr rfl, (ih ⟨hdr, hhr⟩).mpr rfl, rfl⟩
  intro cs
  simp only [List.mem_singleton, exists_eq_left, fits_iff]
  exact hself h

end

/-! ### fields -/

/-- whether to match a pattern is to match the fields about a separator, each with its own -/
def Fields (sep : Char) (p : Pattern) (ps : List Pattern) : Prop :=
  ∀ cs, p.Matches cs ↔ List.Forall₂ (fun q field => q.Matches field) ps (cs.splitOn sep)

/-- what stands before the first separator is the first field -/
theorem splitOn_cases (sep : Char) (cs : List Char) :
    sep ∉ cs ∧ cs.splitOn sep = [cs]
      ∨ ∃ field rest, cs = field ++ sep :: rest ∧ sep ∉ field
        ∧ cs.splitOn sep = field :: rest.splitOn sep := by
  by_cases h : sep ∈ cs
  · obtain ⟨field, rest, rfl, hfield⟩ := List.eq_append_cons_of_mem h
    exact .inr ⟨field, rest, rfl, hfield, List.splitOn_append_cons_self_of_not_mem hfield rest⟩
  · exact .inl ⟨h, List.splitOn_eq_singleton h⟩

theorem splitOn_eq_pair {sep : Char} {cs a b : List Char} :
    cs.splitOn sep = [a, b] ↔ cs = a ++ sep :: b ∧ sep ∉ a ∧ sep ∉ b := by
  constructor
  · intro h
    rcases splitOn_cases sep cs with ⟨_, hsplit⟩ | ⟨field, rest, rfl, hfield, hsplit⟩
    · rw [hsplit] at h
      cases h
    · rw [hsplit, List.cons.injEq] at h
      obtain ⟨rfl, hrest⟩ := h
      rcases splitOn_cases sep rest with ⟨hb, hone⟩ | ⟨_, _, rfl, _, hmore⟩
      · rw [hone] at hrest
        cases hrest
        exact ⟨rfl, hfield, hb⟩
      · rw [hmore, List.cons.injEq] at hrest
        exact absurd hrest.2 (List.splitOn_ne_nil _ _)
  · rintro ⟨rfl, ha, hb⟩
    rw [List.splitOn_append_cons_self_of_not_mem ha, List.splitOn_eq_singleton hb]

section
variable {sep : Char} {p q r : Pattern} {ps : List Pattern} {s : String}

theorem Matches.not_mem {cs : List Char} (h : p.Matches cs) (hp : p.uses sep = false) :
    sep ∉ cs := by
  intro hmem
  rw [h.uses hmem] at hp
  cases hp

theorem Fields.single (hp : p.uses sep = false) : Fields sep p [p] := by
  intro cs
  rcases splitOn_cases sep cs with ⟨_, hsplit⟩ | ⟨field, rest, rfl, _, hsplit⟩
  · rw [hsplit, List.forall₂_cons, and_iff_left List.Forall₂.nil]
  · rw [hsplit, List.forall₂_cons]
    constructor
    · intro h
      exact absurd (List.mem_append_right field List.mem_cons_self) (h.not_mem hp)
    · rintro ⟨_, h⟩
      exact absurd (List.forall₂_nil_left_iff.mp h) (List.splitOn_ne_nil sep rest)

theorem Fields.cons (hs : s.toList = [sep]) (hp : p.uses sep = false)
    (hq : Fields sep q (r :: ps)) : Fields sep (p ++ (text s ++ q)) (p :: r :: ps) := by
  intro cs
  constructor
  · rintro ⟨field, _, hfield, ⟨_, rest, rfl, hrest, rfl⟩, rfl⟩
    rw [hs, List.singleton_append,
      List.splitOn_append_cons_self_of_not_mem (hfield.not_mem hp), List.forall₂_cons]
    exact ⟨hfield, (hq rest).mp hrest⟩
  · intro h
    rcases splitOn_cases sep cs with ⟨_, hsplit⟩ | ⟨field, rest, rfl, _, hsplit⟩
    · rw [hsplit, List.forall₂_cons] at h
      cases h.2
    · rw [hsplit, List.forall₂_cons] at h
      exact ⟨field, sep :: rest, h.1,
        matches_text_append.mpr ⟨rest, (hq rest).mpr h.2, by rw [hs]; rfl⟩, rfl⟩

theorem Fields.times (hs : s.toList = [sep]) (hp : p.uses sep = false)
    (hq : Fields sep q (p :: ps)) (n : Nat) :
    Fields sep ((p ++ text s).times n ++ q) (List.replicate n p ++ p :: ps) := by
  induction n with
  | zero =>
    intro cs
    rw [matches_times_zero_append]
    exact hq cs
  | succ n ih =>
    intro cs
    rw [matches_times_succ_append, matches_append_assoc, List.replicate_succ, List.cons_append]
    cases n with
    | zero => exact Fields.cons hs hp ih cs
    | succ n => exact Fields.cons hs hp ih cs

end

end Pattern
end JsonShape
