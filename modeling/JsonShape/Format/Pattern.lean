import JsonShape.Format.Detect

/-!
# Patterns of formats

A format is given by a pattern that a string has to match as a whole: characters of a class and
texts that stand for themselves, one after the other, one or the other, or several times over.
`Pattern.table` has the patterns of the six formats, in the order in which they are tried.

Two questions about a pattern are answered by looking at it: which characters may occur in what it
matches, and which must.  Where one pattern needs a character that another does not use, no string
matches both.

* `Pattern.matches_append_assoc`   it does not matter how three patterns in a row are bracketed;
* `Pattern.matches_rep_one`, `Pattern.matches_times_one`   several characters of one class;
* `Pattern.Matches.uses`, `Pattern.Matches.mem`   what may occur, and what must;
* `Pattern.Matches.excludes`       no string matches both.
-/

namespace JsonShape

inductive Pattern where
  /-- one character of a class -/
  | one (accepts : Char → Bool)
  /-- a text that stands for itself -/
  | text (s : String)
  | seq (p q : Pattern)
  | alt (p q : Pattern)
  /-- as often as one likes from `least` times on, but not more than `most` times if there is such
  a bound -/
  | rep (least : Nat) (most : Option Nat) (p : Pattern)

namespace Pattern

instance : Append Pattern := ⟨seq⟩

instance : OrOp Pattern := ⟨alt⟩

/-- whether the characters, taken as a whole, are what the pattern describes -/
def Matches : Pattern → List Char → Prop
  | one accepts, cs => ∃ c, accepts c = true ∧ cs = [c]
  | text s, cs => cs = s.toList
  | seq p q, cs => ∃ a b, p.Matches a ∧ q.Matches b ∧ cs = a ++ b
  | alt p q, cs => p.Matches cs ∨ q.Matches cs
  | rep least most p, cs => ∃ parts : List (List Char), (∀ part ∈ parts, p.Matches part)
      ∧ least ≤ parts.length ∧ (∀ m ∈ most, parts.length ≤ m) ∧ cs = parts.flatten

/-! ### the six patterns -/

/-- exactly so many times -/
def times (n : Nat) (p : Pattern) : Pattern := rep n (some n) p

/-- once or not at all -/
def optional (p : Pattern) : Pattern := rep 0 (some 1) p

/-- at least once -/
def several (p : Pattern) : Pattern := rep 1 none p

/-- whether a character lies in one of the ranges, whose ends belong to them -/
def within (ranges : List (Char × Char)) (c : Char) : Bool :=
  ranges.any fun r => r.1 ≤ c && c ≤ r.2

def digit : Pattern := one (within [('0', '9')])

def thousandths : Pattern := text "." ++ digit.times 3

/-- the letter of universal time, or a signed distance from it -/
def zone : Pattern :=
  text "Z" ||| one (within [('+', '+'), ('-', '-')]) ++ digit.times 2 ++ text ":" ++ digit.times 2

/-- a date, a `T`, a time, perhaps thousandths, and a zone -/
def dateTime : Pattern :=
  digit.times 4 ++ text "-" ++ digit.times 2 ++ text "-" ++ digit.times 2 ++ text "T"
    ++ digit.times 2 ++ text ":" ++ digit.times 2 ++ text ":" ++ digit.times 2
    ++ optional thousandths ++ zone

/-- characters that are neither blank nor an `@` -/
def word : Pattern := several (one fun c => !Text.isBlank c && c != '@')

def email : Pattern := word ++ text "@" ++ word ++ text "." ++ word

/-- a hexadecimal digit, a letter in either case -/
def caselessHex : Pattern := one fun c => within [('0', '9'), ('a', 'f')] c.toLower

def uuid : Pattern :=
  caselessHex.times 8 ++ text "-" ++ caselessHex.times 4 ++ text "-" ++ caselessHex.times 4
    ++ text "-" ++ caselessHex.times 4 ++ text "-" ++ caselessHex.times 12

/-- a scheme and anything after it, line breaks too -/
def uri : Pattern := text "http" ++ optional (text "s") ++ text "://" ++ several (one fun _ => true)

/-- a number up to 255, perhaps with zeros before it -/
def octet : Pattern :=
  text "25" ++ one (within [('0', '5')]) ||| text "2" ++ one (within [('0', '4')]) ++ digit
    ||| optional (one (within [('0', '1')])) ++ digit ++ optional digit

def ipv4 : Pattern := (octet ++ text ".").times 3 ++ octet

/-- one to four hexadecimal digits -/
def group : Pattern := rep 1 (some 4) (one (within [('0', '9'), ('a', 'f'), ('A', 'F')]))

def ipv6 : Pattern := (group ++ text ":").times 7 ++ group

/-- the formats with their patterns, in the order in which they are tried -/
def table : List (Format × Pattern) :=
  [(.dateTime, dateTime), (.email, email), (.uuid, uuid), (.uri, uri), (.ipv4, ipv4),
    (.ipv6, ipv6)]

/-! ### patterns in a row -/

section
variable {p q r : Pattern} {cs : List Char}

theorem matches_append :
    (p ++ q).Matches cs ↔ ∃ a b, p.Matches a ∧ q.Matches b ∧ cs = a ++ b := Iff.rfl

theorem matches_or : (p ||| q).Matches cs ↔ p.Matches cs ∨ q.Matches cs := Iff.rfl

theorem matches_append_assoc : (p ++ q ++ r).Matches cs ↔ (p ++ (q ++ r)).Matches cs := by
  constructor
  · rintro ⟨_, c, ⟨a, b, ha, hb, rfl⟩, hc, rfl⟩
    exact ⟨a, b ++ c, ha, ⟨b, c, hb, hc, rfl⟩, List.append_assoc a b c⟩
  · rintro ⟨a, _, ha, ⟨b, c, hb, hc, rfl⟩, rfl⟩
    exact ⟨a ++ b, c, ⟨a, b, ha, hb, rfl⟩, hc, (List.append_assoc a b c).symm⟩

theorem matches_text_append {s : String} :
    (text s ++ q).Matches cs ↔ ∃ rest, q.Matches rest ∧ cs = s.toList ++ rest := by
  constructor
  · rintro ⟨_, rest, rfl, hq, rfl⟩
    exact ⟨rest, hq, rfl⟩
  · rintro ⟨rest, hq, rfl⟩
    exact ⟨s.toList, rest, rfl, hq, rfl⟩

theorem matches_one_append {accepts : Char → Bool} : (one accepts ++ q).Matches cs
    ↔ ∃ c rest, accepts c = true ∧ q.Matches rest ∧ cs = c :: rest := by
  constructor
  · rintro ⟨_, rest, ⟨c, hc, rfl⟩, hq, rfl⟩
    exact ⟨c, rest, hc, hq, rfl⟩
  · rintro ⟨c, rest, hc, hq, rfl⟩
    exact ⟨[c], rest, ⟨c, hc, rfl⟩, hq, rfl⟩

theorem matches_optional : (optional p).Matches cs ↔ cs = [] ∨ p.Matches cs := by
  constructor
  · rintro ⟨parts, hparts, -, hmost, rfl⟩
    have hlength : parts.length ≤ 1 := hmost 1 rfl
    match parts, hparts, hlength with
    | [], _, _ => exact .inl rfl
    | [a], hparts, _ => exact .inr (by simpa using hparts)
  · rintro (rfl | h)
    · exact ⟨[], by simp⟩
    · exact ⟨[cs], by simpa using h⟩

theorem matches_optional_append :
    (optional p ++ q).Matches cs ↔ q.Matches cs ∨ (p ++ q).Matches cs := by
  simp only [matches_append, matches_optional]
  constructor
  · rintro ⟨a, b, rfl | ha, hb, rfl⟩
    · exact .inl hb
    · exact .inr ⟨a, b, ha, hb, rfl⟩
  · rintro (h | ⟨a, b, ha, hb, rfl⟩)
    · exact ⟨[], cs, .inl rfl, h, rfl⟩
    · exact ⟨a, b, .inr ha, hb, rfl⟩

theorem matches_times {n : Nat} : (p.times n).Matches cs
    ↔ ∃ parts : List (List Char), (∀ part ∈ parts, p.Matches part) ∧ parts.length = n
      ∧ cs = parts.flatten := by
  constructor
  · rintro ⟨parts, hparts, hleast, hmost, hcs⟩
    exact ⟨parts, hparts, Nat.le_antisymm (hmost n rfl) hleast, hcs⟩
  · rintro ⟨parts, hparts, rfl, hcs⟩
    exact ⟨parts, hparts, Nat.le_refl _, fun m hm => Nat.le_of_eq (Option.some.inj hm), hcs⟩

theorem matches_times_zero_append : (p.times 0 ++ q).Matches cs ↔ q.Matches cs := by
  simp only [matches_append, matches_times, List.length_eq_zero_iff]
  constructor
  · rintro ⟨_, b, ⟨_, -, rfl, rfl⟩, hb, rfl⟩
    exact hb
  · intro h
    exact ⟨[], cs, ⟨[], by simp, rfl, rfl⟩, h, rfl⟩

theorem matches_times_succ_append {n : Nat} :
    (p.times (n + 1) ++ q).Matches cs ↔ (p ++ (p.times n ++ q)).Matches cs := by
  simp only [matches_append, matches_times]
  constructor
  · rintro ⟨_, b, ⟨parts, hparts, hlength, rfl⟩, hb, rfl⟩
    cases parts with
    | nil => cases hlength
    | cons a rest =>
      obtain ⟨ha, hrest⟩ := List.forall_mem_cons.mp hparts
      exact ⟨a, rest.flatten ++ b, ha,
        ⟨rest.flatten, b, ⟨rest, hrest, Nat.succ.inj hlength, rfl⟩, hb, rfl⟩, by simp⟩
  · rintro ⟨a, _, ha, ⟨_, b, ⟨rest, hrest, hlength, rfl⟩, hb, rfl⟩, rfl⟩
    exact ⟨(a :: rest).flatten, b, ⟨a :: rest, List.forall_mem_cons.mpr ⟨ha, hrest⟩,
      congrArg Nat.succ hlength, rfl⟩, hb, by simp⟩

/-- several characters of one class -/
theorem matches_rep_one {accepts : Char → Bool} {least : Nat} {most : Option Nat} :
    (rep least most (one accepts)).Matches cs
      ↔ least ≤ cs.length ∧ (∀ m ∈ most, cs.length ≤ m) ∧ ∀ c ∈ cs, accepts c = true := by
  have hflat : ∀ ds : List Char, (ds.map ([·])).flatten = ds := fun ds => by
    rw [← List.flatMap_def, List.flatMap_singleton']
  constructor
  · rintro ⟨parts, hparts, hleast, hmost, rfl⟩
    have hsingles : ∃ ds : List Char, (∀ c ∈ ds, accepts c = true) ∧ parts = ds.map ([·]) := by
      clear hleast hmost
      induction parts with
      | nil => exact ⟨[], by simp, rfl⟩
      | cons part rest ih =>
        obtain ⟨⟨c, hc, rfl⟩, hrest⟩ := List.forall_mem_cons.mp hparts
        obtain ⟨ds, hds, rfl⟩ := ih hrest
        exact ⟨c :: ds, List.forall_mem_cons.mpr ⟨hc, hds⟩, rfl⟩
    obtain ⟨ds, hds, rfl⟩ := hsingles
    rw [List.length_map] at hleast hmost
    rw [hflat]
    exact ⟨hleast, hmost, hds⟩
  · rintro ⟨hleast, hmost, hall⟩
    refine ⟨cs.map ([·]), fun part hpart => ?_, by rwa [List.length_map],
      by rwa [List.length_map], (hflat cs).symm⟩
    obtain ⟨c, hc, rfl⟩ := List.mem_map.mp hpart
    exact ⟨c, hall c hc, rfl⟩

theorem matches_times_one {accepts : Char → Bool} {n : Nat} :
    ((one accepts).times n).Matches cs ↔ cs.length = n ∧ ∀ c ∈ cs, accepts c = true := by
  rw [times, matches_rep_one]
  constructor
  · rintro ⟨hleast, hmost, hall⟩
    exact ⟨Nat.le_antisymm (hmost n rfl) hleast, hall⟩
  · rintro ⟨rfl, hall⟩
    exact ⟨Nat.le_refl _, fun m hm => Nat.le_of_eq (Option.some.inj hm), hall⟩

end

/-! ### what may occur, and what must -/

/-- whether a character may occur in what the pattern matches -/
def uses (c : Char) : Pattern → Bool
  | one accepts => accepts c
  | text s => s.toList.contains c
  | seq p q => p.uses c || q.uses c
  | alt p q => p.uses c || q.uses c
  | rep _ _ p => p.uses c

/-- whether a character is bound to occur; of a class that need not be seen -/
def needs (c : Char) : Pattern → Bool
  | one _ => false
  | text s => s.toList.contains c
  | seq p q => p.needs c || q.needs c
  | alt p q => p.needs c && q.needs c
  | rep least _ p => 0 < least && p.needs c

theorem Matches.uses {p : Pattern} {cs : List Char} {c : Char} (h : p.Matches cs) (hc : c ∈ cs) :
    p.uses c = true := by
  induction p generalizing cs with
  | one accepts =>
    obtain ⟨d, hd, rfl⟩ := h
    rw [List.mem_singleton.mp hc]
    exact hd
  | text s =>
    rw [show cs = s.toList from h] at hc
    exact List.contains_iff_mem.mpr hc
  | seq p q ihp ihq =>
    obtain ⟨a, b, ha, hb, rfl⟩ := h
    rw [Pattern.uses, Bool.or_eq_true]
    exact (List.mem_append.mp hc).imp (ihp ha) (ihq hb)
  | alt p q ihp ihq =>
    rw [Pattern.uses, Bool.or_eq_true]
    exact h.imp (ihp · hc) (ihq · hc)
  | rep least most p ih =>
    obtain ⟨parts, hparts, -, -, rfl⟩ := h
    obtain ⟨part, hpart, hcp⟩ := List.mem_flatten.mp hc
    exact ih (hparts part hpart) hcp

theorem Matches.mem {p : Pattern} {cs : List Char} {c : Char} (h : p.Matches cs)
    (hc : p.needs c = true) : c ∈ cs := by
  induction p generalizing cs with
  | one accepts => cases hc
  | text s =>
    rw [show cs = s.toList from h]
    exact List.contains_iff_mem.mp hc
  | seq p q ihp ihq =>
    obtain ⟨a, b, ha, hb, rfl⟩ := h
    rw [Pattern.needs, Bool.or_eq_true] at hc
    exact List.mem_append.mpr (hc.imp (ihp ha) (ihq hb))
  | alt p q ihp ihq =>
    rw [Pattern.needs, Bool.and_eq_true] at hc
    exact h.elim (ihp · hc.1) (ihq · hc.2)
  | rep least most p ih =>
    obtain ⟨parts, hparts, hleast, -, rfl⟩ := h
    rw [Pattern.needs, Bool.and_eq_true, decide_eq_true_eq] at hc
    cases parts with
    | nil => exact absurd hleast (Nat.not_le_of_lt hc.1)
    | cons part rest =>
      rw [List.flatten_cons]
      exact List.mem_append_left _ (ih (hparts part List.mem_cons_self) hc.2)

/-- what matches a pattern that needs a character does not match one that does not use it -/
theorem Matches.excludes {p q : Pattern} {cs : List Char} (h : p.Matches cs) (c : Char)
    (hp : p.needs c = true) (hq : q.uses c = false) : ¬ q.Matches cs := by
  intro hmatch
  rw [hmatch.uses (h.mem hp)] at hq
  cases hq

end Pattern
end JsonShape
