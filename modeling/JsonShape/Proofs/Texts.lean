import JsonShape.Proofs.Layouts

/-!
# The texts of the formats

What a text of each format is, said by its characters and their places, without a pattern and
without a way of searching.  Of mail and of the web it is shown here that the pattern matches such
texts and that the recogniser accepts them; of the other formats in `JsonShape.Proofs.Grouped`.

* `Format.EmailText` and its like                what a text of a format is;
* `Pattern.exists_inner_dot`                     any of several points may part a domain;
* `Pattern.matches_email`, `matches_uri`         what the two patterns match;
* `Pattern.isEmail_iff`, `isUri_iff`             what the two recognisers accept.
-/

namespace JsonShape

/-! ### texts -/

namespace Format

/-- one of the ten digits -/
def DecimalDigit (c : Char) : Prop := '0' ≤ c ∧ c ≤ '9'

/-- one of the sixteen digits, a letter in either case -/
def HexDigit (c : Char) : Prop := DecimalDigit c ∨ 'a' ≤ c ∧ c ≤ 'f' ∨ 'A' ≤ c ∧ c ≤ 'F'

/-- so many digits -/
def Digits (n : Nat) (cs : List Char) : Prop := cs.length = n ∧ ∀ c ∈ cs, DecimalDigit c

/-- white space, or one of the separators that count as such -/
def Blank (c : Char) : Prop :=
  0x9 ≤ c.toNat ∧ c.toNat ≤ 0xd ∨ 0x1c ≤ c.toNat ∧ c.toNat ≤ 0x20 ∨ c.toNat = 0x85
    ∨ c.toNat = 0xa0 ∨ c.toNat = 0x1680 ∨ 0x2000 ≤ c.toNat ∧ c.toNat ≤ 0x200a
    ∨ c.toNat = 0x2028 ∨ c.toNat = 0x2029 ∨ c.toNat = 0x202f ∨ c.toNat = 0x205f
    ∨ c.toNat = 0x3000

/-- one `@`, with something before it and a point inside what is after it, and no blanks -/
def EmailText (cs : List Char) : Prop :=
  ∃ name domain, cs = name ++ '@' :: domain ∧ '@' ∉ name ∧ '@' ∉ domain ∧ name ≠ []
    ∧ (∃ i, 0 < i ∧ i + 1 < domain.length ∧ domain[i]? = some '.') ∧ ∀ c ∈ cs, ¬ Blank c

/-- one of the two schemes, and something after it -/
def UriText (cs : List Char) : Prop :=
  ∃ rest, rest ≠ [] ∧ (cs = "http://".toList ++ rest ∨ cs = "https://".toList ++ rest)

/-- a date and a time of digits, perhaps thousandths, and a zone -/
def DateTimeText (cs : List Char) : Prop :=
  ∃ year month day hour minute second fraction zone : List Char,
    cs = year ++ '-' :: month ++ '-' :: day ++ 'T' :: hour ++ ':' :: minute ++ ':' :: second
      ++ fraction ++ zone
    ∧ Digits 4 year ∧ Digits 2 month ∧ Digits 2 day
    ∧ Digits 2 hour ∧ Digits 2 minute ∧ Digits 2 second
    ∧ (fraction = [] ∨ ∃ thousandths, fraction = '.' :: thousandths ∧ Digits 3 thousandths)
    ∧ (zone = ['Z'] ∨ ∃ sign hours minutes, zone = sign :: hours ++ ':' :: minutes
        ∧ (sign = '+' ∨ sign = '-') ∧ Digits 2 hours ∧ Digits 2 minutes)

/-- five groups of hexadecimal digits about hyphens -/
def UuidText (cs : List Char) : Prop :=
  (cs.splitOn '-').map List.length = [8, 4, 4, 4, 12]
    ∧ ∀ part ∈ cs.splitOn '-', ∀ c ∈ part, HexDigit c

/-- one to three digits, a number up to 255 -/
def OctetText (cs : List Char) : Prop :=
  1 ≤ cs.length ∧ cs.length ≤ 3 ∧ (∀ c ∈ cs, DecimalDigit c) ∧ decimal cs ≤ 255

/-- four numbers up to 255 about points -/
def Ipv4Text (cs : List Char) : Prop :=
  (cs.splitOn '.').length = 4 ∧ ∀ part ∈ cs.splitOn '.', OctetText part

/-- eight groups of one to four hexadecimal digits about colons -/
def Ipv6Text (cs : List Char) : Prop :=
  (cs.splitOn ':').length = 8 ∧ ∀ part ∈ cs.splitOn ':',
    1 ≤ part.length ∧ part.length ≤ 4 ∧ ∀ c ∈ part, HexDigit c

/-! ### characters -/

theorem le_iff_toNat {a b : Char} : a ≤ b ↔ a.toNat ≤ b.toNat :=
  Char.le_def.trans UInt32.le_iff_toNat_le

theorem within_iff {ranges : List (Char × Char)} {c : Char} : Pattern.within ranges c = true
    ↔ ∃ r ∈ ranges, r.1.toNat ≤ c.toNat ∧ c.toNat ≤ r.2.toNat := by
  simp only [Pattern.within, List.any_eq_true, Bool.and_eq_true, decide_eq_true_eq, le_iff_toNat]

theorem within_range {lo hi c : Char} :
    Pattern.within [(lo, hi)] c = true ↔ lo.toNat ≤ c.toNat ∧ c.toNat ≤ hi.toNat := by
  simp [within_iff]

theorem decimal_iff {c : Char} : DecimalDigit c ↔ 48 ≤ c.toNat ∧ c.toNat ≤ 57 :=
  and_congr le_iff_toNat le_iff_toNat

theorem hexadecimal_iff {c : Char} : HexDigit c
    ↔ (48 ≤ c.toNat ∧ c.toNat ≤ 57) ∨ (97 ≤ c.toNat ∧ c.toNat ≤ 102)
      ∨ (65 ≤ c.toNat ∧ c.toNat ≤ 70) :=
  or_congr decimal_iff (or_congr (and_congr le_iff_toNat le_iff_toNat)
    (and_congr le_iff_toNat le_iff_toNat))

theorem within_decimal {c : Char} : Pattern.within [('0', '9')] c = true ↔ DecimalDigit c := by
  rw [within_range, decimal_iff]
  exact Iff.rfl

theorem within_hexadecimal {c : Char} :
    Pattern.within [('0', '9'), ('a', 'f'), ('A', 'F')] c = true ↔ HexDigit c := by
  simp [within_iff, hexadecimal_iff]

/-- only the capitals of ASCII have another small letter -/
theorem toNat_toLower (c : Char) :
    c.toLower.toNat = if 65 ≤ c.toNat ∧ c.toNat ≤ 90 then c.toNat + 32 else c.toNat := by
  have hcapital : (c.val ≥ 'A'.val ∧ c.val ≤ 'Z'.val) ↔ 65 ≤ c.toNat ∧ c.toNat ≤ 90 :=
    and_congr UInt32.le_iff_toNat_le UInt32.le_iff_toNat_le
  by_cases h : 65 ≤ c.toNat ∧ c.toNat ≤ 90
  · have hle : c.val.toNat ≤ 90 := h.2
    have hlower : c.toLower = ⟨c.val + 32, _⟩ := dif_pos (hcapital.mpr h)
    rw [hlower, if_pos h]
    show (c.val + 32).toNat = c.val.toNat + 32
    rw [UInt32.toNat_add]
    exact Nat.mod_eq_of_lt (by simp; omega)
  · have hlower : c.toLower = c := dif_neg fun hn => h (hcapital.mp hn)
    rw [hlower, if_neg h]

theorem within_caseless {c : Char} :
    Pattern.within [('0', '9'), ('a', 'f')] c.toLower = true ↔ HexDigit c := by
  have hlower : Pattern.within [('0', '9'), ('a', 'f')] c.toLower = true
      ↔ (48 ≤ c.toLower.toNat ∧ c.toLower.toNat ≤ 57)
        ∨ (97 ≤ c.toLower.toNat ∧ c.toLower.toNat ≤ 102) := by
    simp [within_iff]
  rw [hlower, hexadecimal_iff, toNat_toLower]
  split <;> omega

theorem isDigit_iff {c : Char} : c.isDigit = true ↔ DecimalDigit c := by
  rw [Char.isDigit, Bool.and_eq_true, decide_eq_true_eq, decide_eq_true_eq]
  exact Iff.rfl

theorem isHexDigit_iff {c : Char} : c.isHexDigit = true ↔ HexDigit c := by
  rw [Char.isHexDigit, Bool.or_eq_true, Bool.or_eq_true, isDigit_iff, or_assoc]
  simp only [Bool.and_eq_true, decide_eq_true_eq]
  exact Iff.rfl

theorem isBlank_iff {c : Char} : Text.isBlank c = true ↔ Blank c := by
  simp only [Text.isBlank, Text.blankRanges, List.any_cons, List.any_nil, Bool.or_eq_true,
    Bool.and_eq_true, decide_eq_true_eq, Bool.false_eq_true, or_false, Blank]
  omega

end Format

namespace Pattern
open Format

variable {cs : List Char}

theorem matches_digits {n : Nat} : (digit.times n).Matches cs ↔ Digits n cs := by
  rw [digit, matches_times_one]
  simp only [within_decimal]
  rfl

/-! ### email and uri -/

theorem matches_word : word.Matches cs ↔ cs ≠ [] ∧ '@' ∉ cs ∧ ∀ c ∈ cs, ¬ Blank c := by
  rw [word, several, matches_rep_one]
  simp only [Bool.and_eq_true, Bool.not_eq_true', bne_iff_ne, ← isBlank_iff, Bool.not_eq_true,
    ← List.length_pos_iff]
  constructor
  · rintro ⟨hne, -, hall⟩
    exact ⟨hne, fun hat => (hall _ hat).2 rfl, fun c hc => (hall c hc).1⟩
  · rintro ⟨hne, hat, hall⟩
    exact ⟨hne, by simp, fun c hc => ⟨hall c hc, fun h => hat (h ▸ hc)⟩⟩

/-- a point inside is a place between two parts -/
theorem exists_inner_dot {cs : List Char} :
    (∃ i, 0 < i ∧ i + 1 < cs.length ∧ cs[i]? = some '.')
      ↔ ∃ left right, cs = left ++ '.' :: right ∧ left ≠ [] ∧ right ≠ [] := by
  constructor
  · rintro ⟨i, hi, hlast, hdot⟩
    obtain ⟨hlt, hget⟩ := List.getElem?_eq_some_iff.mp hdot
    refine ⟨cs.take i, cs.drop (i + 1), ?_, ?_, ?_⟩
    · rw [← hget, ← List.drop_eq_getElem_cons hlt, List.take_append_drop]
    · rw [← List.length_pos_iff, List.length_take]
      omega
    · rw [← List.length_pos_iff, List.length_drop]
      omega
  · rintro ⟨left, right, rfl, hleft, hright⟩
    rw [← List.length_pos_iff] at hleft hright
    refine ⟨left.length, hleft, ?_, by simp⟩
    rw [List.length_append, List.length_cons]
    omega

theorem matches_email : email.Matches cs ↔ EmailText cs := by
  simp only [EmailText, exists_inner_dot]
  rw [email]
  simp only [matches_append_assoc]
  constructor
  · rintro ⟨name, _, hname, ⟨_, _, rfl, ⟨left, _, hleft, ⟨_, right, rfl, hright, rfl⟩, rfl⟩, rfl⟩,
      rfl⟩
    obtain ⟨hname, hat, hblank⟩ := matches_word.mp hname
    obtain ⟨hleft, hat', hblank'⟩ := matches_word.mp hleft
    obtain ⟨hright, hat'', hblank''⟩ := matches_word.mp hright
    have hmarks : ¬ Blank '@' ∧ ¬ Blank '.' :=
      ⟨isBlank_iff.not.mp (by decide), isBlank_iff.not.mp (by decide)⟩
    refine ⟨name, left ++ '.' :: right, rfl, hat, ?_, hname, ⟨left, right, rfl, hleft, hright⟩, ?_⟩
    · simp [hat', hat'']
    · show ∀ c ∈ name ++ '@' :: (left ++ '.' :: right), ¬ Blank c
      simp only [List.forall_mem_append, List.forall_mem_cons]
      exact ⟨hblank, hmarks.1, hblank', hmarks.2, hblank''⟩
  · rintro ⟨name, _, rfl, hat, hat', hname, ⟨left, right, rfl, hleft, hright⟩, hall⟩
    have hout : '@' ∉ left ∧ '@' ∉ right := by simpa using hat'
    simp only [List.forall_mem_append, List.forall_mem_cons] at hall
    obtain ⟨hblank, -, hblank', -, hblank''⟩ := hall
    have hname : word.Matches name := matches_word.mpr ⟨hname, hat, hblank⟩
    have hleft : word.Matches left := matches_word.mpr ⟨hleft, hout.1, hblank'⟩
    have hright : word.Matches right := matches_word.mpr ⟨hright, hout.2, hblank''⟩
    exact ⟨name, _, hname, ⟨_, _, rfl, ⟨left, _, hleft, ⟨_, right, rfl, hright, rfl⟩, rfl⟩, rfl⟩,
      rfl⟩

theorem hasInnerDot_iff {cs : List Char} : hasInnerDot cs = true
    ↔ ∃ i, 0 < i ∧ i + 1 < cs.length ∧ cs[i]? = some '.' := by
  rw [hasInnerDot, List.contains_iff_mem, List.mem_iff_getElem?]
  simp only [List.getElem?_dropLast, List.getElem?_tail, List.length_tail,
    Option.ite_none_right_eq_some]
  constructor
  · rintro ⟨i, hi, hdot⟩
    exact ⟨i + 1, Nat.succ_pos i, by omega, hdot⟩
  · rintro ⟨i, hi, hlast, hdot⟩
    refine ⟨i - 1, by omega, ?_⟩
    rwa [Nat.sub_add_cancel hi]

theorem isEmail_iff : isEmail cs = true ↔ EmailText cs := by
  have hparts : ∀ name domain : List Char,
      ((!name.isEmpty && hasInnerDot domain && !cs.any Text.isBlank) = true)
        ↔ name ≠ [] ∧ (∃ i, 0 < i ∧ i + 1 < domain.length ∧ domain[i]? = some '.')
          ∧ ∀ c ∈ cs, ¬ Blank c := by
    intro name domain
    simp [hasInnerDot_iff, ← isBlank_iff, and_assoc]
  constructor
  · intro h
    rw [isEmail] at h
    split at h
    · rename_i name domain hsplit
      obtain ⟨hcs, hat, hat'⟩ := splitOn_eq_pair.mp hsplit
      exact ⟨name, domain, hcs, hat, hat', (hparts name domain).mp h⟩
    · cases h
  · rintro ⟨name, domain, hcs, hat, hat', h⟩
    rw [isEmail, splitOn_eq_pair.mpr ⟨hcs, hat, hat'⟩]
    exact (hparts name domain).mpr h

/-- the letter between the two schemes is there or not -/
theorem matches_uri : uri.Matches cs ↔ UriText cs := by
  have hrest : ∀ rest : List Char, (several (one fun _ => true)).Matches rest ↔ rest ≠ [] := by
    intro rest
    rw [several, matches_rep_one, ← List.length_pos_iff]
    simp [Nat.succ_le_iff]
  rw [uri]
  simp only [matches_append_assoc]
  rw [matches_text_append]
  simp only [matches_optional_append, matches_text_append, hrest, UriText]
  constructor
  · rintro ⟨_, ⟨rest, hne, rfl⟩ | ⟨_, ⟨rest, hne, rfl⟩, rfl⟩, rfl⟩
    · exact ⟨rest, hne, .inl rfl⟩
    · exact ⟨rest, hne, .inr rfl⟩
  · rintro ⟨rest, hne, rfl | rfl⟩
    · exact ⟨_, .inl ⟨rest, hne, rfl⟩, rfl⟩
    · exact ⟨_, .inr ⟨_, ⟨rest, hne, rfl⟩, rfl⟩, rfl⟩

theorem isUri_iff : isUri cs = true ↔ UriText cs := by
  have hscheme : ∀ scheme : String,
      ((scheme.toList.isPrefixOf cs && decide (scheme.length < cs.length)) = true)
        ↔ ∃ rest, rest ≠ [] ∧ cs = scheme.toList ++ rest := by
    intro scheme
    rw [Bool.and_eq_true, List.isPrefixOf_iff_prefix, decide_eq_true_eq, ← String.length_toList]
    constructor
    · rintro ⟨⟨rest, rfl⟩, hlength⟩
      rw [List.length_append] at hlength
      exact ⟨rest, List.length_pos_iff.mp (by omega), rfl⟩
    · rintro ⟨rest, hne, rfl⟩
      have hpos := List.length_pos_iff.mpr hne
      exact ⟨⟨rest, rfl⟩, by rw [List.length_append]; omega⟩
  rw [isUri, schemes, UriText]
  simp only [List.any_cons, List.any_nil, Bool.or_false, Bool.or_eq_true, hscheme]
  constructor
  · rintro (⟨rest, hne, h⟩ | ⟨rest, hne, h⟩)
    · exact ⟨rest, hne, .inl h⟩
    · exact ⟨rest, hne, .inr h⟩
  · rintro ⟨rest, hne, h | h⟩
    · exact .inl ⟨rest, hne, h⟩
    · exact .inr ⟨rest, hne, h⟩

end Pattern
end JsonShape
