import JsonShape.Proofs.Texts

/-!
# Texts of groups

Addresses, identifiers and date-times are groups of digits about separators.

* `Pattern.matches_octet`      the three branches for a number come to a bound on it;
* `Pattern.matches_ipv4`, `matches_ipv6`, `matches_uuid`, `matches_dateTime`   what the patterns
  match;
* `Pattern.isIpv4_iff`, `isIpv6_iff`, `isUuid_iff`, `isDateTime_iff`           what the recognisers
  accept.
-/

namespace JsonShape.Pattern
open Format

variable {cs : List Char}

/-! ### numbers of an address -/

theorem matches_digit_append {q : Pattern} :
    (digit ++ q).Matches cs ↔ ∃ c rest, DecimalDigit c ∧ q.Matches rest ∧ cs = c :: rest := by
  rw [digit, matches_one_append]
  simp only [within_decimal]

theorem octetText_one {c : Char} : OctetText [c] ↔ DecimalDigit c := by
  simp [OctetText, decimal, decimal_iff]
  omega

theorem octetText_two {c d : Char} : OctetText [c, d] ↔ DecimalDigit c ∧ DecimalDigit d := by
  simp [OctetText, decimal, decimal_iff]
  omega

theorem octetText_three {b c d : Char} : OctetText [b, c, d]
    ↔ DecimalDigit b ∧ DecimalDigit c ∧ DecimalDigit d
      ∧ 100 * b.toNat + 10 * c.toNat + d.toNat ≤ 255 + 111 * 48 := by
  simp [OctetText, decimal, decimal_iff]
  omega

/-- one digit or two, as the last branch for a number ends -/
theorem matches_ending : (digit ++ optional digit).Matches cs
    ↔ (∃ d, DecimalDigit d ∧ cs = [d]) ∨ ∃ d e, DecimalDigit d ∧ DecimalDigit e ∧ cs = [d, e] := by
  rw [matches_digit_append]
  simp only [matches_optional]
  constructor
  · rintro ⟨d, _, hd, rfl | ⟨e, he, rfl⟩, rfl⟩
    · exact .inl ⟨d, hd, rfl⟩
    · exact .inr ⟨d, e, hd, within_decimal.mp he, rfl⟩
  · rintro (⟨d, hd, rfl⟩ | ⟨d, e, hd, he, rfl⟩)
    · exact ⟨d, [], hd, .inl rfl, rfl⟩
    · exact ⟨d, [e], hd, .inr ⟨e, within_decimal.mpr he, rfl⟩, rfl⟩

/-- the three branches for a number, the last of which has an optional digit at either end -/
theorem matches_octet_branches : octet.Matches cs
    ↔ (∃ c, within [('0', '5')] c = true ∧ cs = ['2', '5', c])
      ∨ (∃ c d, within [('0', '4')] c = true ∧ DecimalDigit d ∧ cs = ['2', c, d])
      ∨ (digit ++ optional digit).Matches cs
      ∨ ∃ b rest, within [('0', '1')] b = true ∧ (digit ++ optional digit).Matches rest
        ∧ cs = b :: rest := by
  rw [octet, matches_or, matches_or, or_assoc]
  refine or_congr ?_ (or_congr ?_ ?_)
  · rw [matches_text_append]
    constructor
    · rintro ⟨_, ⟨c, hc, rfl⟩, rfl⟩
      exact ⟨c, hc, rfl⟩
    · rintro ⟨c, hc, rfl⟩
      exact ⟨[c], ⟨c, hc, rfl⟩, rfl⟩
  · rw [matches_append_assoc, matches_text_append]
    simp only [matches_one_append]
    constructor
    · rintro ⟨_, ⟨c, _, hc, ⟨d, hd, rfl⟩, rfl⟩, rfl⟩
      exact ⟨c, d, hc, within_decimal.mp hd, rfl⟩
    · rintro ⟨c, d, hc, hd, rfl⟩
      exact ⟨[c, d], ⟨c, [d], hc, ⟨d, within_decimal.mpr hd, rfl⟩, rfl⟩, rfl⟩
  · rw [matches_append_assoc, matches_optional_append, matches_one_append]

/-- the codes of the digits at which the branches part -/
theorem toNat_digits : '0'.toNat = 48 ∧ '1'.toNat = 49 ∧ '2'.toNat = 50 ∧ '4'.toNat = 52
    ∧ '5'.toNat = 53 :=
  ⟨rfl, rfl, rfl, rfl, rfl⟩

theorem octetText_of_matches (h : octet.Matches cs) : OctetText cs := by
  obtain ⟨h0, h1, h2, h4, h5⟩ := toNat_digits
  rw [matches_octet_branches] at h
  simp only [matches_ending, within_range] at h
  rcases h with ⟨c, hc, rfl⟩ | ⟨c, d, hc, hd, rfl⟩ | (⟨d, hd, rfl⟩ | ⟨d, e, hd, he, rfl⟩)
    | ⟨b, _, hb, ⟨d, hd, rfl⟩ | ⟨d, e, hd, he, rfl⟩, rfl⟩
  · simp only [octetText_three, decimal_iff]
    omega
  · simp only [octetText_three, decimal_iff] at hd ⊢
    omega
  · exact octetText_one.mpr hd
  · exact octetText_two.mpr ⟨hd, he⟩
  · simp only [octetText_two, decimal_iff] at hd ⊢
    omega
  · simp only [octetText_three, decimal_iff] at hd he ⊢
    omega

/-- of three digits, the first decides on the branch, unless it is a two; then the second does -/
theorem matches_of_octetText (h : OctetText cs) : octet.Matches cs := by
  obtain ⟨h0, h1, h2, h4, h5⟩ := toNat_digits
  rw [matches_octet_branches]
  simp only [matches_ending, within_range]
  match cs, h with
  | [], h => exact absurd h.1 (by simp)
  | [d], h => exact .inr (.inr (.inl (.inl ⟨d, octetText_one.mp h, rfl⟩)))
  | [d, e], h =>
    obtain ⟨hd, he⟩ := octetText_two.mp h
    exact .inr (.inr (.inl (.inr ⟨d, e, hd, he, rfl⟩)))
  | [b, c, d], h =>
    obtain ⟨hb, hc, hd, hbound⟩ := octetText_three.mp h
    have hb' := decimal_iff.mp hb
    have hc' := decimal_iff.mp hc
    have hd' := decimal_iff.mp hd
    by_cases hlow : b.toNat ≤ 49
    · exact .inr (.inr (.inr ⟨b, [c, d], ⟨hb'.1, hlow⟩, .inr ⟨c, d, hc, hd, rfl⟩, rfl⟩))
    · have hb2 : b = '2' := Char.toNat_inj.mp (by omega)
      by_cases hmid : c.toNat ≤ 52
      · exact .inr (.inl ⟨c, d, ⟨hc'.1, hmid⟩, hd, by rw [hb2]⟩)
      · have hc5 : c = '5' := Char.toNat_inj.mp (by omega)
        exact .inl ⟨d, ⟨hd'.1, by omega⟩, by rw [hb2, hc5]⟩
  | _ :: _ :: _ :: _ :: _, h => exact absurd h.2.1 (by simp)

/-- the branches overlap, and come to a bound on the number -/
theorem matches_octet : octet.Matches cs ↔ OctetText cs :=
  ⟨octetText_of_matches, matches_of_octetText⟩

/-! ### addresses -/

theorem fields_ipv4 : Fields '.' ipv4 (List.replicate 4 octet) :=
  Fields.times rfl (by decide) (Fields.single (by decide)) 3

theorem matches_ipv4 : ipv4.Matches cs ↔ Ipv4Text cs := by
  rw [fields_ipv4 cs, forall₂_replicate]
  simp only [matches_octet]
  rfl

theorem isIpv4_iff : isIpv4 cs = true ↔ Ipv4Text cs := by
  have hoctet : ∀ part, isOctet part = true ↔ OctetText part := by
    intro part
    simp [isOctet, OctetText, isDigit_iff, and_assoc]
  simp only [isIpv4, Bool.and_eq_true, beq_iff_eq, List.all_eq_true, hoctet]
  rfl

theorem matches_group : group.Matches cs
    ↔ 1 ≤ cs.length ∧ cs.length ≤ 4 ∧ ∀ c ∈ cs, HexDigit c := by
  rw [group, matches_rep_one]
  simp [within_hexadecimal]

theorem fields_ipv6 : Fields ':' ipv6 (List.replicate 8 group) :=
  Fields.times rfl (by decide) (Fields.single (by decide)) 7

theorem matches_ipv6 : ipv6.Matches cs ↔ Ipv6Text cs := by
  rw [fields_ipv6 cs, forall₂_replicate]
  simp only [matches_group]
  rfl

theorem isIpv6_iff : isIpv6 cs = true ↔ Ipv6Text cs := by
  have hgroup : ∀ part, isGroup part = true
      ↔ 1 ≤ part.length ∧ part.length ≤ 4 ∧ ∀ c ∈ part, HexDigit c := by
    intro part
    simp [isGroup, isHexDigit_iff, and_assoc]
  simp only [isIpv6, Bool.and_eq_true, beq_iff_eq, List.all_eq_true, hgroup]
  rfl

/-! ### identifiers -/

theorem fields_uuid : Fields '-' uuid ([8, 4, 4, 4, 12].map caselessHex.times) := by
  intro cs
  rw [uuid]
  simp only [matches_append_assoc]
  exact Fields.cons rfl (by decide) (Fields.cons rfl (by decide) (Fields.cons rfl (by decide)
    (Fields.cons rfl (by decide) (Fields.single (by decide))))) cs

/-- fields of so many hexadecimal digits each -/
theorem forall₂_caselessHex {ns : List Nat} {parts : List (List Char)} :
    List.Forall₂ (fun p part => p.Matches part) (ns.map caselessHex.times) parts
      ↔ parts.map List.length = ns ∧ ∀ part ∈ parts, ∀ c ∈ part, HexDigit c := by
  induction ns generalizing parts with
  | nil =>
    rw [List.map_nil, List.forall₂_nil_left_iff, List.map_eq_nil_iff, iff_self_and]
    rintro rfl
    simp
  | cons n r ih =>
    cases parts with
    | nil => simp
    | cons part rest =>
      rw [List.map_cons, List.forall₂_cons, ih, caselessHex, matches_times_one, List.map_cons,
        List.cons.injEq, List.forall_mem_cons]
      simp only [within_caseless]
      exact and_and_and_comm

theorem matches_uuid : uuid.Matches cs ↔ UuidText cs := by
  rw [fields_uuid cs, forall₂_caselessHex]
  rfl

theorem slotFits_digit (c : Char) : slotFits 'd' c = within [('0', '9')] c :=
  Bool.eq_iff_iff.mpr (isDigit_iff.trans within_decimal.symm)

theorem slotFits_hex (c : Char) : slotFits 'h' c = within [('0', '9'), ('a', 'f')] c.toLower :=
  Bool.eq_iff_iff.mpr (isHexDigit_iff.trans within_caseless.symm)

theorem laidOut_uuid : LaidOut uuid [uuidLayout.toList] := by
  have hhyphen : LaidOut (text "-") ["-".toList] := laidOut_text (by decide)
  exact laidOut_times slotFits_hex 8 |>.append hhyphen
    |>.append (laidOut_times slotFits_hex 4) |>.append hhyphen
    |>.append (laidOut_times slotFits_hex 4) |>.append hhyphen
    |>.append (laidOut_times slotFits_hex 4) |>.append hhyphen
    |>.append (laidOut_times slotFits_hex 12)

theorem isUuid_iff : isUuid cs = true ↔ UuidText cs := by
  rw [← matches_uuid, ← laidOut_uuid cs]
  simp only [List.mem_singleton, exists_eq_left]
  rfl

/-! ### date-times -/

theorem matches_digits_text {n : Nat} {s : String} {q : Pattern} :
    (digit.times n ++ (text s ++ q)).Matches cs
      ↔ ∃ part rest, Digits n part ∧ q.Matches rest ∧ cs = part ++ s.toList ++ rest := by
  rw [matches_append]
  simp only [matches_text_append, matches_digits]
  constructor
  · rintro ⟨part, _, hpart, ⟨rest, hrest, rfl⟩, rfl⟩
    exact ⟨part, rest, hpart, hrest, (List.append_assoc _ _ _).symm⟩
  · rintro ⟨part, rest, hpart, hrest, rfl⟩
    exact ⟨part, s.toList ++ rest, hpart, ⟨rest, hrest, rfl⟩, List.append_assoc _ _ _⟩

theorem matches_thousandths :
    thousandths.Matches cs ↔ ∃ part, cs = '.' :: part ∧ Digits 3 part := by
  rw [thousandths, matches_text_append]
  simp only [matches_digits]
  exact exists_congr fun part => and_comm

theorem matches_sign {c : Char} : within [('+', '+'), ('-', '-')] c = true ↔ c = '+' ∨ c = '-' := by
  simp [within, Std.le_antisymm_iff, and_comm]

theorem matches_zone : zone.Matches cs
    ↔ cs = ['Z'] ∨ ∃ sign hours minutes, cs = sign :: hours ++ ':' :: minutes
        ∧ (sign = '+' ∨ sign = '-') ∧ Digits 2 hours ∧ Digits 2 minutes := by
  rw [zone, matches_or]
  simp only [matches_append_assoc]
  rw [matches_one_append]
  simp only [matches_digits_text, matches_digits, matches_sign]
  refine or_congr Iff.rfl ?_
  constructor
  · rintro ⟨sign, _, hsign, ⟨hours, minutes, hhours, hminutes, rfl⟩, rfl⟩
    exact ⟨sign, hours, minutes, by simp, hsign, hhours, hminutes⟩
  · rintro ⟨sign, hours, minutes, rfl, hsign, hhours, hminutes⟩
    exact ⟨sign, _, hsign, ⟨hours, minutes, hhours, hminutes, rfl⟩, by simp⟩

theorem matches_dateTime : dateTime.Matches cs ↔ DateTimeText cs := by
  rw [dateTime]
  simp only [matches_append_assoc]
  simp only [matches_digits_text]
  simp only [matches_append, matches_digits, matches_optional, matches_thousandths, matches_zone]
  constructor
  · rintro ⟨year, _, hyear, ⟨month, _, hmonth, ⟨day, _, hday, ⟨hour, _, hhour, ⟨minute, _, hminute,
      ⟨second, _, hsecond, ⟨fraction, zone, hfraction, hzone, rfl⟩, rfl⟩, rfl⟩, rfl⟩, rfl⟩, rfl⟩,
      rfl⟩
    exact ⟨year, month, day, hour, minute, second, fraction, zone, by simp, hyear, hmonth, hday,
      hhour, hminute, hsecond, hfraction, hzone⟩
  · rintro ⟨year, month, day, hour, minute, second, fraction, zone, rfl, hyear, hmonth, hday,
      hhour, hminute, hsecond, hfraction, hzone⟩
    exact ⟨year, _, hyear, ⟨month, _, hmonth, ⟨day, _, hday, ⟨hour, _, hhour, ⟨minute, _, hminute,
      ⟨second, _, hsecond, ⟨fraction, zone, hfraction, hzone, rfl⟩, rfl⟩, rfl⟩, rfl⟩, rfl⟩, rfl⟩,
      by simp⟩

theorem laidOut_dateTime : LaidOut dateTime (fractionLayouts.flatMap fun fraction =>
    zoneLayouts.map fun zone => momentLayout.toList ++ fraction.toList ++ zone.toList) := by
  have hdigits := laidOut_times slotFits_digit
  have hhyphen : LaidOut (text "-") ["-".toList] := laidOut_text (by decide)
  have hcolon : LaidOut (text ":") [":".toList] := laidOut_text (by decide)
  have hsign : LaidOut (one (within [('+', '+'), ('-', '-')])) (['+', '-'].map ([·])) :=
    laidOut_one fun c => by simp [matches_sign, slotFits]
  have hzone : LaidOut zone _ := (laidOut_text (by decide)).or
    (hsign.append (hdigits 2) |>.append hcolon |>.append (hdigits 2))
  have hthousandths : LaidOut thousandths _ := (laidOut_text (by decide)).append (hdigits 3)
  have hmoment := hdigits 4 |>.append hhyphen |>.append (hdigits 2) |>.append hhyphen
    |>.append (hdigits 2) |>.append (laidOut_text (by decide : 'd' ∉ "T".toList ∧ 'h' ∉ "T".toList))
    |>.append (hdigits 2) |>.append hcolon |>.append (hdigits 2) |>.append hcolon
    |>.append (hdigits 2)
  exact hmoment.append hthousandths.optional |>.append hzone

theorem isDateTime_iff : isDateTime cs = true ↔ DateTimeText cs := by
  rw [← matches_dateTime, ← laidOut_dateTime cs, isDateTime]
  simp only [List.any_eq_true, List.mem_flatMap, List.mem_map]
  constructor
  · rintro ⟨fraction, hfraction, zone, hzone, hfits⟩
    exact ⟨_, ⟨fraction, hfraction, zone, hzone, rfl⟩, hfits⟩
  · rintro ⟨_, ⟨fraction, hfraction, zone, hzone, rfl⟩, hfits⟩
    exact ⟨fraction, hfraction, zone, hzone, hfits⟩

end JsonShape.Pattern
