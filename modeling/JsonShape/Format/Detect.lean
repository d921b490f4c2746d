import JsonShape.Format.Basic
import JsonShape.Text.Blank

/-!
# Recognising formats

Each of the six formats has a recogniser over the characters of a string.  Formats of a fixed shape
are given by layouts, a letter `d` standing for a digit and `h` for a hexadecimal digit, everything
else for itself; the others by the fields between separators.  Digits are those of ASCII.

A string may suit two recognisers; the first in `recognisers` decides.

* `fits_length`           a string that fits a layout is as long as it;
* `detect_eq_none`        no format is found exactly if no recogniser accepts;
* `mem_of_detect`         a format that is found has a recogniser that accepts.
-/

namespace JsonShape.Format

/-! ### layouts -/

/-- whether a character may stand where the layout has `slot` -/
def slotFits (slot c : Char) : Bool :=
  if slot = 'd' then c.isDigit
  else if slot = 'h' then c.isHexDigit
  else c == slot

/-- whether the characters fill the layout, slot by slot -/
def fits : List Char → List Char → Bool
  | [], [] => true
  | slot :: slots, c :: cs => slotFits slot c && fits slots cs
  | _, _ => false

theorem fits_length {slots cs : List Char} (h : fits slots cs = true) :
    cs.length = slots.length := by
  induction slots generalizing cs with
  | nil =>
    cases cs with
    | nil => rfl
    | cons c r => exact absurd h (by simp [fits])
  | cons s r ih =>
    cases cs with
    | nil => exact absurd h (by simp [fits])
    | cons c r' =>
      simp only [fits, Bool.and_eq_true] at h
      rw [List.length_cons, List.length_cons, ih h.2]

theorem fits_append {s t cs : List Char} :
    fits (s ++ t) cs = true ↔ ∃ a b, cs = a ++ b ∧ fits s a = true ∧ fits t b = true := by
  induction s generalizing cs with
  | nil =>
    constructor
    · intro h
      exact ⟨[], cs, rfl, rfl, h⟩
    · rintro ⟨a, b, rfl, ha, hb⟩
      have : a = [] := List.eq_nil_of_length_eq_zero (fits_length ha)
      rw [this]
      exact hb
  | cons x r ih =>
    cases cs with
    | nil =>
      constructor
      · intro h
        exact absurd h (by simp [fits])
      · rintro ⟨a, b, hab, ha, _⟩
        have : a = [] := (List.append_eq_nil_iff.mp hab.symm).1
        rw [this] at ha
        exact absurd ha (by simp [fits])
    | cons c cs =>
      simp only [List.cons_append, fits, Bool.and_eq_true, ih]
      constructor
      · rintro ⟨hx, a, b, rfl, ha, hb⟩
        exact ⟨c :: a, b, rfl, by simp [fits, hx, ha], hb⟩
      · rintro ⟨a, b, hab, ha, hb⟩
        cases a with
        | nil => exact absurd ha (by simp [fits])
        | cons y a =>
          obtain ⟨rfl, rfl⟩ := List.cons.inj hab
          simp only [fits, Bool.and_eq_true] at ha
          exact ⟨ha.1, a, b, rfl, ha.2, hb⟩

/-! ### the six recognisers -/

/-- the day and the second, a `T` between them -/
def momentLayout : String := "dddd-dd-ddTdd:dd:dd"

/-- nothing, or a point and three digits -/
def fractionLayouts : List String := ["", ".ddd"]

/-- the letter of universal time, or a signed distance from it -/
def zoneLayouts : List String := ["Z", "+dd:dd", "-dd:dd"]

/-- a moment, perhaps with a fraction, and a zone; the numbers may be out of range -/
def isDateTime (cs : List Char) : Bool :=
  fractionLayouts.any fun fraction => zoneLayouts.any fun zone =>
    fits (momentLayout.toList ++ fraction.toList ++ zone.toList) cs

/-- whether a point stands inside, neither first nor last -/
def hasInnerDot (cs : List Char) : Bool := cs.tail.dropLast.contains '.'

/-- two fields about one `@`: a name, and a domain with a point inside; no blanks -/
def isEmail (cs : List Char) : Bool :=
  match cs.splitOn '@' with
  | [name, domain] => !name.isEmpty && hasInnerDot domain && !cs.any Text.isBlank
  | _ => false

/-- groups of hexadecimal digits -/
def uuidLayout : String := "hhhhhhhh-hhhh-hhhh-hhhh-hhhhhhhhhhhh"

/-- an identifier of 32 hexadecimal digits in five groups -/
def isUuid (cs : List Char) : Bool := fits uuidLayout.toList cs

/-- how a web address begins -/
def schemes : List String := ["http://", "https://"]

/-- a scheme and at least one more character, whichever -/
def isUri (cs : List Char) : Bool :=
  schemes.any fun scheme => scheme.toList.isPrefixOf cs && scheme.length < cs.length

/-- the number that decimal digits stand for -/
def decimal (cs : List Char) : Nat := cs.foldl (fun n c => 10 * n + (c.toNat - '0'.toNat)) 0

/-- one to three digits, a number up to 255 -/
def isOctet (cs : List Char) : Bool :=
  1 ≤ cs.length && cs.length ≤ 3 && cs.all Char.isDigit && decimal cs ≤ 255

/-- four octets about points -/
def isIpv4 (cs : List Char) : Bool :=
  let fields := cs.splitOn '.'
  fields.length == 4 && fields.all isOctet

/-- one to four hexadecimal digits -/
def isGroup (cs : List Char) : Bool :=
  1 ≤ cs.length && cs.length ≤ 4 && cs.all Char.isHexDigit

/-- eight groups about colons -/
def isIpv6 (cs : List Char) : Bool :=
  let fields := cs.splitOn ':'
  fields.length == 8 && fields.all isGroup

/-! ### detection -/

/-- the formats with their recognisers, the deciding one first -/
def recognisers : List (Format × (List Char → Bool)) :=
  [(dateTime, isDateTime), (email, isEmail), (uuid, isUuid), (uri, isUri), (ipv4, isIpv4),
    (ipv6, isIpv6)]

/-- the first format of a table whose recogniser accepts the characters -/
def firstOf (table : List (Format × (List Char → Bool))) (cs : List Char) : Option Format :=
  (table.find? fun entry => entry.2 cs).map (·.1)

/-- the format of a string, if it has one -/
def detect (s : String) : Option Format := firstOf recognisers s.toList

theorem detect_eq_none {s : String} :
    detect s = none ↔ ∀ entry ∈ recognisers, entry.2 s.toList = false := by
  simp [detect, firstOf]

theorem mem_of_detect {s : String} {f : Format} (h : detect s = some f) :
    ∃ accepts, (f, accepts) ∈ recognisers ∧ accepts s.toList = true := by
  obtain ⟨entry, he, rfl⟩ := Option.map_eq_some_iff.mp h
  have ha := List.find?_some he
  exact ⟨entry.2, List.mem_of_find?_eq_some he, ha⟩

end JsonShape.Format
