/-!
# Blank characters

The white space and separator characters of Unicode, together with the four information separators.

* `isBlank_of_isWhitespace`  the blanks of ASCII are among them.
-/

namespace JsonShape.Text

/-- the blank code points, as ranges with both ends -/
def blankRanges : List (Nat × Nat) := [
    (0x9, 0xd), (0x1c, 0x20), (0x85, 0x85), (0xa0, 0xa0), (0x1680, 0x1680), (0x2000, 0x200a),
    (0x2028, 0x2029), (0x202f, 0x202f), (0x205f, 0x205f), (0x3000, 0x3000)]

/-- whether a character is blank -/
def isBlank (c : Char) : Bool := blankRanges.any fun r => r.1 ≤ c.toNat && c.toNat ≤ r.2

theorem isBlank_of_isWhitespace {c : Char} (h : c.isWhitespace = true) : isBlank c = true := by
  simp only [Char.isWhitespace, Bool.or_eq_true, decide_eq_true_eq] at h
  rcases h with ((rfl | rfl) | rfl) | rfl <;> rfl

end JsonShape.Text
