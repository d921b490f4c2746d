import JsonShape.Text.Printable

/-!
# Quoted text

`quoted` shows a text between quotes, on one line and with printable characters only: a backslash
before a backslash or the quote, letters for tab, line feed and carriage return, and code point
numbers for the other unprintable characters.  The quote is the single one, except for a text that
holds single quotes and no double ones.

* `quoteFor_eq_double`  when the double quote is taken.
-/

namespace JsonShape.Text

/-- `n` in hexadecimal, padded with zeros to `width` digits -/
def hex (width n : Nat) : List Char :=
  let digits := Nat.toDigits 16 n
  List.replicate (width - digits.length) '0' ++ digits

/-- a code point number: two digits after x, four after u, eight after U -/
def numbered (c : Char) : List Char :=
  if c.toNat < 0x100 then '\\' :: 'x' :: hex 2 c.toNat
  else if c.toNat < 0x10000 then '\\' :: 'u' :: hex 4 c.toNat
  else '\\' :: 'U' :: hex 8 c.toNat

/-- how a character is written between two of the quotes -/
def escaped (quote c : Char) : List Char :=
  if c = quote ∨ c = '\\' then ['\\', c]
  else if c = '\t' then ['\\', 't']
  else if c = '\n' then ['\\', 'n']
  else if c = '\r' then ['\\', 'r']
  else if isPrintable c then [c]
  else numbered c

/-- the quote that a text is put between -/
def quoteFor (cs : List Char) : Char :=
  if cs.contains '\'' && !cs.contains '"' then '"' else '\''

theorem quoteFor_eq_double {cs : List Char} :
    quoteFor cs = '"' ↔ '\'' ∈ cs ∧ '"' ∉ cs := by
  simp [quoteFor]

/-- a text between quotes -/
def quoted (s : String) : String :=
  let cs := s.toList
  let quote := quoteFor cs
  String.ofList (quote :: cs.flatMap (escaped quote) ++ [quote])

end JsonShape.Text
