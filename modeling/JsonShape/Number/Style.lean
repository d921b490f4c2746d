import JsonShape.Number.Shortest

/-!
# Decimal notation

A `DecimalStyle` says how a shortest decimal is written: in which range of powers of ten the digits
stand around a point, and how an exponent is marked outside of it.
-/

namespace JsonShape

/-- the choices that a notation for doubles leaves open; digits are written around a point if the
first is worth a power of ten from `pointedFrom` up to below `pointedTo`, otherwise with a mark and
an exponent -/
structure DecimalStyle where
  pointedFrom : Int
  pointedTo : Int
  mark : String
  exponentWidth : Nat
  infinity : String
  nan : String

namespace DecimalStyle

/-- an exponent with its sign, padded with zeros -/
def exponent (style : DecimalStyle) (e : Int) : String :=
  let digits := Nat.repr e.natAbs
  let zeros := String.ofList (List.replicate (style.exponentWidth - digits.length) '0')
  (if e < 0 then "-" else "+") ++ zeros ++ digits

/-- digits around a point, the first of them worth `10 ^ e`; at least one digit on either side -/
def pointed (digits : List Char) (e : Int) : String :=
  let padded := List.replicate (-e).toNat '0' ++ digits
  let cut := e.toNat + 1
  let whole := padded.take cut ++ List.replicate (cut - padded.length) '0'
  let rest := padded.drop cut
  String.ofList whole ++ "." ++ (if rest.isEmpty then "0" else String.ofList rest)

/-- the first digit, then a point and the others, if any, then the exponent -/
def scientific (style : DecimalStyle) (digits : List Char) (e : Int) : String :=
  String.ofList (digits.take 1)
    ++ (if digits.length ≤ 1 then "" else "." ++ String.ofList (digits.drop 1))
    ++ style.mark ++ style.exponent e

/-- a double in this notation; a zero keeps its sign -/
def double (style : DecimalStyle) (f : Binary64) : String :=
  let d := f.shortest
  (if f.negative then "-" else "")
    ++ if d.digits = 0 then pointed ['0'] 0
       else if style.pointedFrom ≤ d.leading ∧ d.leading < style.pointedTo then
         pointed d.trimmed d.leading
       else style.scientific d.trimmed d.leading

def number (style : DecimalStyle) : Number → String
  | .int n => toString n
  | .float f => style.double f
  | .inf negative => (if negative then "-" else "") ++ style.infinity
  | .nan _ => style.nan

end DecimalStyle
end JsonShape
