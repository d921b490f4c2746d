import JsonShape.Number.Style
import JsonShape.Text.Quoted
import JsonShape.Value.Basic

/-!
# Values in messages

`Value.shown` is the text by which a message names a value: texts quoted, doubles by their shortest
decimal, lists in square brackets, tuples in round ones, objects in braces.
-/

namespace JsonShape.Value

/-- doubles in messages: a point from `1e-4` up to below `1e16`, exponents of two digits or more -/
def messageStyle : DecimalStyle := ⟨-4, 16, "e", 2, "inf", "nan"⟩

mutual

/-- a value as messages show it -/
def shown : Value → String
  | null => "None"
  | bool true => "True"
  | bool false => "False"
  | num n => messageStyle.number n
  | str s => Text.quoted s
  | arr items => "[" ++ shownItems items ++ "]"
  | tuple [v] => "(" ++ shown v ++ ",)"
  | tuple items => "(" ++ shownItems items ++ ")"
  | obj members => "\x7b" ++ shownMembers members ++ "\x7d"
  | foreign typeName => "<" ++ typeName ++ ">"

def shownItems : List Value → String
  | [] => ""
  | [v] => shown v
  | v :: r => shown v ++ ", " ++ shownItems r

def shownMembers : List (String × Value) → String
  | [] => ""
  | [(k, v)] => Text.quoted k ++ ": " ++ shown v
  | (k, v) :: r => Text.quoted k ++ ": " ++ shown v ++ ", " ++ shownMembers r

end

end JsonShape.Value
