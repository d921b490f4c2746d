/-!
# Machines

A value can be nested deeper than the machine can follow it, whatever depth is asked for.  How deep
it can is not for the library to say, so a machine is given by its limits: how deep it follows a
sample, and how deep the objects and lists of a document may lie one within the other for its keys
to be sorted.  It is only known what every machine can do.
-/

namespace JsonShape

/-- the levels of nesting of a sample that can be followed whatever the machine -/
def Value.assuredDepth : Nat := 150

/-- the objects and lists, one within the other, among which keys can be sorted whatever the
machine: there are two for each level of a sample, two more around them, and those of a value among
the options -/
def Value.assuredRoom : Nat := 2 * assuredDepth + 2 + assuredDepth

open Value in
/-- what a document is inferred on: how deep samples can be followed, and how deep a document may be
for its keys to be sorted -/
structure Machine where
  reach : Nat
  room : Nat
  reach_assured : assuredDepth ≤ reach
  room_assured : assuredRoom ≤ room

/-- the machine that can do what every machine can, and no more -/
def Machine.least : Machine :=
  ⟨Value.assuredDepth, Value.assuredRoom, Nat.le_refl _, Nat.le_refl _⟩

end JsonShape
