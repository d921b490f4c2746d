/-!
# Bounds

The least and the greatest of the values seen so far, each absent until one is seen.  Of two values
neither of which is less the earlier one stays; the order need not be total.

* `Bounds.merge_empty`, `Bounds.empty_merge`  nothing seen changes nothing.
-/

namespace JsonShape

/-- a least and a greatest value -/
structure Bounds (α : Type) where
  least : Option α
  greatest : Option α

namespace Bounds
variable {α : Type}

def empty : Bounds α := ⟨none, none⟩

instance : EmptyCollection (Bounds α) := ⟨empty⟩

def point (x : α) : Bounds α := ⟨some x, some x⟩

variable [LT α] [DecidableLT α]

/-- the lesser of two, the first one where neither is less -/
def lower : Option α → Option α → Option α
  | none, y => y
  | some x, none => some x
  | some x, some y => some (if y < x then y else x)

/-- the greater of two, the first one where neither is greater -/
def upper : Option α → Option α → Option α
  | none, y => y
  | some x, none => some x
  | some x, some y => some (if x < y then y else x)

@[simp] theorem lower_none (x : Option α) : lower x none = x := by cases x <;> rfl

@[simp] theorem upper_none (x : Option α) : upper x none = x := by cases x <;> rfl

/-- the bounds of everything seen on either side -/
def merge (a b : Bounds α) : Bounds α := ⟨lower a.least b.least, upper a.greatest b.greatest⟩

theorem merge_empty (a : Bounds α) : a.merge ∅ = a := by
  cases a with
  | mk l g => exact congr (congrArg mk (lower_none l)) (upper_none g)

theorem empty_merge (a : Bounds α) : (∅ : Bounds α).merge a = a := rfl

/-- the bounds with one more value -/
def observe (a : Bounds α) (x : α) : Bounds α := a.merge (point x)

/-- whether `x` is neither less than the least nor greater than the greatest -/
def admits (b : Bounds α) (x : α) : Bool :=
  (match b.least with
    | some l => !decide (x < l)
    | none => true)
  && (match b.greatest with
    | some g => !decide (g < x)
    | none => true)

end Bounds
end JsonShape
