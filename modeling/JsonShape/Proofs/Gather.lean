import JsonShape.Proofs.Bounds
import JsonShape.Proofs.Capped
import JsonShape.Proofs.Parts
import JsonShape.Value.Facets

/-!
# The evidence of a list of values

`Evidence.gather` sees the values of a list one after the other.  Each field of the result is read
off the list: a value adds at most one thing to a field (`tag?`, `normal?` and so on), and the field
collects what the values add.

* `Evidence.gather_append`  the evidence of two lists, gathered apart and merged, is that of both
                            lists together, if the caps are not negative and there are no nans.
-/

namespace JsonShape
open Std

/-! ### what a value adds -/

namespace Value

/-- the number that it is, in normal form -/
def normal? (v : Value) : Option Number := v.number?.map Number.normal

/-- the value itself, if it may be an example -/
def example? : Value → Option Value
  | bool b => some (bool b)
  | num n => some (num n)
  | str s => some (str s)
  | _ => none

end Value

namespace Evidence
variable {caps : Caps}

/-- a value was seen, its parts aside -/
def see (caps : Caps) (e : Evidence) : Value → Evidence
  | .null => e.seeTag .null
  | .bool b => e.seeBool caps b
  | .num n => e.seeNumber caps n
  | .str s => e.seeString caps s
  | .arr items => e.seeArray items.length
  | .tuple items => e.seeArray items.length
  | .obj _ => e.seeTag .object
  | .foreign _ => e

/-- the evidence of the values of a list -/
def gather (caps : Caps) (values : List Value) : Evidence := values.foldl (see caps) ∅

theorem see_number_of_whole (e : Evidence) {n : Number} (h : n.isWhole = true) :
    see caps e (.num n) = record caps
      { e.seeTag .integer with numbers := e.numbers.observe n.normal }
      (.num n.normal) (.num n) := by
  simp only [see, seeNumber, h, if_true]

theorem see_number_of_not_whole (e : Evidence) {n : Number} (h : n.isWhole = false) :
    see caps e (.num n) = record caps
      { e.seeTag .number with integerOnly := false, numbers := e.numbers.observe n.normal }
      (.num n.normal) (.num n) := by
  simp only [see, seeNumber, h, Bool.false_eq_true, if_false]

/-! ### field by field -/

/-- a field to which each value adds at most one thing holds what all of them add -/
theorem foldl_field {β γ : Type} (field : Evidence → β) (part : Value → Option γ)
    (step : β → γ → β)
    (h : ∀ e v, field (see caps e v) = (part v).toList.foldl step (field e)) (e : Evidence)
    (values : List Value) :
    field (values.foldl (see caps) e) = (values.filterMap part).foldl step (field e) := by
  induction values generalizing e with
  | nil => rfl
  | cons v r ih =>
    rw [List.foldl_cons, ih, h, List.filterMap_cons]
    cases part v <;> rfl

theorem see_types (e : Evidence) (v : Value) :
    (see caps e v).types = (Value.tag? v).toList.foldl OrdSet.insert e.types := by
  cases v with
  | num n =>
    cases h : n.isWhole with
    | true =>
      rw [see_number_of_whole e h, Value.tag?, h]
      rfl
    | false =>
      rw [see_number_of_not_whole e h, Value.tag?, h]
      rfl
  | _ => rfl

theorem gather_types (values : List Value) :
    (gather caps values).types = OrdSet.ofList (values.filterMap Value.tag?) :=
  foldl_field types Value.tag? OrdSet.insert see_types ∅ values

theorem foldl_and {γ : Type} (f : γ → Bool) (b : Bool) (l : List γ) :
    l.foldl (fun b a => b && f a) b = (b && l.all f) := by
  induction l generalizing b with
  | nil => exact (Bool.and_true b).symm
  | cons a r ih => rw [List.foldl_cons, ih, List.all_cons, Bool.and_assoc]

theorem see_integerOnly (e : Evidence) (v : Value) : (see caps e v).integerOnly
    = (Value.tag? v).toList.foldl (fun b tag => b && decide (tag ≠ .number)) e.integerOnly := by
  cases v with
  | num n =>
    cases h : n.isWhole with
    | true =>
      rw [see_number_of_whole e h, Value.tag?, h]
      exact (Bool.and_true _).symm
    | false =>
      rw [see_number_of_not_whole e h, Value.tag?, h]
      exact (Bool.and_false _).symm
  | foreign _ => rfl
  | _ => exact (Bool.and_true _).symm

theorem gather_integerOnly (values : List Value) :
    (gather caps values).integerOnly = (values.filterMap Value.tag?).all (· ≠ .number) := by
  show (values.foldl (see caps) ∅).integerOnly = _
  rw [foldl_field integerOnly Value.tag? _ see_integerOnly, foldl_and]
  exact Bool.true_and _

theorem see_numbers (e : Evidence) (v : Value) :
    (see caps e v).numbers = (Value.normal? v).toList.foldl Bounds.observe e.numbers := by
  cases v with
  | num n =>
    cases h : n.isWhole with
    | true =>
      rw [see_number_of_whole e h]
      rfl
    | false =>
      rw [see_number_of_not_whole e h]
      rfl
  | _ => rfl

theorem gather_numbers (values : List Value) :
    (gather caps values).numbers = Bounds.ofList (values.filterMap Value.normal?) :=
  foldl_field numbers Value.normal? Bounds.observe see_numbers ∅ values

theorem see_lengths (e : Evidence) (v : Value) :
    (see caps e v).lengths = (Value.length? v).toList.foldl Bounds.observe e.lengths := by
  cases v with
  | num n => cases h : n.isWhole <;> simp only [see, seeNumber, h] <;> rfl
  | _ => rfl

theorem gather_lengths (values : List Value) :
    (gather caps values).lengths = Bounds.ofList (values.filterMap Value.length?) :=
  foldl_field lengths Value.length? Bounds.observe see_lengths ∅ values

theorem see_sizes (e : Evidence) (v : Value) :
    (see caps e v).sizes = (Value.size? v).toList.foldl Bounds.observe e.sizes := by
  cases v with
  | num n => cases h : n.isWhole <;> simp only [see, seeNumber, h] <;> rfl
  | _ => rfl

theorem gather_sizes (values : List Value) :
    (gather caps values).sizes = Bounds.ofList (values.filterMap Value.size?) :=
  foldl_field sizes Value.size? Bounds.observe see_sizes ∅ values

theorem see_formats (e : Evidence) (v : Value) :
    (see caps e v).formats = (Value.outcome? v).toList.foldl OrdSet.insert e.formats := by
  cases v with
  | num n => cases h : n.isWhole <;> simp only [see, seeNumber, h] <;> rfl
  | _ => rfl

theorem gather_formats (values : List Value) :
    (gather caps values).formats = OrdSet.ofList (values.filterMap Value.outcome?) :=
  foldl_field formats Value.outcome? OrdSet.insert see_formats ∅ values

theorem see_distinct (e : Evidence) (v : Value) : (see caps e v).distinct
    = (Value.candidate? v).toList.foldl (Distinct.record caps.distinct) e.distinct := by
  cases v with
  | num n => cases h : n.isWhole <;> simp only [see, seeNumber, h] <;> rfl
  | _ => rfl

theorem gather_distinct (hcaps : 0 ≤ caps.distinct) (values : List Value) :
    (gather caps values).distinct
      = .capped caps.distinct (.ofList (values.filterMap Value.candidate?)) := by
  show (values.foldl (see caps) ∅).distinct = _
  rw [foldl_field distinct Value.candidate? (Distinct.record caps.distinct) see_distinct]
  show (values.filterMap Value.candidate?).foldl _ (∅ : Distinct) = _
  rw [← Distinct.capped_empty hcaps, Distinct.foldl_record]
  rfl

def keep (cap : Int) (kept : List Value) (v : Value) : List Value :=
  if (kept.length : Int) < cap then kept ++ [v] else kept

theorem foldl_keep {cap : Int} {kept : List Value} (h : (kept.length : Int) ≤ cap)
    (values : List Value) :
    values.foldl (keep cap) kept = (kept ++ values).take cap.toNat := by
  induction values generalizing kept with
  | nil =>
    rw [List.append_nil, List.take_of_length_le (by omega)]
    rfl
  | cons v r ih =>
    rw [List.foldl_cons, keep]
    by_cases hroom : (kept.length : Int) < cap
    · have hlen : ((kept ++ [v]).length : Int) ≤ cap := by
        rw [List.length_append, List.length_singleton]
        omega
      rw [if_pos hroom, ih hlen, List.append_assoc, List.singleton_append]
    · have hfull : cap.toNat = kept.length := by omega
      rw [if_neg hroom, ih h, hfull, List.take_left, List.take_left]

theorem see_examples (e : Evidence) (v : Value) : (see caps e v).examples
    = (Value.example? v).toList.foldl (keep caps.examples) e.examples := by
  cases v with
  | num n => cases h : n.isWhole <;> simp only [see, seeNumber, h] <;> rfl
  | _ => rfl

theorem gather_examples (hcaps : 0 ≤ caps.examples) (values : List Value) :
    (gather caps values).examples
      = (values.filterMap Value.example?).take caps.examples.toNat := by
  show (values.foldl (see caps) ∅).examples = _
  rw [foldl_field examples Value.example? (keep caps.examples) see_examples]
  exact foldl_keep hcaps _

theorem see_itemCount (e : Evidence) (v : Value) :
    (see caps e v).itemCount = e.itemCount + ((Value.follow .element v).length : Int) := by
  cases v with
  | num n => cases h : n.isWhole <;> simp only [see, seeNumber, h] <;> exact (Int.add_zero _).symm
  | arr _ => rfl
  | tuple _ => rfl
  | _ => exact (Int.add_zero _).symm

theorem gather_itemCount (values : List Value) :
    (gather caps values).itemCount = (values.flatMap (Value.follow .element)).length := by
  have key : ∀ e : Evidence, (values.foldl (see caps) e).itemCount
      = e.itemCount + ((values.flatMap (Value.follow .element)).length : Int) := by
    induction values with
    | nil =>
      intro e
      exact (Int.add_zero _).symm
    | cons v r ih =>
      intro e
      rw [List.foldl_cons, ih, see_itemCount, List.flatMap_cons, List.length_append]
      omega
  rw [gather, key]
  exact Int.zero_add _

theorem see_presence (e : Evidence) (v : Value) : (see caps e v).presence = e.presence := by
  cases v with
  | num n => cases h : n.isWhole <;> simp only [see, seeNumber, h] <;> rfl
  | _ => rfl

theorem gather_presence (values : List Value) : (gather caps values).presence = 0 := by
  have key : ∀ e : Evidence, (values.foldl (see caps) e).presence = e.presence := by
    induction values with
    | nil =>
      intro e
      rfl
    | cons v r ih =>
      intro e
      rw [List.foldl_cons, ih, see_presence]
  exact key ∅

/-! ### merging -/

/-- the numbers of regular values are no nans -/
theorem normal?_not_nan {values : List Value} (h : ∀ v ∈ values, v.Regular) :
    ∀ n ∈ values.filterMap Value.normal?, n.isNan = false := by
  intro n hn
  obtain ⟨v, hv, hvn⟩ := List.mem_filterMap.mp hn
  cases v with
  | num m =>
    cases hvn
    rw [Number.isNan_normal]
    exact (h _ hv).not_nan
  | _ => cases hvn

theorem take_take_append {α : Type} (n : Nat) (l m : List α) :
    (l.take n ++ m.take n).take n = (l ++ m).take n := by
  rw [List.take_append, List.take_append, List.take_take, List.take_take, List.length_take,
    Nat.min_self]
  congr 2
  omega

theorem upTo_of_nonneg {α : Type} {n : Int} (h : 0 ≤ n) (l : List α) : upTo n l = l.take n.toNat :=
  if_pos h

/-- evidence gathered in two halves and merged is the evidence of all the values -/
theorem gather_append (hd : 0 ≤ caps.distinct) (he : 0 ≤ caps.examples) {vs ws : List Value}
    (hv : ∀ v ∈ vs, v.Regular) (hw : ∀ w ∈ ws, w.Regular) :
    gather caps (vs ++ ws) = (gather caps vs).merge caps (gather caps ws) := by
  apply Evidence.ext
  · show _ = (gather caps vs).types.union (gather caps ws).types
    rw [gather_types, gather_types, gather_types, List.filterMap_append, OrdSet.ofList_append]
  · show _ = ((gather caps vs).integerOnly && (gather caps ws).integerOnly)
    rw [gather_integerOnly, gather_integerOnly, gather_integerOnly, List.filterMap_append,
      List.all_append]
  · show _ = (gather caps vs).numbers.merge (gather caps ws).numbers
    rw [gather_numbers, gather_numbers, gather_numbers, List.filterMap_append]
    exact Bounds.ofList_append Number.weakOn_lt (normal?_not_nan hv) (normal?_not_nan hw)
  · show _ = (gather caps vs).lengths.merge (gather caps ws).lengths
    rw [gather_lengths, gather_lengths, gather_lengths, List.filterMap_append]
    exact Bounds.ofList_append weakOn_int_lt (fun _ _ => trivial) (fun _ _ => trivial)
  · show _ = (gather caps vs).sizes.merge (gather caps ws).sizes
    rw [gather_sizes, gather_sizes, gather_sizes, List.filterMap_append]
    exact Bounds.ofList_append weakOn_int_lt (fun _ _ => trivial) (fun _ _ => trivial)
  · show _ = (gather caps vs).itemCount + (gather caps ws).itemCount
    rw [gather_itemCount, gather_itemCount, gather_itemCount, List.flatMap_append,
      List.length_append]
    exact Int.natCast_add _ _
  · show _ = (gather caps vs).distinct.merge caps.distinct (gather caps ws).distinct
    rw [gather_distinct hd, gather_distinct hd, gather_distinct hd, List.filterMap_append,
      OrdSet.ofList_append, Distinct.merge_capped]
  · show _ = (gather caps vs).formats.union (gather caps ws).formats
    rw [gather_formats, gather_formats, gather_formats, List.filterMap_append,
      OrdSet.ofList_append]
  · show _ = upTo caps.examples ((gather caps vs).examples ++ (gather caps ws).examples)
    rw [gather_examples he, gather_examples he, gather_examples he, List.filterMap_append,
      upTo_of_nonneg he, take_take_append]
  · show _ = (gather caps vs).presence + (gather caps ws).presence
    rw [gather_presence, gather_presence, gather_presence]
    rfl

end Evidence
end JsonShape
