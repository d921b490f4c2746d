import JsonShape.Options.Basic
import JsonShape.Value.Display

/-!
# Reading options

Options are read from pairs of a name and a value.  The first unknown name is refused before any
value is looked at.  Of several pairs for one option, in either spelling, the last counts; the
values that count are checked in a fixed order, and the first fault is reported.

* `Options.ofPairs_toPairs`  all choices of some options, read again, are these options;
* `Options.ofPairs_nil`      nothing said gives the default choices.
-/

namespace JsonShape

/-- the cause for which options are refused -/
inductive OptionFault where
  | unknown (name : String)
  | badDraft (v : Value)
  | badPolicy (v : Value)
  | notNatural (field : Field) (v : Value)
  | notPositive (v : Value)

namespace OptionFault

/-- words in quotes, with commas between them -/
def choices (words : List String) : String := ", ".intercalate (words.map Text.quoted)

def message : OptionFault → String
  | unknown name => "Unknown inference option: " ++ name
  | badDraft v =>
    "Invalid draft " ++ v.shown ++ ". Valid options: " ++ choices (Draft.all.map Draft.label)
  | badPolicy v =>
    "Invalid requiredPolicy " ++ v.shown ++ ". Valid options: "
      ++ choices (Policy.all.map Policy.label)
  | notNatural field v => field.name ++ " must be a non-negative integer, got " ++ v.shown
  | notPositive v => Field.maxDepth.name ++ " must be a positive integer, got " ++ v.shown

end OptionFault

namespace Options

/-! ### single values -/

def readDraft (v : Value) : Except OptionFault Draft :=
  match v with
  | .str s =>
    match Draft.ofLabel? s with
    | some d => .ok d
    | none => .error (.badDraft v)
  | _ => .error (.badDraft v)

def readPolicy (v : Value) : Except OptionFault Policy :=
  match v with
  | .str s =>
    match Policy.ofLabel? s with
    | some p => .ok p
    | none => .error (.badPolicy v)
  | _ => .error (.badPolicy v)

/-- the natural number that a value is; truth values and doubles are none -/
def natural? : Value → Option Nat
  | .num (.int n) => n.toNat?
  | _ => none

def readNatural (field : Field) (v : Value) : Except OptionFault Nat :=
  match natural? v with
  | some n => .ok n
  | none => .error (.notNatural field v)

def readPositive (v : Value) : Except OptionFault { n : Nat // 0 < n } :=
  match natural? v with
  | some n => if h : 0 < n then .ok ⟨n, h⟩ else .error (.notPositive v)
  | none => .error (.notPositive v)

/-! ### all values -/

/-- the options of a choice of values, checked in order -/
def ofChoice (choice : Field → Value) : Except OptionFault Options := do
  let draft ← readDraft (choice .draft)
  let policy ← readPolicy (choice .requiredPolicy)
  let enumThreshold ← readNatural .enumThreshold (choice .enumThreshold)
  let maxUniqueValues ← readNatural .maxUniqueValues (choice .maxUniqueValues)
  let maxExamples ← readNatural .maxExamples (choice .maxExamples)
  let maxDepth ← readPositive (choice .maxDepth)
  return {
    draft := draft
    title := choice .title
    id := choice .id
    additionalProperties := choice .additionalProperties
    enumThreshold := enumThreshold
    detectFormats := choice .detectFormats
    minmax := choice .minmax
    examples := choice .examples
    requiredPolicy := policy
    maxUniqueValues := maxUniqueValues
    maxExamples := maxExamples
    maxDepth := maxDepth.val
    maxDepth_pos := maxDepth.property }

/-! ### pairs -/

/-- the options that the names of pairs stand for; the first unknown name is refused -/
def resolve : List (String × Value) → Except OptionFault (List (Field × Value))
  | [] => .ok []
  | (name, v) :: r =>
    match Field.ofName? name with
    | none => .error (.unknown name)
    | some field => (resolve r).map ((field, v) :: ·)

/-- the last value given for an option, or its default -/
def effective (given : List (Field × Value)) (field : Field) : Value :=
  (given.reverse.lookup field).getD field.default

/-- the options that pairs of names and values stand for -/
def ofPairs (pairs : List (String × Value)) : Except OptionFault Options := do
  let given ← resolve pairs
  ofChoice (effective given)

/-- a pair among pairs: in the place of the one of its name, or last -/
def setPair (pairs : List (String × Value)) (pair : String × Value) : List (String × Value) :=
  match pairs with
  | [] => [pair]
  | p :: r => if p.1 = pair.1 then pair :: r else p :: setPair r pair

/-- the options with some choices changed; no changes change nothing -/
def override (o : Options) (changes : List (String × Value)) : Except OptionFault Options :=
  if changes.isEmpty then .ok o else ofPairs (changes.foldl setPair o.toPairs)

/-- options as they are asked for: made before, or said by pairs -/
inductive Request where
  | made (o : Options)
  | said (pairs : List (String × Value))

/-- the options that are asked for -/
def Request.read : Request → Except OptionFault Options
  | .made o => .ok o
  | .said pairs => ofPairs pairs

/-! ### reading back -/

theorem ofChoice_get (o : Options) : ofChoice o.get = .ok o := by
  have hd : readDraft (o.get .draft) = .ok o.draft := by
    cases h : o.draft <;> simp only [get, h] <;> rfl
  have hp : readPolicy (o.get .requiredPolicy) = .ok o.requiredPolicy := by
    cases h : o.requiredPolicy <;> simp only [get, h] <;> rfl
  have hm : readPositive (o.get .maxDepth) = .ok ⟨o.maxDepth, o.maxDepth_pos⟩ := by
    simp only [readPositive, get, natural?, Value.int, Int.toNat?, o.maxDepth_pos, dite_true]
  simp only [ofChoice, hd, hp, hm]
  rfl

theorem resolve_toPairs (o : Options) :
    resolve o.toPairs = .ok (Field.all.map fun f => (f, o.get f)) := by
  have h : ∀ fields : List Field, resolve (fields.map fun f => (f.name, o.get f))
      = .ok (fields.map fun f => (f, o.get f)) := by
    intro fields
    induction fields with
    | nil => rfl
    | cons f r ih =>
      rw [List.map_cons, resolve, Field.ofName?_name, List.map_cons]
      simp only [ih]
      rfl
  exact h Field.all

theorem effective_all (o : Options) :
    effective (Field.all.map fun f => (f, o.get f)) = o.get := by
  funext f
  cases f <;> rfl

theorem ofPairs_toPairs (o : Options) : ofPairs o.toPairs = .ok o := by
  rw [ofPairs, resolve_toPairs]
  exact (congrArg ofChoice (effective_all o)).trans (ofChoice_get o)

theorem ofPairs_nil : ofPairs [] = .ok default := rfl

end Options
end JsonShape
