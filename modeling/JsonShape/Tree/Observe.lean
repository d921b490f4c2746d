import JsonShape.Logged
import JsonShape.Tree.Basic

/-!
# Observing values

`Tree.observe` adds a value to a tree: the value itself to the evidence of the root, the members of
objects and the elements of arrays to the subtrees below.  A part that lies too deep or is no JSON
value ends the observation there; what was seen before it stays in the tree.  The depth is tested
before the kind, and a warning is logged where it is too great.

* `Tree.observe_of_lt`       what lies too deep leaves the tree as it is;
* `Tree.observe_foreign`     so does what is no JSON value;
* `Tree.observeItems_of_taken`, `Tree.observeMembers_of_taken`  what is taken leaves its tree to
                             those after it;
* `Tree.observeItems_invariant`, `Tree.observeMembers_invariant`  what each of them keeps, all of
                             them keep.
-/

namespace JsonShape

/-- how an observation ended: why it did so early, if it did, and what was logged on the way -/
structure Ending where
  refusal : Option Refusal
  log : List Log.Entry

namespace Ending

/-- nothing was refused, and nothing logged -/
def done : Ending := ⟨none, []⟩

/-- a part lies too deep, of which a warning is given -/
def tooDeep (depth limit : Int) : Ending :=
  ⟨some (.tooDeep depth limit),
    [⟨.warning, "Maximum nesting depth " ++ toString limit ++ " exceeded"⟩]⟩

/-- a part is no JSON value -/
def notJson (typeName : String) : Ending := ⟨some (.notJson typeName), []⟩

/-- an ending with something logged before -/
def after (before : List Log.Entry) (e : Ending) : Ending := ⟨e.refusal, before ++ e.log⟩

end Ending

/-- the tree after an observation, and how this ended -/
structure Observed where
  tree : Tree
  ending : Ending

namespace Observed

abbrev refusal (seen : Observed) : Option Refusal := seen.ending.refusal

abbrev log (seen : Observed) : List Log.Entry := seen.ending.log

/-- the tree, unless the observation ended early -/
def result (seen : Observed) : Logged Tree where
  log := seen.log
  result :=
    match seen.refusal with
    | some refusal => .error refusal
    | none => .ok seen.tree

theorem result_of_refused {seen : Observed} {refusal : Refusal}
    (h : seen.refusal = some refusal) : seen.result = ⟨seen.log, .error refusal⟩ := by
  rw [result, h]

theorem result_of_taken {seen : Observed} (h : seen.refusal = none) :
    seen.result = ⟨seen.log, .ok seen.tree⟩ := by
  rw [result, h]

theorem result_of_done {seen : Observed} (h : seen.ending = .done) :
    seen.result = .ok seen.tree := by
  rw [result, log, refusal, h]
  rfl

end Observed

namespace Tree

/-- change the subtree of a key, a fresh one if the key is new; a new key goes last -/
def setProperty (key : String) (t : Tree) : List (String × Tree) → List (String × Tree)
  | [] => [(key, t)]
  | p :: r => if p.1 = key then (key, t) :: r else p :: setProperty key t r

/-- the subtree of a key, with one more object that holds it -/
def presentAt (key : String) (properties : List (String × Tree)) : Tree :=
  let child := (properties.lookup key).getD fresh
  { child with here := child.here.bePresent }

mutual

/-- add a value that lies at `depth` to a tree -/
def observe (caps : Caps) (limit depth : Int) (v : Value) (t : Tree) : Observed :=
  if limit < depth then ⟨t, .tooDeep depth limit⟩
  else
    match v with
    | .null => ⟨{ t with here := t.here.seeTag .null }, .done⟩
    | .bool b => ⟨{ t with here := t.here.seeBool caps b }, .done⟩
    | .num n => ⟨{ t with here := t.here.seeNumber caps n }, .done⟩
    | .str s => ⟨{ t with here := t.here.seeString caps s }, .done⟩
    | .arr items =>
      let seen := observeItems caps limit (depth + 1) items t.items
      ⟨{ t with here := t.here.seeArray items.length, items := seen.1 }, seen.2⟩
    | .tuple items =>
      let seen := observeItems caps limit (depth + 1) items t.items
      ⟨{ t with here := t.here.seeArray items.length, items := seen.1 }, seen.2⟩
    | .obj members =>
      let seen := observeMembers caps limit (depth + 1) members t.properties
      ⟨{ t with here := t.here.seeTag .object, properties := seen.1 }, seen.2⟩
    | .foreign typeName => ⟨t, .notJson typeName⟩

/-- add elements, one after the other, to the tree they share -/
def observeItems (caps : Caps) (limit depth : Int) (items : List Value) (t : Option Tree) :
    Option Tree × Ending :=
  match items with
  | [] => (t, .done)
  | v :: r =>
    let seen := observe caps limit depth v (t.getD fresh)
    match seen.refusal with
    | some _ => (some seen.tree, seen.ending)
    | none =>
      let rest := observeItems caps limit depth r (some seen.tree)
      (rest.1, rest.2.after seen.log)

/-- add members, one after the other, each to the tree of its key -/
def observeMembers (caps : Caps) (limit depth : Int) (members : List (String × Value))
    (properties : List (String × Tree)) : List (String × Tree) × Ending :=
  match members with
  | [] => (properties, .done)
  | (key, v) :: r =>
    let seen := observe caps limit depth v (presentAt key properties)
    let properties := setProperty key seen.tree properties
    match seen.refusal with
    | some _ => (properties, seen.ending)
    | none =>
      let rest := observeMembers caps limit depth r properties
      (rest.1, rest.2.after seen.log)

end

theorem observe_of_lt {caps : Caps} {limit depth : Int} (h : limit < depth) (v : Value) (t : Tree) :
    observe caps limit depth v t = ⟨t, .tooDeep depth limit⟩ := by
  cases v <;> simp only [observe, h, if_true]

theorem observe_foreign {caps : Caps} {limit depth : Int} (h : ¬ limit < depth) (name : String)
    (t : Tree) : observe caps limit depth (.foreign name) t = ⟨t, .notJson name⟩ := by
  simp only [observe, h, if_false]

section
variable {caps : Caps} {limit depth : Int} {v : Value}

/-- an element that is refused ends it, and leaves what was seen of it -/
theorem observeItems_of_refused {t : Option Tree} {refusal : Refusal}
    (h : (observe caps limit depth v (t.getD fresh)).refusal = some refusal) (r : List Value) :
    observeItems caps limit depth (v :: r) t
      = (some (observe caps limit depth v (t.getD fresh)).tree,
          (observe caps limit depth v (t.getD fresh)).ending) := by
  rw [observeItems]
  simp only [h]

/-- after an element that is taken, the others are added to the same tree -/
theorem observeItems_of_taken {t : Option Tree}
    (h : (observe caps limit depth v (t.getD fresh)).refusal = none) (r : List Value) :
    observeItems caps limit depth (v :: r) t
      = ((observeItems caps limit depth r
            (some (observe caps limit depth v (t.getD fresh)).tree)).1,
          (observeItems caps limit depth r
            (some (observe caps limit depth v (t.getD fresh)).tree)).2.after
              (observe caps limit depth v (t.getD fresh)).log) := by
  rw [observeItems]
  simp only [h]

theorem observeItems_of_done {t : Option Tree}
    (h : (observe caps limit depth v (t.getD fresh)).ending = .done) (r : List Value) :
    observeItems caps limit depth (v :: r) t = observeItems caps limit depth r
      (some (observe caps limit depth v (t.getD fresh)).tree) := by
  rw [observeItems_of_taken (congrArg Ending.refusal h), Observed.log, h]
  rfl

/-- what each element keeps, all of them keep, as far as they are taken -/
theorem observeItems_invariant (P : Option Tree → Prop) {items : List Value}
    (h : ∀ v ∈ items, ∀ t, P t → P (some (observe caps limit depth v (t.getD fresh)).tree))
    {t : Option Tree} (ht : P t) : P (observeItems caps limit depth items t).1 := by
  induction items generalizing t with
  | nil => exact ht
  | cons v r ih =>
    obtain ⟨hv, hr⟩ := List.forall_mem_cons.mp h
    have hseen := hv t ht
    cases hrefusal : (observe caps limit depth v (t.getD fresh)).refusal with
    | some refusal =>
      rw [observeItems_of_refused hrefusal]
      exact hseen
    | none =>
      rw [observeItems_of_taken hrefusal]
      exact ih hr hseen

variable {key : String} {l : List (String × Tree)}

/-- a member that is refused ends it, and leaves what was seen of it -/
theorem observeMembers_of_refused {refusal : Refusal}
    (h : (observe caps limit depth v (presentAt key l)).refusal = some refusal)
    (r : List (String × Value)) : observeMembers caps limit depth ((key, v) :: r) l
      = (setProperty key (observe caps limit depth v (presentAt key l)).tree l,
          (observe caps limit depth v (presentAt key l)).ending) := by
  rw [observeMembers]
  simp only [h]

/-- after a member that is taken, the others are added to the changed row -/
theorem observeMembers_of_taken
    (h : (observe caps limit depth v (presentAt key l)).refusal = none)
    (r : List (String × Value)) : observeMembers caps limit depth ((key, v) :: r) l
      = ((observeMembers caps limit depth r
            (setProperty key (observe caps limit depth v (presentAt key l)).tree l)).1,
          (observeMembers caps limit depth r
            (setProperty key (observe caps limit depth v (presentAt key l)).tree l)).2.after
              (observe caps limit depth v (presentAt key l)).log) := by
  rw [observeMembers]
  simp only [h]

theorem observeMembers_of_done
    (h : (observe caps limit depth v (presentAt key l)).ending = .done)
    (r : List (String × Value)) : observeMembers caps limit depth ((key, v) :: r) l
      = observeMembers caps limit depth r
          (setProperty key (observe caps limit depth v (presentAt key l)).tree l) := by
  rw [observeMembers_of_taken (congrArg Ending.refusal h), Observed.log, h]
  rfl

/-- what each member keeps, all of them keep, as far as they are taken -/
theorem observeMembers_invariant (P : List (String × Tree) → Prop)
    {members : List (String × Value)}
    (h : ∀ m ∈ members, ∀ l, P l →
      P (setProperty m.1 (observe caps limit depth m.2 (presentAt m.1 l)).tree l))
    (hl : P l) : P (observeMembers caps limit depth members l).1 := by
  induction members generalizing l with
  | nil => exact hl
  | cons m r ih =>
    obtain ⟨hv, hr⟩ := List.forall_mem_cons.mp h
    have hset := hv l hl
    cases hrefusal : (observe caps limit depth m.2 (presentAt m.1 l)).refusal with
    | some refusal =>
      rw [observeMembers_of_refused hrefusal]
      exact hset
    | none =>
      rw [observeMembers_of_taken hrefusal]
      exact ih hr hset

end

/-- add values, one after the other, up to the first that is refused -/
def observeAll (caps : Caps) (limit : Int) : List Value → Tree → Observed
  | [], t => ⟨t, .done⟩
  | v :: r, t =>
    let seen := observe caps limit 0 v t
    match seen.refusal with
    | some _ => seen
    | none =>
      let rest := observeAll caps limit r seen.tree
      ⟨rest.tree, rest.ending.after seen.log⟩

end Tree
end JsonShape
