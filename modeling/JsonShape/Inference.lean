import JsonShape.Machine
import JsonShape.Options.Read
import JsonShape.Schema.Document
import JsonShape.Tree.Merge
import JsonShape.Tree.Observe

/-!
# Inference

Every sample is observed into a tree of its own, the trees are merged from left to right, and the
merged tree is rendered as a schema.  The first sample that is refused ends all.

Where the options allow more than the machine can follow, it is the machine that stops at a sample
nested too deep, and this is told apart.  It also stops at a document in which objects and lists lie
one within the other deeper than its keys can be sorted, whatever the options brought into it.

* `fold_nil`    without samples there is no tree;
* `fold_cons`   the first sample decides, or its tree starts the merge;
* `fold_of_le`  a machine that can follow what is asked for is not noticed.
-/

namespace JsonShape

/-- the tree of one sample -/
def observeSample (caps : Caps) (limit : Int) (sample : Value) : Logged Tree :=
  (Tree.observe caps limit 0 sample Tree.fresh).result

/-- a tree with one more beside it -/
def mergeInto (caps : Caps) (merged : Option Tree) (t : Tree) : Tree :=
  match merged with
  | some m => Tree.merge caps m t
  | none => t

/-- the samples merged into what was seen before them -/
def foldFrom (caps : Caps) (limit : Int) (merged : Option Tree) :
    List Value → Logged (Option Tree)
  | [] => .ok merged
  | sample :: r =>
    (observeSample caps limit sample).bind fun t =>
      foldFrom caps limit (some (mergeInto caps merged t)) r

/-- the tree of all samples, none if there are none -/
def fold (caps : Caps) (limit : Int) (samples : List Value) : Logged (Option Tree) :=
  foldFrom caps limit none samples

theorem foldFrom_cons (caps : Caps) (limit : Int) (merged : Option Tree) (v : Value)
    (r : List Value) : foldFrom caps limit merged (v :: r) =
      (observeSample caps limit v).bind fun t =>
        foldFrom caps limit (some (mergeInto caps merged t)) r := rfl

theorem fold_cons (caps : Caps) (limit : Int) (v : Value) (r : List Value) :
    fold caps limit (v :: r) =
      (observeSample caps limit v).bind fun t => foldFrom caps limit (some t) r := rfl

theorem fold_nil (caps : Caps) (limit : Int) : fold caps limit [] = .ok none := rfl

/-- the refusal of a part at which the machine stopped, and not the depth that was asked for -/
def Refusal.overflowing (asked : Int) : Refusal → Refusal
  | .tooDeep _ _ => .beyondReach asked
  | refusal => refusal

/-- what comes of a computation that the machine may stop; it does so without a word -/
def Logged.overflowing {α : Type} (asked : Int) (x : Logged α) : Logged α :=
  ⟨[], x.result.mapError (Refusal.overflowing asked)⟩

namespace Machine

/-- the tree of all samples, if they are nested no deeper than asked for, and than the machine can
follow -/
def fold (m : Machine) (caps : Caps) (asked : Nat) (samples : List Value) :
    Logged (Option Tree) :=
  if asked ≤ m.reach then JsonShape.fold caps asked samples
  else (JsonShape.fold caps m.reach samples).overflowing asked

theorem fold_of_le {m : Machine} {asked : Nat} (h : asked ≤ m.reach) (caps : Caps)
    (samples : List Value) : m.fold caps asked samples = JsonShape.fold caps asked samples :=
  if_pos h

/-- the document, if the machine can sort its keys -/
def write (m : Machine) (asked : Nat) (d : Document) : Except Refusal Document :=
  if d.unsorted.sortDepth ≤ m.room then .ok d else .error (.beyondReach asked)

end Machine

/-- a document or a refusal, and what is logged with it -/
abbrev Inference := Logged Document

namespace Inference

/-- the outcome for so many samples with this tree -/
def ofTree (m : Machine) (o : Options) (count : Nat) : Option Tree → Inference
  | none =>
    ⟨[⟨.debug, "No samples provided, emitting metadata-only schema"⟩],
      m.write o.maxDepth (.ofOptions o none)⟩
  | some t =>
    ⟨[⟨.debug, "Rendering schema from " ++ toString count ++ " sample(s)"⟩],
      m.write o.maxDepth (.ofOptions o (some (Schema.ofTree o count t)))⟩

/-- an outcome with a warning after it if it was the machine that stopped -/
def warned (r : Inference) : Inference :=
  match r.result with
  | .error (.beyondReach asked) =>
    let message := "Interpreter recursion limit reached below max_depth " ++ toString asked
    ⟨r.log ++ [⟨.warning, message⟩], .error (.beyondReach asked)⟩
  | _ => r

end Inference

/-- infer a schema from samples -/
def infer (m : Machine) (o : Options) (samples : List Value) : Inference :=
  Inference.warned ((m.fold o.caps o.maxDepth samples).bind (Inference.ofTree m o samples.length))

/-- infer a schema from samples, under the options asked for with some choices changed -/
def inferWith (m : Machine) (request : Options.Request) (changes : List (String × Value))
    (samples : List Value) : Except OptionFault Inference := do
  let o ← request.read
  let changed ← o.override changes
  return infer m changed samples

end JsonShape
