import JsonShape.Proofs.Refusals

/-!
# Interrupted observations

An observation that is refused leaves what was seen before.  What that is may be said without
speaking of observations that end early: it is the evidence of another value, the same up to the
first part that offends.  That part is gone, and so are the elements after it in all lists that it
lies in, though their places are kept, for a list is counted before its elements are looked at.  The
members after it, in all objects that it lies in, are not there.

Such a value is absorbed: no limit is looked at, and what only marks a place leaves no evidence.
Where nothing offends, observing is absorbing.

* `Value.truncated_of_accepted`  where nothing offends, nothing is cut off;
* `Tree.observe_eq_absorb`       observing a value is absorbing what comes before its first offence;
* `Tree.interrupted_exact`       what an observation leaves, refused or not.
-/

namespace JsonShape
open Value

/-! ### what comes before an offence -/

namespace Value

/-- something that leaves no evidence -/
def placeholder : Value := foreign ""

mutual

/-- the value at `depth` without its first part that offends, and without what comes after it -/
def truncated (limit depth : Int) (v : Value) : Value :=
  if limit < depth then placeholder
  else
    match v with
    | arr items => arr (truncatedItems limit (depth + 1) items)
    | tuple items => tuple (truncatedItems limit (depth + 1) items)
    | obj members => obj (truncatedMembers limit (depth + 1) members)
    | foreign _ => placeholder
    | v => v
termination_by structural v

/-- the elements up to the first in which something offends, and the places of those after it -/
def truncatedItems (limit depth : Int) (items : List Value) : List Value :=
  match items with
  | [] => []
  | v :: r =>
    match v.firstOffence limit depth with
    | some _ => truncated limit depth v :: r.map fun _ => placeholder
    | none => v :: truncatedItems limit depth r
termination_by structural items

/-- the members up to the first in which something offends -/
def truncatedMembers (limit depth : Int) (members : List (String × Value)) :
    List (String × Value) :=
  match members with
  | [] => []
  | (key, v) :: r =>
    match v.firstOffence limit depth with
    | some _ => [(key, truncated limit depth v)]
    | none => (key, v) :: truncatedMembers limit depth r
termination_by structural members

end

variable {limit depth : Int}

theorem truncated_of_lt (h : limit < depth) (v : Value) :
    v.truncated limit depth = placeholder := by
  cases v <;> simp only [truncated, h, if_true]

/-- nothing comes before a value that offends itself -/
theorem truncated_of_offends {v : Value} (h : Offends limit depth (0, v)) :
    v.truncated limit depth = placeholder := by
  by_cases hlt : limit < depth
  · exact truncated_of_lt hlt v
  · rcases h with hdeep | ⟨name, rfl⟩
    · exact absurd (by simpa using hdeep) hlt
    · exact if_neg hlt

theorem truncatedItems_cons (v : Value) (r : List Value) : truncatedItems limit depth (v :: r)
    = match v.firstOffence limit depth with
      | some _ => v.truncated limit depth :: r.map fun _ => placeholder
      | none => v :: truncatedItems limit depth r := rfl

theorem truncatedMembers_cons (key : String) (v : Value) (r : List (String × Value)) :
    truncatedMembers limit depth ((key, v) :: r)
      = match v.firstOffence limit depth with
        | some _ => [(key, v.truncated limit depth)]
        | none => (key, v) :: truncatedMembers limit depth r := rfl

/-- all places are kept -/
theorem length_truncatedItems (items : List Value) :
    (truncatedItems limit depth items).length = items.length := by
  induction items with
  | nil => rfl
  | cons v r ih =>
    rw [truncatedItems_cons]
    split
    · rw [List.length_cons, List.length_map, List.length_cons]
    · rw [List.length_cons, ih, List.length_cons]

theorem truncatedItems_of_accepted {items : List Value}
    (h : ∀ v ∈ items, v.firstOffence limit depth = none) :
    truncatedItems limit depth items = items := by
  induction items with
  | nil => rfl
  | cons v r ih =>
    obtain ⟨hv, hr⟩ := List.forall_mem_cons.mp h
    rw [truncatedItems_cons, hv, ih hr]

theorem truncatedMembers_of_accepted {members : List (String × Value)}
    (h : ∀ m ∈ members, m.2.firstOffence limit depth = none) :
    truncatedMembers limit depth members = members := by
  induction members with
  | nil => rfl
  | cons m r ih =>
    obtain ⟨hv, hr⟩ := List.forall_mem_cons.mp h
    rw [truncatedMembers_cons, hv, ih hr]

/-- where nothing offends, nothing is cut off -/
theorem truncated_of_accepted {v : Value} (h : v.firstOffence limit depth = none) :
    v.truncated limit depth = v := by
  obtain ⟨hroom, hbelow⟩ := children_of_firstOffence_eq_none h
  cases v with
  | arr items =>
    have hitems : ∀ w ∈ items, w.firstOffence limit (depth + 1) = none := hbelow
    rw [truncated, if_neg hroom, truncatedItems_of_accepted hitems]
  | tuple items =>
    have hitems : ∀ w ∈ items, w.firstOffence limit (depth + 1) = none := hbelow
    rw [truncated, if_neg hroom, truncatedItems_of_accepted hitems]
  | obj members =>
    have hmembers : ∀ m ∈ members, m.2.firstOffence limit (depth + 1) = none :=
      fun m hm => hbelow m.2 (List.mem_map_of_mem hm)
    rw [truncated, if_neg hroom, truncatedMembers_of_accepted hmembers]
  | foreign name =>
    rw [firstOffence_foreign hroom] at h
    cases h
  | _ => simp only [truncated, hroom, if_false]

end Value

/-! ### absorbing -/

namespace Tree
variable {caps : Caps} {limit depth : Int}

mutual

/-- add all of a value to a tree, without a limit; what is no JSON value adds nothing -/
def absorb (caps : Caps) : Value → Tree → Tree
  | .arr items, t =>
    { t with
      here := t.here.seeArray items.length
      items := absorbItems caps items t.items }
  | .tuple items, t =>
    { t with
      here := t.here.seeArray items.length
      items := absorbItems caps items t.items }
  | .obj members, t =>
    { t with
      here := t.here.seeTag .object
      properties := absorbMembers caps members t.properties }
  | .foreign _, t => t
  | v, t => { t with here := Evidence.see caps t.here v }
termination_by structural v => v

def absorbItems (caps : Caps) : List Value → Option Tree → Option Tree
  | [], t => t
  | v :: r, t => absorbItems caps r (some (absorb caps v (t.getD fresh)))
termination_by structural items => items

def absorbMembers (caps : Caps) :
    List (String × Value) → List (String × Tree) → List (String × Tree)
  | [], l => l
  | (key, v) :: r, l => absorbMembers caps r (setProperty key (absorb caps v (presentAt key l)) l)
termination_by structural members => members

end

theorem absorb_scalar {v : Value} (h : v.scalar?.isSome = true) (t : Tree) :
    absorb caps v t = { t with here := Evidence.see caps t.here v } := by
  cases v with
  | null => rfl
  | bool _ => rfl
  | num _ => rfl
  | str _ => rfl
  | _ => exact absurd h Bool.false_ne_true

theorem absorb_placeholder (t : Tree) : absorb caps placeholder t = t := by
  rw [placeholder, absorb]

/-- places that are kept make no difference once there is a tree for elements -/
theorem absorbItems_placeholders {α : Type} (r : List α) (t : Tree) :
    absorbItems caps (r.map fun _ => placeholder) (some t) = some t := by
  induction r with
  | nil => rfl
  | cons a r ih => rw [List.map_cons, absorbItems, Option.getD_some, absorb_placeholder, ih]

theorem observeItems_eq_absorb {items : List Value} (h : ∀ v ∈ items, ∀ t,
      (observe caps limit depth v t).tree = absorb caps (v.truncated limit depth) t)
    (t : Option Tree) : (observeItems caps limit depth items t).1
      = absorbItems caps (truncatedItems limit depth items) t := by
  induction items generalizing t with
  | nil => rfl
  | cons v r ih =>
    obtain ⟨hv, hr⟩ := List.forall_mem_cons.mp h
    have hrefusal : (observe caps limit depth v (t.getD fresh)).refusal
        = v.firstOffence limit depth := observe_refusal v _
    rw [truncatedItems_cons]
    cases hoffence : v.firstOffence limit depth with
    | some refusal =>
      -- of the elements that follow there are the places only, and they share the tree of this one
      rw [observeItems_of_refused (hrefusal.trans hoffence), absorbItems, absorbItems_placeholders,
        hv]
    | none =>
      rw [observeItems_of_taken (hrefusal.trans hoffence), absorbItems, ih hr, hv,
        truncated_of_accepted hoffence]

theorem observeMembers_eq_absorb {members : List (String × Value)} (h : ∀ m ∈ members, ∀ t,
      (observe caps limit depth m.2 t).tree = absorb caps (m.2.truncated limit depth) t)
    (l : List (String × Tree)) : (observeMembers caps limit depth members l).1
      = absorbMembers caps (truncatedMembers limit depth members) l := by
  induction members generalizing l with
  | nil => rfl
  | cons m r ih =>
    obtain ⟨key, v⟩ := m
    obtain ⟨hv, hr⟩ := List.forall_mem_cons.mp h
    have hrefusal : (observe caps limit depth v (presentAt key l)).refusal
        = v.firstOffence limit depth := observe_refusal v _
    rw [truncatedMembers_cons]
    cases hoffence : v.firstOffence limit depth with
    | some refusal =>
      rw [observeMembers_of_refused (hrefusal.trans hoffence), absorbMembers, absorbMembers, hv]
    | none =>
      rw [observeMembers_of_taken (hrefusal.trans hoffence), absorbMembers, ih hr, hv,
        truncated_of_accepted hoffence]

/-- observing a value is absorbing what comes before its first offence -/
theorem observe_eq_absorb (v : Value) (t : Tree) :
    (observe caps limit depth v t).tree = absorb caps (v.truncated limit depth) t := by
  induction v using children_induction generalizing depth t with
  | h v ih =>
    by_cases hroom : limit < depth
    · rw [observe_of_lt hroom, truncated_of_lt hroom, absorb_placeholder]
    · cases v using Value.scalar_cases with
      | scalar v hs =>
        rw [observe_scalar hroom hs, truncated_of_accepted (firstOffence_scalar hroom hs),
          absorb_scalar hs]
      | arr items =>
        have hitems : (observeItems caps limit (depth + 1) items t.items).1
            = absorbItems caps (truncatedItems limit (depth + 1) items) t.items :=
          observeItems_eq_absorb (fun w hw => ih w hw) t.items
        rw [observe_arr hroom, truncated, if_neg hroom, absorb, length_truncatedItems, ← hitems]
        rfl
      | tuple items =>
        have hitems : (observeItems caps limit (depth + 1) items t.items).1
            = absorbItems caps (truncatedItems limit (depth + 1) items) t.items :=
          observeItems_eq_absorb (fun w hw => ih w hw) t.items
        rw [observe_tuple hroom, truncated, if_neg hroom, absorb, length_truncatedItems, ← hitems]
        rfl
      | obj members =>
        have hmembers : (observeMembers caps limit (depth + 1) members t.properties).1
            = absorbMembers caps (truncatedMembers limit (depth + 1) members) t.properties :=
          observeMembers_eq_absorb (fun m hm => ih m.2 (List.mem_map_of_mem hm)) t.properties
        rw [observe_obj hroom, truncated, if_neg hroom, absorb, ← hmembers]
        rfl
      | foreign name =>
        rw [observe_foreign hroom, truncated, if_neg hroom, absorb_placeholder]

theorem observe_of_accepted {v : Value} (h : v.firstOffence limit depth = none) (t : Tree) :
    observe caps limit depth v t = ⟨absorb caps v t, .done⟩ := by
  have htree : (observe caps limit depth v t).tree = absorb caps v t := by
    rw [observe_eq_absorb, truncated_of_accepted h]
  have hending : (observe caps limit depth v t).ending = .done := by
    rw [observe_ending, h]
    rfl
  rw [← htree, ← hending]

/-- what is left of an observation, refused or not, is what comes before the first offence; where
nothing offends that is the value itself, and where the value itself does it is nothing -/
theorem interrupted_exact (caps : Caps) (limit depth : Int) (v : Value) (t : Tree) :
    (observe caps limit depth v t).tree = absorb caps (v.truncated limit depth) t
      ∧ (v.firstOffence limit depth = none →
          v.truncated limit depth = v ∧ observe caps limit depth v t = ⟨absorb caps v t, .done⟩)
      ∧ (Offends limit depth (0, v) → (observe caps limit depth v t).tree = t) := by
  refine ⟨observe_eq_absorb v t, fun h => ⟨truncated_of_accepted h, observe_of_accepted h t⟩,
    fun h => ?_⟩
  rw [observe_eq_absorb, truncated_of_offends h, absorb_placeholder]

/-- something in an array in an array that is no JSON value, with more around it -/
def broken : Value :=
  .obj [("b", .null), ("a", .arr [.int 1, .arr [.foreign "set", .int 2], .int 3]), ("c", .null)]

theorem interrupted_exact_broken :
    (observe .default 9 0 broken filled).tree
        = absorb .default (.obj [("b", .null),
            ("a", .arr [.int 1, .arr [placeholder, placeholder], placeholder])]) filled
      ∧ observe .default 9 7 (.arr [.null, .arr []]) filled
        = ⟨absorb .default (.arr [.null, .arr []]) filled, .done⟩
      ∧ (observe .default 0 1 broken filled).tree = filled := by
  obtain ⟨hbroken, _, _⟩ := interrupted_exact .default 9 0 broken filled
  obtain ⟨_, haccepted, _⟩ := interrupted_exact .default 9 7 (.arr [.null, .arr []]) filled
  obtain ⟨_, _, hoffends⟩ := interrupted_exact .default 0 1 broken filled
  exact ⟨hbroken, (haccepted rfl).2, hoffends (Or.inl (by decide))⟩

end Tree
end JsonShape
