import JsonShape.Proofs.Answer
import JsonShape.Proofs.Collecting

/-!
# What is refused

A part of a value offends if it lies too deep or is no JSON value.  A value is refused exactly if
one of its parts offends, and then for the first one that does, a whole coming before its parts;
lying too deep weighs more than being no JSON.  It makes no difference what the tree holds already,
nor how much of it is kept.

Samples are refused for the first of them that is.  What is accepted is observed alike under any
limit.  What is logged follows the observation: nothing for what is taken, and one warning where a
part lies too deep, which goes with the refusal all the way up.

* `Tree.observe_ending`        an observation is refused for the first offence in pre-order, with
                               the warning that goes with it;
* `Value.depth_of_tooDeep`     what is refused for its depth lies one level below the limit;
* `Tree.observe_eq_of_limits`  limits under which nothing offends give the same tree;
* `foldFrom_warned`            folding adds no warning and loses none;
* `Inference.reported_infer`   one warning is reported if nesting was the trouble, else none;
* `Inference.infer_of_refused`  samples after a refused one do not matter;
* `refusals_exact`             all of this, for values and for samples.
-/

namespace JsonShape
open Value

/-! ### offences -/

namespace Value
variable {limit depth : Int} {v : Value}

/-- whether a part, so many levels inside of a value at `depth`, may not be observed -/
def Offends (limit depth : Int) (p : Nat × Value) : Prop :=
  limit < depth + p.1 ∨ ∃ name, p.2 = foreign name

/-- whether this is why the part may not be observed; its depth is looked at first -/
def RefusedFor (limit depth : Int) (p : Nat × Value) (r : Refusal) : Prop :=
  limit < depth + p.1 ∧ r = .tooDeep (depth + p.1) limit
    ∨ depth + p.1 ≤ limit ∧ ∃ name, p.2 = foreign name ∧ r = .notJson name

/-- why a part may not be observed, if so -/
def offence? (limit depth : Int) (p : Nat × Value) : Option Refusal :=
  if limit < depth + p.1 then some (.tooDeep (depth + p.1) limit)
  else
    match p.2 with
    | foreign name => some (.notJson name)
    | _ => none

/-- why a value at `depth` may not be observed, if so: the first offence among its parts -/
def firstOffence (limit depth : Int) (v : Value) : Option Refusal :=
  v.parts.findSome? (offence? limit depth)

theorem offence?_eq_some {p : Nat × Value} {r : Refusal} :
    offence? limit depth p = some r ↔ RefusedFor limit depth p r := by
  obtain ⟨n, w⟩ := p
  by_cases h : limit < depth + n
  · have hle : ¬ depth + n ≤ limit := Int.not_le.mpr h
    simp [offence?, RefusedFor, h, hle, eq_comm]
  · have hle : depth + n ≤ limit := Int.not_lt.mp h
    cases w <;> simp [offence?, RefusedFor, h, hle, eq_comm]

theorem offence?_eq_none {p : Nat × Value} :
    offence? limit depth p = none ↔ ¬ Offends limit depth p := by
  obtain ⟨n, w⟩ := p
  by_cases h : limit < depth + n
  · simp [offence?, Offends, h]
  · cases w <;> simp [offence?, Offends, h]

theorem offence?_deeper (p : Nat × Value) :
    offence? limit depth (deeper p) = offence? limit (depth + 1) p := by
  have hdepth : depth + ((p.1 + 1 : Nat) : Int) = depth + 1 + p.1 := by omega
  rw [offence?, offence?, deeper, hdepth]

theorem firstOffence_eq_none :
    v.firstOffence limit depth = none ↔ ∀ p ∈ v.parts, ¬ Offends limit depth p := by
  rw [firstOffence, List.findSome?_eq_none_iff]
  simp only [offence?_eq_none]

theorem firstOffence_eq_some {r : Refusal} : v.firstOffence limit depth = some r
    ↔ ∃ before p after, v.parts = before ++ p :: after
      ∧ (∀ q ∈ before, ¬ Offends limit depth q) ∧ RefusedFor limit depth p r := by
  rw [firstOffence, List.findSome?_eq_some_iff]
  simp only [offence?_eq_some, offence?_eq_none, and_comm]

theorem findSome?_congr {α β : Type} {f g : α → Option β} {l : List α} (h : ∀ a ∈ l, f a = g a) :
    l.findSome? f = l.findSome? g := by
  induction l with
  | nil => rfl
  | cons a r ih =>
    obtain ⟨ha, hr⟩ := List.forall_mem_cons.mp h
    rw [List.findSome?_cons, List.findSome?_cons, ha, ih hr]

theorem findSome?_flatMap {α β γ : Type} (f : β → Option γ) (g : α → List β) (l : List α) :
    (l.flatMap g).findSome? f = l.findSome? fun a => (g a).findSome? f := by
  induction l with
  | nil => rfl
  | cons a r ih =>
    rw [List.flatMap_cons, List.findSome?_append, List.findSome?_cons, ih]
    cases (g a).findSome? f <;> rfl

/-- a value is looked at before its children, and these one after the other -/
theorem firstOffence_eq (v : Value) : v.firstOffence limit depth
    = (offence? limit depth (0, v)).or
      (v.children.findSome? fun w => w.firstOffence limit (depth + 1)) := by
  have hchild : ∀ w : Value, (w.parts.map deeper).findSome? (offence? limit depth)
      = w.firstOffence limit (depth + 1) := by
    intro w
    rw [List.findSome?_map, firstOffence]
    congr 1
    funext p
    exact offence?_deeper p
  rw [firstOffence, parts_eq, List.findSome?_cons, findSome?_flatMap]
  simp only [hchild]
  cases offence? limit depth (0, v) <;> rfl

theorem firstOffence_of_lt (h : limit < depth) (v : Value) :
    v.firstOffence limit depth = some (.tooDeep depth limit) := by
  have hzero : depth + ((0 : Nat) : Int) = depth := Int.add_zero depth
  rw [firstOffence_eq, offence?, hzero, if_pos h]
  rfl

/-- a JSON value that lies within the limit is judged by its children -/
theorem firstOffence_of_le (h : ¬ limit < depth) (hv : ∀ name, v ≠ foreign name) :
    v.firstOffence limit depth
      = v.children.findSome? fun w => w.firstOffence limit (depth + 1) := by
  have hnone : offence? limit depth (0, v) = none := by
    rw [offence?_eq_none]
    rintro (hlt | ⟨name, hname⟩)
    · exact h (by simpa using hlt)
    · exact hv name hname
  rw [firstOffence_eq, hnone, Option.none_or]

theorem firstOffence_foreign (h : ¬ limit < depth) (name : String) :
    (foreign name).firstOffence limit depth = some (.notJson name) := by
  have hzero : depth + ((0 : Nat) : Int) = depth := Int.add_zero depth
  rw [firstOffence_eq, offence?, hzero, if_neg h]
  rfl

theorem firstOffence_scalar (h : ¬ limit < depth) (hv : v.scalar?.isSome = true) :
    v.firstOffence limit depth = none := by
  cases v with
  | null => exact firstOffence_of_le h nofun
  | bool _ => exact firstOffence_of_le h nofun
  | num _ => exact firstOffence_of_le h nofun
  | str _ => exact firstOffence_of_le h nofun
  | _ => exact absurd hv Bool.false_ne_true

/-- where nothing offends, nothing in the children does -/
theorem children_of_firstOffence_eq_none (h : v.firstOffence limit depth = none) :
    ¬ limit < depth ∧ ∀ w ∈ v.children, w.firstOffence limit (depth + 1) = none := by
  have hroom : ¬ limit < depth := by
    intro hlt
    rw [firstOffence_of_lt hlt] at h
    cases h
  rw [firstOffence_eq, Option.or_eq_none_iff] at h
  exact ⟨hroom, List.findSome?_eq_none_iff.mp h.2⟩

/-- what is refused for its depth lies one level below the limit, for what holds it did not -/
theorem depth_of_tooDeep (hstart : depth ≤ limit + 1) {d m : Int}
    (h : v.firstOffence limit depth = some (.tooDeep d m)) : d = limit + 1 ∧ m = limit := by
  induction v using children_induction generalizing depth with
  | h v ih =>
    by_cases hroom : limit < depth
    · rw [firstOffence_of_lt hroom] at h
      cases h
      exact ⟨by omega, rfl⟩
    · cases hv : v with
      | foreign name =>
        rw [hv, firstOffence_foreign hroom] at h
        cases h
      | _ =>
        rw [firstOffence_of_le hroom (by rw [hv]; nofun)] at h
        obtain ⟨w, hw, hwo⟩ := List.exists_of_findSome?_eq_some h
        exact ih w hw (by omega) hwo

end Value

/-! ### observations -/

/-- what is logged where a value is refused -/
def Refusal.entries : Refusal → List Log.Entry
  | tooDeep depth limit => [⟨.warning, (tooDeep depth limit).message⟩]
  | _ => []

/-- the ending of an observation that this offence cut short, or none -/
def Ending.ofOffence : Option Refusal → Ending
  | none => .done
  | some refusal => ⟨some refusal, refusal.entries⟩

namespace Tree
variable {caps : Caps} {limit depth : Int}

theorem observeItems_ending {items : List Value} (h : ∀ v ∈ items, ∀ t,
      (observe caps limit depth v t).ending = .ofOffence (v.firstOffence limit depth))
    (t : Option Tree) : (observeItems caps limit depth items t).2
      = .ofOffence (items.findSome? fun v => v.firstOffence limit depth) := by
  induction items generalizing t with
  | nil => rfl
  | cons v r ih =>
    obtain ⟨hv, hr⟩ := List.forall_mem_cons.mp h
    have hending := hv (t.getD fresh)
    rw [List.findSome?_cons]
    cases hoffence : v.firstOffence limit depth with
    | some refusal =>
      rw [hoffence] at hending
      rw [observeItems_of_refused (congrArg Ending.refusal hending), hending]
    | none =>
      rw [hoffence] at hending
      rw [observeItems_of_done hending]
      exact ih hr _

theorem observeMembers_ending {members : List (String × Value)} (h : ∀ m ∈ members, ∀ t,
      (observe caps limit depth m.2 t).ending = .ofOffence (m.2.firstOffence limit depth))
    (l : List (String × Tree)) : (observeMembers caps limit depth members l).2
      = .ofOffence ((members.map Prod.snd).findSome? fun v => v.firstOffence limit depth) := by
  induction members generalizing l with
  | nil => rfl
  | cons m r ih =>
    obtain ⟨key, v⟩ := m
    obtain ⟨hv, hr⟩ := List.forall_mem_cons.mp h
    have hending := hv (presentAt key l)
    rw [List.map_cons, List.findSome?_cons]
    cases hoffence : v.firstOffence limit depth with
    | some refusal =>
      rw [hoffence] at hending
      rw [observeMembers_of_refused (congrArg Ending.refusal hending), hending]
    | none =>
      rw [hoffence] at hending
      rw [observeMembers_of_done hending]
      exact ih hr _

/-- how an observation ends depends on nothing but the value, its depth and the limit: whether and
why it is cut short, and what is logged on the way -/
theorem observe_ending (v : Value) (t : Tree) :
    (observe caps limit depth v t).ending = .ofOffence (v.firstOffence limit depth) := by
  induction v using children_induction generalizing depth t with
  | h v ih =>
    by_cases hroom : limit < depth
    · rw [observe_of_lt hroom, firstOffence_of_lt hroom]
      rfl
    · cases v using Value.scalar_cases with
      | scalar v hs =>
        rw [observe_scalar hroom hs, firstOffence_scalar hroom hs]
        rfl
      | arr items =>
        rw [observe_arr hroom, firstOffence_of_le hroom fun _ => Value.noConfusion]
        exact observeItems_ending (fun w hw t => ih w hw t) t.items
      | tuple items =>
        rw [observe_tuple hroom, firstOffence_of_le hroom fun _ => Value.noConfusion]
        exact observeItems_ending (fun w hw t => ih w hw t) t.items
      | obj members =>
        rw [observe_obj hroom, firstOffence_of_le hroom fun _ => Value.noConfusion]
        exact observeMembers_ending (fun m hm t => ih m.2 (List.mem_map_of_mem hm) t) t.properties
      | foreign name =>
        rw [observe_foreign hroom, firstOffence_foreign hroom]
        rfl

theorem observe_refusal (v : Value) (t : Tree) :
    (observe caps limit depth v t).refusal = v.firstOffence limit depth := by
  rw [Observed.refusal, observe_ending]
  cases v.firstOffence limit depth <;> rfl

theorem observe_log (v : Value) (t : Tree) : (observe caps limit depth v t).log
    = (v.firstOffence limit depth).elim [] Refusal.entries := by
  rw [Observed.log, observe_ending]
  cases v.firstOffence limit depth <;> rfl

/-! ### other limits -/

variable {limit' : Int}

theorem observeItems_eq_of_limits (items : List Value)
    (h : ∀ v ∈ items, ∀ t, observe caps limit depth v t = observe caps limit' depth v t)
    (t : Option Tree) :
    observeItems caps limit depth items t = observeItems caps limit' depth items t := by
  induction items generalizing t with
  | nil => rfl
  | cons v r ih =>
    obtain ⟨hv, hr⟩ := List.forall_mem_cons.mp h
    simp only [observeItems, hv, ih hr]

theorem observeMembers_eq_of_limits {members : List (String × Value)}
    (h : ∀ m ∈ members, ∀ t, observe caps limit depth m.2 t = observe caps limit' depth m.2 t)
    (l : List (String × Tree)) :
    observeMembers caps limit depth members l = observeMembers caps limit' depth members l := by
  induction members generalizing l with
  | nil => rfl
  | cons m r ih =>
    obtain ⟨key, v⟩ := m
    obtain ⟨hv, hr⟩ := List.forall_mem_cons.mp h
    simp only [observeMembers, hv, ih hr]

/-- limits under which nothing offends make no difference -/
theorem observe_eq_of_limits {v : Value} (h : v.firstOffence limit depth = none)
    (h' : v.firstOffence limit' depth = none) (t : Tree) :
    observe caps limit depth v t = observe caps limit' depth v t := by
  induction v using children_induction generalizing depth t with
  | h v ih =>
    obtain ⟨hroom, hbelow⟩ := children_of_firstOffence_eq_none h
    obtain ⟨hroom', hbelow'⟩ := children_of_firstOffence_eq_none h'
    have hchild : ∀ w ∈ v.children, ∀ t,
        observe caps limit (depth + 1) w t = observe caps limit' (depth + 1) w t :=
      fun w hw => ih w hw (hbelow w hw) (hbelow' w hw)
    cases v using Value.scalar_cases with
    | scalar v hs => rw [observe_scalar hroom hs, observe_scalar hroom' hs]
    | arr items =>
      rw [observe_arr hroom, observe_arr hroom', observeItems_eq_of_limits items hchild]
    | tuple items =>
      rw [observe_tuple hroom, observe_tuple hroom', observeItems_eq_of_limits items hchild]
    | obj members =>
      have hmembers : ∀ m ∈ members, ∀ t,
          observe caps limit (depth + 1) m.2 t = observe caps limit' (depth + 1) m.2 t :=
        fun m hm => hchild m.2 (List.mem_map_of_mem hm)
      rw [observe_obj hroom, observe_obj hroom', observeMembers_eq_of_limits hmembers]
    | foreign name => rw [observe_foreign hroom, observe_foreign hroom']

end Tree

/-! ### samples -/

section
variable {caps : Caps} {limit : Int}

theorem observeSample_of_accepted {v : Value} (h : v.firstOffence limit 0 = none) :
    observeSample caps limit v = .ok (Tree.observe caps limit 0 v Tree.fresh).tree := by
  refine Observed.result_of_done ?_
  rw [Tree.observe_ending, h]
  rfl

theorem observeSample_of_refused {v : Value} {r : Refusal}
    (h : v.firstOffence limit 0 = some r) : observeSample caps limit v = ⟨r.entries, .error r⟩ := by
  rw [observeSample, Observed.result_of_refused ((Tree.observe_refusal v _).trans h),
    Tree.observe_log, h]
  rfl

/-- what is merged before a sample that is refused does not matter, nor what comes after it -/
theorem foldFrom_of_refused {before after : List Value} {v : Value} {r : Refusal}
    (hb : ∀ w ∈ before, w.firstOffence limit 0 = none) (hv : v.firstOffence limit 0 = some r)
    (m : Option Tree) :
    foldFrom caps limit m (before ++ v :: after) = ⟨r.entries, .error r⟩ := by
  induction before generalizing m with
  | nil => rw [List.nil_append, foldFrom_cons, observeSample_of_refused hv,
      Logged.bind_of_eq_error rfl]
  | cons w ws ih =>
    obtain ⟨hw, hws⟩ := List.forall_mem_cons.mp hb
    rw [List.cons_append, foldFrom_cons, observeSample_of_accepted hw]
    exact ih hws _

/-- samples that are accepted leave a tree, the same under any limit that they are accepted under -/
theorem foldFrom_of_accepted (caps : Caps) {limit' : Int} {samples : List Value}
    (hs : ∀ v ∈ samples, v.firstOffence limit 0 = none)
    (hs' : ∀ v ∈ samples, v.firstOffence limit' 0 = none) (m : Option Tree) :
    ∃ merged, foldFrom caps limit m samples = .ok merged
      ∧ foldFrom caps limit' m samples = .ok merged := by
  induction samples generalizing m with
  | nil => exact ⟨m, rfl, rfl⟩
  | cons v r ih =>
    obtain ⟨hv, hr⟩ := List.forall_mem_cons.mp hs
    obtain ⟨hv', hr'⟩ := List.forall_mem_cons.mp hs'
    rw [foldFrom_cons, foldFrom_cons, observeSample_of_accepted hv, observeSample_of_accepted hv',
      Tree.observe_eq_of_limits hv hv']
    exact ih hr hr' _

end

/-! ### the depth asked for -/

namespace Value
variable {v : Value}

/-- the depth is no trouble for what is nested less -/
theorem firstOffence_eq_of_within {n : Nat} (hv : v.NestedWithin n) {limit limit' : Int}
    (h : n ≤ limit) (h' : n ≤ limit') : v.firstOffence limit 0 = v.firstOffence limit' 0 := by
  refine findSome?_congr fun p hp => ?_
  have hn := hv p hp
  rw [offence?, offence?, if_neg (by omega), if_neg (by omega)]

/-- a machine that can follow the value accepts it if it is accepted down to the depth asked for -/
theorem firstOffence_min (m : Machine) (asked : Nat) (hv : v.NestedWithin assuredDepth) :
    v.firstOffence (min asked m.reach : Nat) 0 = v.firstOffence asked 0 := by
  have hreach := m.reach_assured
  by_cases h : asked ≤ m.reach
  · rw [Nat.min_eq_left h]
  · exact firstOffence_eq_of_within hv (by omega) (by omega)

end Value

/-! ### reports -/

namespace Logged
variable {α β : Type}

/-- what was logged goes with the refusal, if there is one, and nothing else was -/
def Warned (x : Logged α) : Prop :=
  x.log = match x.result with
    | .error refusal => refusal.entries
    | .ok _ => []

theorem Warned.bind {x : Logged α} (hx : x.Warned) {f : α → Logged β} (hf : ∀ a, (f a).Warned) :
    (x.bind f).Warned := by
  obtain ⟨log, result⟩ := x
  cases result with
  | error refusal => exact hx
  | ok a =>
    have hnil : log = [] := hx
    rw [hnil]
    exact hf a

/-- where the machine stops nothing is logged, and none of its refusals calls for it -/
theorem warned_overflowing (asked : Int) (x : Logged α) : (x.overflowing asked).Warned := by
  obtain ⟨log, result⟩ := x
  rcases result with (_ | _ | _) | _ <;> rfl

end Logged

theorem observeSample_warned (caps : Caps) (limit : Int) (v : Value) :
    (observeSample caps limit v).Warned := by
  cases h : v.firstOffence limit 0 with
  | none => rw [observeSample_of_accepted h, Logged.Warned]
  | some refusal => rw [observeSample_of_refused h, Logged.Warned]

theorem foldFrom_warned (caps : Caps) (limit : Int) (samples : List Value) (m : Option Tree) :
    (foldFrom caps limit m samples).Warned := by
  induction samples generalizing m with
  | nil => rfl
  | cons v r ih => exact (observeSample_warned caps limit v).bind fun t => ih _

/-- whether a value was refused for its nesting -/
def Refusal.isNesting : Refusal → Bool
  | tooDeep _ _ => true
  | beyondReach _ => true
  | notJson _ => false

namespace Inference
variable {m : Machine} {o : Options} {samples : List Value}

/-- how many warnings were reported -/
def warnings (r : Inference) : Nat := r.log.countP fun entry => entry.level = .warning

/-- a warning is reported exactly if nesting was the trouble -/
def Reported (r : Inference) : Prop :=
  r.warnings = match r.result with
    | .error refusal => if refusal.isNesting then 1 else 0
    | .ok _ => 0

/-- the warning that was logged where a part lies too deep is not repeated, and none is missing
where the machine stopped -/
theorem reported_bind {folded : Logged (Option Tree)} (h : folded.Warned) (count : Nat) :
    (warned (folded.bind (ofTree m o count))).Reported := by
  obtain ⟨log, result⟩ := folded
  cases result with
  | error refusal =>
    have hlog : log = refusal.entries := h
    rw [Logged.bind_of_eq_error rfl, hlog]
    cases refusal <;> rfl
  | ok merged =>
    have hlog : log = [] := h
    have hwrite : ∀ (message : String) (d : Document),
        (warned ⟨[⟨.debug, message⟩], m.write o.maxDepth d⟩).Reported := by
      intro message d
      rw [Machine.write]
      split
      · rfl
      · rfl
    rw [Logged.bind_of_eq_ok rfl, hlog]
    cases merged with
    | none => exact hwrite _ _
    | some t => exact hwrite _ _

theorem reported_infer (m : Machine) (o : Options) (samples : List Value) :
    (infer m o samples).Reported := by
  have hfolded : (m.fold o.caps o.maxDepth samples).Warned := by
    rw [Machine.fold]
    split
    · exact foldFrom_warned o.caps o.maxDepth samples none
    · exact Logged.warned_overflowing _ _
  exact reported_bind hfolded samples.length

/-! ### inferences -/

/-- the first sample that is refused decides -/
theorem infer_of_refused {before after : List Value} {v : Value} {r : Refusal}
    (hb : ∀ w ∈ before, w.NestedWithin assuredDepth ∧ w.firstOffence o.maxDepth 0 = none)
    (hv : v.NestedWithin assuredDepth) (hr : v.firstOffence o.maxDepth 0 = some r) :
    infer m o (before ++ v :: after) = ⟨r.entries, .error r⟩ := by
  obtain ⟨_, p, _, hparts, _, hp⟩ := firstOffence_eq_some.mp hr
  have hreach : p.1 ≤ m.reach := Nat.le_trans (hv p (by simp [hparts])) m.reach_assured
  have hfolded : m.fold o.caps o.maxDepth (before ++ v :: after) = ⟨r.entries, .error r⟩ := by
    by_cases h : o.maxDepth ≤ m.reach
    · rw [Machine.fold_of_le h]
      exact foldFrom_of_refused (fun w hw => (hb w hw).2) hr none
    · have hmin : min o.maxDepth m.reach = m.reach := by omega
      have hb' : ∀ w ∈ before, w.firstOffence m.reach 0 = none := by
        intro w hw
        rw [← hmin, firstOffence_min m o.maxDepth (hb w hw).1, (hb w hw).2]
      have hr' : v.firstOffence m.reach 0 = some r := by
        rw [← hmin, firstOffence_min m o.maxDepth hv, hr]
      rw [Machine.fold, if_neg h, fold, foldFrom_of_refused hb' hr']
      -- no part lies as deep as the machine goes, so it was the kind of one
      rcases hp with ⟨hdeep, _⟩ | ⟨_, name, _, rfl⟩
      · omega
      · rfl
  rw [infer, hfolded, Logged.bind_of_eq_error rfl]
  rcases hp with ⟨_, rfl⟩ | ⟨_, name, _, rfl⟩
  · rfl
  · rfl

end Inference

/-! ### other depths -/

/-- the options with another depth asked for -/
def Options.withMaxDepth (o : Options) (d : Nat) (hd : 0 < d) : Options :=
  { o with maxDepth := d, maxDepth_pos := hd }

namespace Schema

/-- whether options write the same keywords everywhere -/
def SameKeywords (o o' : Options) : Prop := ∀ instances e properties,
  keywords o instances e properties = keywords o' instances e properties

variable {o o' : Options}

mutual

theorem ofTree_congr (h : SameKeywords o o') (instances : Int) (t : Tree) :
    ofTree o instances t = ofTree o' instances t := by
  cases t with
  | mk here properties items =>
    rw [ofTree, ofTree, h, ofProperties_congr h properties, ofItems_congr h here.itemCount items]

theorem ofProperties_congr (h : SameKeywords o o') (properties : List (String × Tree)) :
    ofProperties o properties = ofProperties o' properties := by
  cases properties with
  | nil => rfl
  | cons p r =>
    rw [ofProperties, ofProperties, ofTree_congr h p.2.here.presence p.2, ofProperties_congr h r]

theorem ofItems_congr (h : SameKeywords o o') (count : Int) (items : Option Tree) :
    ofItems o count items = ofItems o' count items := by
  cases items with
  | none => rfl
  | some t => rw [ofItems, ofItems, ofTree_congr h count t]

end

theorem ofTree_withMaxDepth (o : Options) (d : Nat) (hd : 0 < d) (instances : Int) :
    ofTree (o.withMaxDepth d hd) instances = ofTree o instances := by
  have hsame : SameKeywords (o.withMaxDepth d hd) o := fun _ _ _ => rfl
  exact funext (ofTree_congr hsame instances)

end Schema

namespace Inference
variable {m : Machine} {o : Options} {samples : List Value}

/-- samples that are accepted have a schema, the same whatever depth is asked for -/
theorem infer_of_accepted (hs : ∀ v ∈ samples, v.NestedWithin assuredDepth) {d : Nat} (hd : 0 < d)
    (h : ∀ v ∈ samples, v.firstOffence o.maxDepth 0 = none ∧ v.firstOffence d 0 = none) :
    (infer m o samples).Returns m o fun schema =>
      (infer m (o.withMaxDepth d hd) samples).answer = .ok schema := by
  have hasked : ∀ v ∈ samples, v.firstOffence (min o.maxDepth m.reach : Nat) 0 = none :=
    fun v hv => (firstOffence_min m o.maxDepth (hs v hv)).trans (h v hv).1
  have hother : ∀ v ∈ samples, v.firstOffence (min d m.reach : Nat) 0 = none :=
    fun v hv => (firstOffence_min m d (hs v hv)).trans (h v hv).2
  obtain ⟨t, ht, ht'⟩ := foldFrom_of_accepted o.caps hasked hother none
  have ha' := answer_of_fold (o := o.withMaxDepth d hd) (Machine.fold_of_ok ht')
  rw [Schema.ofTree_withMaxDepth] at ha'
  exact returns_of_answer (answer_of_fold (Machine.fold_of_ok ht)) (sortDepth_of_fold hs ht)
    fun hroom => ha'.trans (Machine.answer_of_le hroom)

end Inference

/-- a value is refused for the first of its parts that offends, whatever tree it is observed in, and
a warning is logged if that lies too deep; samples are refused for the first of them that is, with
that warning only, and if none is, any depth asked for gives the same schema -/
theorem refusals_exact :
    (∀ (limit depth : Int) (v : Value),
      (∀ caps t, (Tree.observe caps limit depth v t).refusal = v.firstOffence limit depth
          ∧ (Tree.observe caps limit depth v t).log
            = (v.firstOffence limit depth).elim [] Refusal.entries)
        ∧ (v.firstOffence limit depth = none ↔ ∀ p ∈ v.parts, ¬ Offends limit depth p)
        ∧ (∀ r, v.firstOffence limit depth = some r ↔ ∃ before p after,
            v.parts = before ++ p :: after ∧ (∀ q ∈ before, ¬ Offends limit depth q)
              ∧ RefusedFor limit depth p r)
        ∧ (depth ≤ limit → ∀ d m, v.firstOffence limit depth = some (.tooDeep d m) →
            d = limit + 1 ∧ m = limit))
      ∧ ∀ (m : Machine) (o : Options) (samples : List Value),
        (∀ v ∈ samples, v.NestedWithin assuredDepth) →
        (infer m o samples).Reported
          ∧ (∀ before v after r, samples = before ++ v :: after →
              (∀ w ∈ before, w.firstOffence o.maxDepth 0 = none) →
              v.firstOffence o.maxDepth 0 = some r →
                infer m o samples = ⟨r.entries, .error r⟩
                  ∧ ∀ others, infer m o (before ++ v :: others) = infer m o samples)
          ∧ ∀ (d : Nat) (hd : 0 < d),
              (∀ v ∈ samples, v.firstOffence o.maxDepth 0 = none ∧ v.firstOffence d 0 = none) →
                (infer m o samples).Returns m o fun schema =>
                  (infer m (o.withMaxDepth d hd) samples).answer = .ok schema := by
  refine ⟨fun limit depth v => ⟨fun _ t => ⟨Tree.observe_refusal v t, Tree.observe_log v t⟩,
    firstOffence_eq_none, fun r => firstOffence_eq_some,
    fun hstart d m => depth_of_tooDeep (by omega)⟩, ?_⟩
  intro m o samples hs
  refine ⟨Inference.reported_infer m o samples, ?_, fun d hd => Inference.infer_of_accepted hs hd⟩
  rintro before v after r rfl hb hr
  obtain ⟨hbefore, hv, _⟩ := List.forall_mem_append.mp hs |>.imp_right List.forall_mem_cons.mp
  have hrefused : ∀ others, infer m o (before ++ v :: others) = ⟨r.entries, .error r⟩ :=
    fun _ => Inference.infer_of_refused (fun w hw => ⟨hbefore w hw, hb w hw⟩) hv hr
  exact ⟨hrefused after, fun others => (hrefused others).trans (hrefused after).symm⟩

/-- an object with something foreign in a list of a list, and again beside it -/
def mixed : Value := .obj [("a", .arr [.null, .arr [.foreign "set"]]), ("b", .foreign "complex")]

theorem refusals_exact_mixed :
    (∀ caps t, (Tree.observe caps 2 0 mixed t).refusal = some (.tooDeep 3 2)
        ∧ (Tree.observe caps 2 0 mixed t).log
          = [⟨.warning, "Maximum nesting depth 2 exceeded"⟩]
        ∧ (Tree.observe caps 3 0 mixed t).refusal = some (.notJson "set"))
      ∧ infer .least .default [.null, mixed, .foreign "set"] = ⟨[], .error (.notJson "set")⟩
      ∧ ∃ schema, (infer .least .default [.arr [.null]]).answer = .ok schema
        ∧ (infer .least (Options.default.withMaxDepth 1 Nat.one_pos) [.arr [.null]]).answer
          = .ok schema := by
  obtain ⟨hvalues, hsamples⟩ := refusals_exact
  have hnested : ∀ v ∈ [.null, mixed, .foreign "set"], v.NestedWithin assuredDepth := by decide
  have hrefused := (hsamples .least .default [.null, mixed, .foreign "set"] hnested).2.1 [.null]
    mixed [.foreign "set"] (.notJson "set") rfl (by decide) (by decide)
  have haccepted :=
    (hsamples .least .default [.arr [.null]] (by decide)).2.2 1 Nat.one_pos (by decide)
  exact ⟨fun caps t => ⟨((hvalues 2 0 mixed).1 caps t).1,
      ((hvalues 2 0 mixed).1 caps t).2, ((hvalues 3 0 mixed).1 caps t).1⟩, hrefused.1,
    haccepted.exists_of_le (by decide)⟩

end JsonShape
