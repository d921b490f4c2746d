import JsonShape.Options.Read

/-!
# Options from pairs

What pairs of names and values make of the options, said without reading them one after the other.
For every option there is one value that prevails: that of the last pair with one of its spellings,
or the default.  The values that prevail are judged, and no others, so that a bad value does no harm
before a good one.

* `Field.ofName?_eq_some`     a name stands for the option that it spells;
* `Options.ofChoice_judged`   values for all options are kept, or the first bad one is the fault;
* `Options.prevails_iff`      the value that prevails, among pairs of known names;
* `Options.ofPairs_exact`     the options of pairs, and the fault where there are none.
-/

namespace JsonShape

/-! ### names and values of single options -/

namespace Field

/-- whether a name is one of the spellings of an option -/
def Spelled (f : Field) (name : String) : Prop := name = f.name ∨ f.alias? = some name

instance (f : Field) : DecidablePred f.Spelled :=
  fun name => inferInstanceAs (Decidable (name = f.name ∨ f.alias? = some name))

/-- whether a name is a spelling of an option -/
def Known (name : String) : Prop := ∃ f : Field, f.Spelled name

instance : DecidablePred Known := fun name =>
  decidable_of_iff (∃ f ∈ all, f.Spelled name)
    ⟨fun ⟨f, _, h⟩ => ⟨f, h⟩, fun ⟨f, h⟩ => ⟨f, mem_all f, h⟩⟩

theorem ofName?_eq_some {name : String} {f : Field} : ofName? name = some f ↔ f.Spelled name := by
  constructor
  · intro h
    have hf := List.find?_some h
    rw [Bool.or_eq_true, beq_iff_eq, beq_iff_eq] at hf
    exact hf.imp_left Eq.symm
  · rintro (rfl | h)
    · exact ofName?_name f
    · exact ofName?_alias h

theorem ofName?_eq_none {name : String} : ofName? name = none ↔ ¬ Known name := by
  simp only [Known, ← ofName?_eq_some, Option.eq_none_iff_forall_ne_some, not_exists]

theorem Spelled.unique {name : String} {f g : Field} (hf : f.Spelled name) (hg : g.Spelled name) :
    f = g :=
  Option.some.inj ((ofName?_eq_some.mpr hf).symm.trans (ofName?_eq_some.mpr hg))

/-- whether a value is one of the words -/
def IsWord (words : List String) (v : Value) : Prop := ∃ s ∈ words, v = .str s

/-- whether a value is an integer, not less than `least`; truth values and doubles are none -/
def IsCount (least : Int) (v : Value) : Prop := ∃ n : Int, least ≤ n ∧ v = .int n

/-- what an option may be -/
def Admits : Field → Value → Prop
  | draft => IsWord ["2020-12", "2019-09", "07"]
  | requiredPolicy => IsWord ["loose", "observed", "strict"]
  | enumThreshold => IsCount 0
  | maxUniqueValues => IsCount 0
  | maxExamples => IsCount 0
  | maxDepth => IsCount 1
  | _ => fun _ => True

/-- the options that are checked, in the order in which they are -/
def checked : List Field :=
  [draft, requiredPolicy, enumThreshold, maxUniqueValues, maxExamples, maxDepth]

/-- the fault of an option with a bad value -/
def fault : Field → Value → OptionFault
  | draft => .badDraft
  | requiredPolicy => .badPolicy
  | maxDepth => .notPositive
  | f => .notNatural f

theorem admits_default (f : Field) : f.Admits f.default := by
  cases f <;> simp [Admits, default, IsWord, IsCount, Value.int]

theorem mem_checked_of_not_admits {f : Field} {v : Value} (h : ¬ f.Admits v) : f ∈ checked := by
  cases f <;> first | decide | exact absurd trivial h

/-- the message of a fault names the option, in one of its spellings, and shows the value -/
theorem message_fault {f : Field} (hf : f ∈ checked) (v : Value) :
    ∃ opening word middle closing, f.Spelled word
      ∧ (f.fault v).message = opening ++ word ++ middle ++ v.shown ++ closing := by
  have hnatural : ∀ g : Field, ∃ opening word middle closing, g.Spelled word
      ∧ (OptionFault.notNatural g v).message = opening ++ word ++ middle ++ v.shown ++ closing := by
    refine fun g => ⟨"", g.name, " must be a non-negative integer, got ", "", .inl rfl, ?_⟩
    rw [String.empty_append, String.append_empty]
    rfl
  cases f with
  | draft =>
    refine ⟨"Invalid ", "draft", " ",
      ". Valid options: " ++ OptionFault.choices (Draft.all.map Draft.label), .inl rfl, ?_⟩
    rw [← String.append_assoc]
    rfl
  | requiredPolicy =>
    refine ⟨"Invalid ", "requiredPolicy", " ",
      ". Valid options: " ++ OptionFault.choices (Policy.all.map Policy.label), .inr rfl, ?_⟩
    rw [← String.append_assoc]
    rfl
  | maxDepth =>
    refine ⟨"", "max_depth", " must be a positive integer, got ", "", .inl rfl, ?_⟩
    rw [String.empty_append, String.append_empty]
    rfl
  | enumThreshold => exact hnatural .enumThreshold
  | maxUniqueValues => exact hnatural .maxUniqueValues
  | maxExamples => exact hnatural .maxExamples
  | _ => exact absurd hf (by decide)

theorem isWord_map {α : Type} {l : List α} {label : α → String} {v : Value} :
    IsWord (l.map label) v ↔ ∃ a ∈ l, v = .str (label a) := by
  constructor
  · rintro ⟨s, hs, rfl⟩
    obtain ⟨a, ha, rfl⟩ := List.mem_map.mp hs
    exact ⟨a, ha, rfl⟩
  · rintro ⟨a, ha, rfl⟩
    exact ⟨label a, List.mem_map_of_mem ha, rfl⟩

theorem admits_draft {v : Value} : draft.Admits v ↔ ∃ d : Draft, v = .str d.label := by
  show IsWord (Draft.all.map Draft.label) v ↔ _
  refine isWord_map.trans ⟨?_, ?_⟩
  · rintro ⟨d, _, h⟩
    exact ⟨d, h⟩
  · rintro ⟨d, h⟩
    exact ⟨d, by cases d <;> decide, h⟩

theorem admits_requiredPolicy {v : Value} :
    requiredPolicy.Admits v ↔ ∃ p : Policy, v = .str p.label := by
  show IsWord (Policy.all.map Policy.label) v ↔ _
  refine isWord_map.trans ⟨?_, ?_⟩
  · rintro ⟨p, _, h⟩
    exact ⟨p, h⟩
  · rintro ⟨p, h⟩
    exact ⟨p, by cases p <;> decide, h⟩

theorem isCount_iff {least : Nat} {v : Value} :
    IsCount least v ↔ ∃ n : Nat, least ≤ n ∧ v = .int n := by
  constructor
  · rintro ⟨n, hn, rfl⟩
    exact ⟨n.toNat, by omega, congrArg Value.int (by omega)⟩
  · rintro ⟨n, hn, rfl⟩
    exact ⟨n, Int.ofNat_le.mpr hn, rfl⟩

end Field

/-! ### values for all options -/

namespace Options

/-- whether the values that an option admits are read, and all others are its fault -/
structure Reads (f : Field) {α : Type} (read : Value → Except OptionFault α) : Prop where
  taken : ∀ {v : Value}, f.Admits v → ∃ a, read v = .ok a
  refused : ∀ {v : Value}, ¬ f.Admits v → read v = .error (f.fault v)

theorem reads_draft : Reads .draft readDraft where
  taken {v} h := by
    obtain ⟨d, rfl⟩ := Field.admits_draft.mp h
    exact ⟨d, by cases d <;> rfl⟩
  refused {v} h := by
    cases v with
    | str s =>
      cases hd : Draft.ofLabel? s with
      | none => simp only [readDraft, hd]; rfl
      | some d =>
        have hs := List.find?_some hd
        exact absurd (Field.admits_draft.mpr ⟨d, by rw [beq_iff_eq.mp hs]⟩) h
    | _ => rfl

theorem reads_requiredPolicy : Reads .requiredPolicy readPolicy where
  taken {v} h := by
    obtain ⟨p, rfl⟩ := Field.admits_requiredPolicy.mp h
    exact ⟨p, by cases p <;> rfl⟩
  refused {v} h := by
    cases v with
    | str s =>
      cases hp : Policy.ofLabel? s with
      | none => simp only [readPolicy, hp]; rfl
      | some p =>
        have hs := List.find?_some hp
        exact absurd (Field.admits_requiredPolicy.mpr ⟨p, by rw [beq_iff_eq.mp hs]⟩) h
    | _ => rfl

theorem natural?_eq_some {v : Value} {n : Nat} : natural? v = some n ↔ v = .int n := by
  constructor
  · intro h
    cases v with
    | num x =>
      cases x with
      | int k =>
        cases k with
        | ofNat m =>
          cases h
          rfl
        | negSucc m => cases h
      | _ => cases h
    | _ => cases h
  · rintro rfl
    rfl

theorem reads_natural {f : Field} (hf : f.Admits = Field.IsCount 0)
    (hfault : f.fault = .notNatural f) : Reads f (readNatural f) where
  taken {v} h := by
    rw [hf] at h
    obtain ⟨n, _, rfl⟩ := Field.isCount_iff.mp h
    exact ⟨n, rfl⟩
  refused {v} h := by
    rw [hf] at h
    cases hn : natural? v with
    | none => simp only [readNatural, hn, hfault]
    | some n =>
      exact absurd (Field.isCount_iff.mpr ⟨n, Nat.zero_le n, natural?_eq_some.mp hn⟩) h

theorem reads_maxDepth : Reads .maxDepth readPositive where
  taken {v} h := by
    obtain ⟨n, hn, rfl⟩ := Field.isCount_iff.mp h
    exact ⟨⟨n, hn⟩, dif_pos hn⟩
  refused {v} h := by
    cases hn : natural? v with
    | none => simp only [readPositive, hn]; rfl
    | some n =>
      have hpos : ¬ 0 < n :=
        fun hpos => h (Field.isCount_iff.mpr ⟨n, hpos, natural?_eq_some.mp hn⟩)
      simp only [readPositive, hn, hpos, dite_false]
      rfl

theorem admits_get (o : Options) (f : Field) : f.Admits (o.get f) := by
  cases f with
  | draft => exact Field.admits_draft.mpr ⟨o.draft, rfl⟩
  | requiredPolicy => exact Field.admits_requiredPolicy.mpr ⟨o.requiredPolicy, rfl⟩
  | enumThreshold => exact Field.isCount_iff.mpr ⟨o.enumThreshold, Nat.zero_le _, rfl⟩
  | maxUniqueValues => exact Field.isCount_iff.mpr ⟨o.maxUniqueValues, Nat.zero_le _, rfl⟩
  | maxExamples => exact Field.isCount_iff.mpr ⟨o.maxExamples, Nat.zero_le _, rfl⟩
  | maxDepth => exact Field.isCount_iff.mpr ⟨o.maxDepth, o.maxDepth_pos, rfl⟩
  | _ => exact trivial

theorem exists_get_eq {choice : Field → Value} (h : ∀ f : Field, f.Admits (choice f)) :
    ∃ o : Options, o.get = choice := by
  obtain ⟨d, hd⟩ := Field.admits_draft.mp (h .draft)
  obtain ⟨p, hp⟩ := Field.admits_requiredPolicy.mp (h .requiredPolicy)
  obtain ⟨n, _, hn⟩ := Field.isCount_iff.mp (h .enumThreshold)
  obtain ⟨u, _, hu⟩ := Field.isCount_iff.mp (h .maxUniqueValues)
  obtain ⟨e, _, he⟩ := Field.isCount_iff.mp (h .maxExamples)
  obtain ⟨m, hm, hmax⟩ := Field.isCount_iff.mp (h .maxDepth)
  refine ⟨⟨d, choice .title, choice .id, choice .additionalProperties, n, choice .detectFormats,
    choice .minmax, choice .examples, p, u, e, m, hm⟩, funext fun f => ?_⟩
  cases f with
  | draft => exact hd.symm
  | requiredPolicy => exact hp.symm
  | enumThreshold => exact hn.symm
  | maxUniqueValues => exact hu.symm
  | maxExamples => exact he.symm
  | maxDepth => exact hmax.symm
  | _ => rfl

section
variable {α β : Type} {choice : Field → Value} {fields : List Field}

/-- whether the outcome is the fault of the first of the fields that has a bad value, if one has -/
def FirstFault (fields : List Field) (choice : Field → Value) (outcome : Except OptionFault α) :
    Prop :=
  ∀ before f after, fields = before ++ f :: after → (∀ g ∈ before, g.Admits (choice g)) →
    ¬ f.Admits (choice f) → outcome = .error (f.fault (choice f))

theorem FirstFault.nil (outcome : Except OptionFault α) : FirstFault [] choice outcome := by
  intro before f after h
  exact absurd h (by simp)

/-- reading one more value before the others -/
theorem Reads.firstFault_bind {f : Field} {read : Value → Except OptionFault α} (hf : Reads f read)
    {next : α → Except OptionFault β} (h : ∀ a, FirstFault fields choice (next a)) :
    FirstFault (f :: fields) choice (read (choice f) >>= next) := by
  intro before g after hsplit hbefore hbad
  cases before with
  | nil =>
    obtain ⟨rfl, -⟩ := List.cons.inj hsplit
    rw [hf.refused hbad]
    rfl
  | cons x r =>
    obtain ⟨rfl, hrest⟩ := List.cons.inj hsplit
    obtain ⟨a, ha⟩ := hf.taken (hbefore f List.mem_cons_self)
    rw [ha]
    exact h a r g after hrest (fun x hx => hbefore x (List.mem_cons_of_mem _ hx)) hbad

theorem firstFault_ofChoice (choice : Field → Value) :
    FirstFault Field.checked choice (ofChoice choice) :=
  reads_draft.firstFault_bind fun _ =>
  reads_requiredPolicy.firstFault_bind fun _ =>
  (reads_natural rfl rfl).firstFault_bind fun _ =>
  (reads_natural rfl rfl).firstFault_bind fun _ =>
  (reads_natural rfl rfl).firstFault_bind fun _ =>
  reads_maxDepth.firstFault_bind fun _ => .nil _

end

/-- what comes of values for all options: options that have them, or the fault of the first that is
bad, in the order in which they are checked -/
structure Judged (choice : Field → Value) (outcome : Except OptionFault Options) : Prop where
  accepted_iff : (∃ o, outcome = .ok o) ↔ ∀ f : Field, f.Admits (choice f)
  kept : ∀ o, outcome = .ok o → ∀ f, o.get f = choice f
  refused : FirstFault Field.checked choice outcome

theorem exists_first_bad {choice : Field → Value} {fields : List Field}
    (h : ∃ f ∈ fields, ¬ f.Admits (choice f)) :
    ∃ before f after, fields = before ++ f :: after ∧ (∀ g ∈ before, g.Admits (choice g))
      ∧ ¬ f.Admits (choice f) := by
  induction fields with
  | nil =>
    obtain ⟨f, hf, _⟩ := h
    cases hf
  | cons g r ih =>
    by_cases hg : g.Admits (choice g)
    · have hr : ∃ f ∈ r, ¬ f.Admits (choice f) := by
        obtain ⟨f, hf, hbad⟩ := h
        rcases List.mem_cons.mp hf with rfl | hf
        · exact absurd hg hbad
        · exact ⟨f, hf, hbad⟩
      obtain ⟨before, f, after, rfl, hbefore, hbad⟩ := ih hr
      exact ⟨g :: before, f, after, rfl, List.forall_mem_cons.mpr ⟨hg, hbefore⟩, hbad⟩
    · exact ⟨[], g, r, rfl, by simp, hg⟩

theorem admits_of_ofChoice {choice : Field → Value} {o : Options} (h : ofChoice choice = .ok o) :
    ∀ f : Field, f.Admits (choice f) := by
  refine fun f => Classical.byContradiction fun hf => ?_
  obtain ⟨before, g, after, hsplit, hbefore, hbad⟩ :=
    exists_first_bad ⟨f, Field.mem_checked_of_not_admits hf, hf⟩
  rw [firstFault_ofChoice choice before g after hsplit hbefore hbad] at h
  cases h

theorem ofChoice_judged (choice : Field → Value) : Judged choice (ofChoice choice) := by
  have hget : (∀ f : Field, f.Admits (choice f)) →
      ∃ o, ofChoice choice = .ok o ∧ o.get = choice := by
    intro hall
    obtain ⟨o, rfl⟩ := exists_get_eq hall
    exact ⟨o, ofChoice_get o, rfl⟩
  refine ⟨⟨?_, fun hall => ?_⟩, fun o ho f => ?_, firstFault_ofChoice choice⟩
  · rintro ⟨o, ho⟩
    exact admits_of_ofChoice ho
  · obtain ⟨o, ho, _⟩ := hget hall
    exact ⟨o, ho⟩
  · obtain ⟨o', ho', hsame⟩ := hget (admits_of_ofChoice ho)
    rw [ho] at ho'
    rw [Except.ok.inj ho', hsame]

/-! ### pairs -/

/-- the value that prevails for an option: that of its last pair, however it is spelled, or the
default -/
inductive Prevails (pairs : List (String × Value)) (f : Field) : Value → Prop where
  | last {before after : List (String × Value)} {name : String} {v : Value}
      (split : pairs = before ++ (name, v) :: after) (here : f.Spelled name)
      (gone : ∀ p ∈ after, ¬ f.Spelled p.1) : Prevails pairs f v
  | absent (unsaid : ∀ p ∈ pairs, ¬ f.Spelled p.1) : Prevails pairs f f.default

/-- looking an option up from the end is looking for one of its spellings -/
theorem lookup_resolve {pairs : List (String × Value)} {given : List (Field × Value)}
    (h : resolve pairs = .ok given) (f : Field) :
    given.reverse.lookup f = (pairs.reverse.find? fun p => f.Spelled p.1).map Prod.snd := by
  induction pairs generalizing given with
  | nil =>
    cases h
    rfl
  | cons p r ih =>
    obtain ⟨name, v⟩ := p
    rw [resolve] at h
    cases hname : Field.ofName? name with
    | none =>
      rw [hname] at h
      cases h
    | some g =>
      rw [hname] at h
      cases hr : resolve r with
      | error fault =>
        rw [hr] at h
        cases h
      | ok rest =>
        rw [hr] at h
        cases h
        have hg := Field.ofName?_eq_some.mp hname
        have hfg : f.Spelled name ↔ f = g := ⟨fun hf => hf.unique hg, fun hf => hf ▸ hg⟩
        rw [List.reverse_cons, List.reverse_cons, List.lookup_append, List.find?_append, ih hr]
        cases (r.reverse.find? fun p => f.Spelled p.1) with
        | some q => rfl
        | none =>
          by_cases h : f = g
          · subst h
            simp [hg]
          · simp [hfg, h, List.lookup_cons, beq_eq_false_iff_ne.mpr h]

theorem prevails_iff {pairs : List (String × Value)} {given : List (Field × Value)}
    (h : resolve pairs = .ok given) {f : Field} {v : Value} :
    Prevails pairs f v ↔ v = effective given f := by
  rw [effective, lookup_resolve h]
  constructor
  · intro hv
    cases hv with
    | @last before after name v split here gone =>
      have hafter : after.reverse.find? (fun p => f.Spelled p.1) = none := by
        simpa using fun k w => gone (k, w)
      rw [split, List.reverse_append, List.reverse_cons, List.append_assoc, List.find?_append,
        hafter]
      simp [here]
    | absent unsaid =>
      have hnone : pairs.reverse.find? (fun p => f.Spelled p.1) = none := by
        simpa using fun k w => unsaid (k, w)
      rw [hnone]
      rfl
  · rintro rfl
    cases hfind : pairs.reverse.find? (fun p => f.Spelled p.1) with
    | none => exact .absent (by simpa using hfind)
    | some p =>
      obtain ⟨hp, after, before, hsplit, hafter⟩ := List.find?_eq_some_iff_append.mp hfind
      have hpairs : pairs = before.reverse ++ (p.1, p.2) :: after.reverse := by
        rw [← List.reverse_reverse pairs, hsplit]
        simp
      exact .last hpairs (by simpa using hp) (by simpa using hafter)

/-- the first name that is not known is refused, whatever comes after it -/
theorem ofPairs_of_unknown {pairs before after : List (String × Value)} {name : String} {v : Value}
    (split : pairs = before ++ (name, v) :: after) (known : ∀ p ∈ before, Field.Known p.1)
    (h : ¬ Field.Known name) : ofPairs pairs = .error (.unknown name) := by
  have hresolve : resolve pairs = .error (.unknown name) := by
    rw [split]
    clear split
    induction before with
    | nil => rw [List.nil_append, resolve, Field.ofName?_eq_none.mpr h]
    | cons p r ih =>
      obtain ⟨⟨g, hg⟩, hr⟩ := List.forall_mem_cons.mp known
      rw [List.cons_append, resolve, Field.ofName?_eq_some.mpr hg]
      simp only [ih hr]
      rfl
  rw [ofPairs, hresolve]
  rfl

theorem exists_resolve {pairs : List (String × Value)} (h : ∀ p ∈ pairs, Field.Known p.1) :
    ∃ given, resolve pairs = .ok given := by
  induction pairs with
  | nil => exact ⟨[], rfl⟩
  | cons p r ih =>
    obtain ⟨⟨g, hg⟩, hr⟩ := List.forall_mem_cons.mp h
    obtain ⟨given, hgiven⟩ := ih hr
    refine ⟨(g, p.2) :: given, ?_⟩
    rw [resolve, Field.ofName?_eq_some.mpr hg]
    simp only [hgiven]
    rfl

/-- pairs of known names stand for the values that prevail -/
theorem ofPairs_of_known {pairs : List (String × Value)} (h : ∀ p ∈ pairs, Field.Known p.1) :
    ∃ choice, (∀ f v, Prevails pairs f v ↔ v = choice f) ∧ ofPairs pairs = ofChoice choice := by
  obtain ⟨given, hgiven⟩ := exists_resolve h
  refine ⟨effective given, fun f v => prevails_iff hgiven, ?_⟩
  rw [ofPairs, hgiven]
  rfl

/-- a first unknown name is refused before any value is looked at; otherwise the values that
prevail are judged; and all choices of some options, read again, are these options -/
theorem ofPairs_exact :
    (∀ pairs : List (String × Value),
        (∀ before name v after, pairs = before ++ (name, v) :: after →
          (∀ p ∈ before, Field.Known p.1) → ¬ Field.Known name →
            ofPairs pairs = .error (.unknown name))
        ∧ ((∀ p ∈ pairs, Field.Known p.1) →
          ∃ choice, (∀ f v, Prevails pairs f v ↔ v = choice f) ∧ Judged choice (ofPairs pairs)))
      ∧ ∀ o : Options, ofPairs o.toPairs = .ok o := by
  refine ⟨fun pairs => ⟨fun before name v after split known h => ?_, fun known => ?_⟩,
    ofPairs_toPairs⟩
  · exact ofPairs_of_unknown split known h
  · obtain ⟨choice, hchoice, hpairs⟩ := ofPairs_of_known known
    refine ⟨choice, hchoice, ?_⟩
    rw [hpairs]
    exact ofChoice_judged choice

/-- spellings that collide, and values that are bad, some of them before a good one -/
def muddled : List (String × Value) :=
  [("max_depth", .bool true), ("required_policy", .str "loose"), ("draft", .str "07"),
    ("maxDepth", .int 4), ("requiredPolicy", .arr []), ("maxExamples", .int (-1))]

theorem ofPairs_exact_muddled :
    ofPairs muddled = .error (.badPolicy (.arr []))
      ∧ ofPairs (muddled ++ [("depth", .null), ("draft", .null), ("width", .null)])
        = .error (.unknown "depth")
      ∧ ∃ o, ofPairs (muddled.take 4) = .ok o ∧ o.get .maxDepth = .int 4
        ∧ ofPairs o.toPairs = .ok o := by
  obtain ⟨hpairs, hback⟩ := ofPairs_exact
  have hknown : ∀ p ∈ muddled, Field.Known p.1 := by decide +kernel
  refine ⟨?_, ?_, ?_⟩
  · obtain ⟨choice, hchoice, hjudged⟩ := (hpairs muddled).2 hknown
    have hdraft : Prevails muddled .draft (.str "07") :=
      .last (show muddled = muddled.take 2 ++ _ :: muddled.drop 3 from rfl) (by decide +kernel)
        (by decide +kernel)
    have hpolicy : Prevails muddled .requiredPolicy (.arr []) :=
      .last (show muddled = muddled.take 4 ++ _ :: muddled.drop 5 from rfl) (by decide +kernel)
        (by decide +kernel)
    rw [(hchoice _ _).mp hpolicy]
    refine hjudged.refused [.draft] .requiredPolicy _ rfl ?_ ?_
    · rw [List.forall_mem_singleton, ← (hchoice _ _).mp hdraft]
      exact ⟨"07", by decide, rfl⟩
    · rw [← (hchoice _ _).mp hpolicy]
      rintro ⟨s, _, h⟩
      cases h
  · exact (hpairs _).1 muddled "depth" .null _ rfl hknown (by decide +kernel)
  · obtain ⟨choice, hchoice, hjudged⟩ := (hpairs (muddled.take 4)).2
      fun p hp => hknown p (List.mem_of_mem_take hp)
    have hdepth : Prevails (muddled.take 4) .maxDepth (.int 4) :=
      .last (show muddled.take 4 = muddled.take 3 ++ _ :: [] from rfl) (by decide +kernel)
        (by decide +kernel)
    obtain ⟨o, ho⟩ : ∃ o, ofPairs (muddled.take 4) = .ok o := ⟨_, rfl⟩
    exact ⟨o, ho, ((hjudged.kept o ho .maxDepth).trans ((hchoice _ _).mp hdepth).symm), hback o⟩

end Options
end JsonShape
