import JsonShape.Proofs.Depth
import JsonShape.Proofs.Description

/-!
# The answer of an inference

Samples that are followed to their end are answered with a document, whose schema describes them.
The one thing that may still go wrong has nothing to do with them: a value among the options that is
nested so deep that the machine cannot sort the keys of the document.

* `Inference.answer_of_fold`   the answer for a tree, or for none;
* `Inference.answer_rendered`  the answer for samples, by a schema that is rendered for them;
* `Inference.answer_infer`     without nans, by a schema that describes them;
* `Inference.returns_of`       a property of all schemas that describe the samples is returned.
-/

namespace JsonShape

/-- what the options put before a schema -/
def Options.heading (o : Options) : List (String × Value) := (Document.ofOptions o none).heading

theorem Options.heading_names (o : Options) :
    (o.heading.map Prod.fst).Sublist Schema.headings := Document.heading_names _

theorem Document.toValue_ofOptions {o : Options} {s : Schema} :
    (ofOptions o (some s)).toValue = s.writtenAfter o.heading := toValue_eq rfl

/-! ### machines -/

namespace Machine
variable {m : Machine} {o : Options}

/-- the answer that the machine gives with this value, if it is not too deep for it -/
def answer (m : Machine) (o : Options) (v : Value) : Except Refusal Value :=
  if v.sortDepth ≤ m.room then .ok v else .error (.beyondReach o.maxDepth)

theorem answer_of_le {v : Value} (h : v.sortDepth ≤ m.room) : m.answer o v = .ok v := if_pos h

theorem answer_eq_ok {v w : Value} :
    m.answer o v = .ok w ↔ v.sortDepth ≤ m.room ∧ v = w := by
  rw [answer]
  split
  · rename_i h
    simp [h]
  · rename_i h
    simp [h]

/-- whether all documents of samples that can be followed anywhere, under these options, are within
what the machine can do -/
def Suits (m : Machine) (o : Options) : Prop :=
  2 * Value.assuredDepth + 2 + o.givenDepth ≤ m.room

/-- what the options bring along does no harm unless it is nested deeper than samples may be -/
theorem suits_of_le (h : o.givenDepth ≤ Value.assuredDepth) (m : Machine) : m.Suits o :=
  Nat.le_trans (Nat.add_le_add_left h _) m.room_assured

/-- what is accepted down to the depth that is asked for, or as far as the machine goes, gives the
same tree on the machine -/
theorem fold_of_ok {caps : Caps} {asked : Nat} {samples : List Value} {t : Option Tree}
    (h : JsonShape.fold caps (min asked m.reach : Nat) samples = .ok t) :
    m.fold caps asked samples = .ok t := by
  by_cases hreach : asked ≤ m.reach
  · rw [fold_of_le hreach, ← h, Nat.min_eq_left hreach]
  · have hmin : min asked m.reach = m.reach := by omega
    rw [fold, if_neg hreach, ← hmin, h]
    rfl

end Machine

namespace Inference
variable {m : Machine} {o : Options} {samples : List Value}

/-- the document as a value, or why there is none -/
def answer (r : Inference) : Except Refusal Value := r.result.map Document.toValue

/-- a warning does not change the outcome -/
theorem answer_warned (r : Inference) : r.warned.answer = r.answer := by
  obtain ⟨log, result⟩ := r
  rcases result with (_ | _ | _) | _ <;> rfl

/-- the answer for a tree, or for none -/
theorem answer_of_fold {t : Option Tree} (h : m.fold o.caps o.maxDepth samples = .ok t) :
    (infer m o samples).answer
      = m.answer o (Document.ofOptions o (t.map (Schema.ofTree o samples.length))).toValue := by
  have hwrite : ∀ d : Document,
      (m.write o.maxDepth d).map Document.toValue = m.answer o d.toValue := by
    intro d
    rw [Machine.write, Machine.answer, Document.toValue, Value.sortDepth_sortKeys]
    split
    · rfl
    · rfl
  rw [infer, answer_warned, h, Logged.ok_bind]
  cases t with
  | none => exact hwrite _
  | some t => exact hwrite _

/-- a schema of which this holds is returned, unless the options do not suit the machine -/
def Returns (m : Machine) (o : Options) (r : Inference) (P : Value → Prop) : Prop :=
  (∃ schema, r.answer = .ok schema ∧ P schema)
    ∨ r.answer = .error (.beyondReach o.maxDepth) ∧ ¬ m.Suits o

theorem Returns.exists_of_le {r : Inference} {P : Value → Prop} (h : r.Returns m o P)
    (hd : o.givenDepth ≤ Value.assuredDepth) : ∃ schema, r.answer = .ok schema ∧ P schema := by
  rcases h with h | ⟨_, hout⟩
  · exact h
  · exact absurd (Machine.suits_of_le hd m) hout

theorem Returns.of_answer {r : Inference} {P : Value → Prop} (h : r.Returns m o P) {schema : Value}
    (ha : r.answer = .ok schema) : P schema := by
  rcases h with ⟨s, hs, hp⟩ | ⟨hout, _⟩
  · rw [ha] at hs
    rw [Except.ok.inj hs]
    exact hp
  · rw [ha] at hout
    cases hout

/-- an answer of the machine with a value that is no deeper than documents of samples are -/
theorem returns_of_answer {r : Inference} {P : Value → Prop} {v : Value}
    (ha : r.answer = m.answer o v)
    (hd : v.sortDepth ≤ 2 * Value.assuredDepth + 2 + o.givenDepth)
    (h : v.sortDepth ≤ m.room → P v) : r.Returns m o P := by
  by_cases hroom : v.sortDepth ≤ m.room
  · exact Or.inl ⟨v, ha.trans (Machine.answer_of_le hroom), h hroom⟩
  · exact Or.inr ⟨ha.trans (if_neg hroom), fun hs => hroom (Nat.le_trans hd hs)⟩

/-- samples that any machine can follow are followed as deep as they are asked for -/
theorem assured_le (m : Machine) (o : Options) :
    ((min o.maxDepth Value.assuredDepth : Nat) : Int) ≤ (min o.maxDepth m.reach : Nat) := by
  have hreach := m.reach_assured
  omega

/-- how deep the document is that samples are answered with -/
theorem sortDepth_of_fold {caps : Caps} {limit : Int}
    (hs : ∀ v ∈ samples, v.NestedWithin Value.assuredDepth) {t : Option Tree}
    (h : fold caps limit samples = .ok t) :
    (Document.ofOptions o (t.map (Schema.ofTree o samples.length))).toValue.sortDepth
      ≤ 2 * Value.assuredDepth + 2 + o.givenDepth := by
  rw [Document.toValue, Value.sortDepth_sortKeys]
  exact Document.sortDepth_unsorted_le (Tree.Shallow.fold hs (congrArg Logged.result h)) _

/-- the answer for samples is a schema that is rendered for them, after the heading -/
theorem answer_rendered {A : Account} {P : Value → Prop} (hA : A.Kept o.caps P)
    (hne : samples ≠ []) (hs : ∀ v ∈ samples, P v) (hf : ∀ v ∈ samples, v.Followed o.maxDepth) :
    ∃ s : Schema, s.Rendered A o samples
      ∧ (s.writtenAfter o.heading).sortDepth ≤ 2 * Value.assuredDepth + 2 + o.givenDepth
      ∧ (infer m o samples).answer = m.answer o (s.writtenAfter o.heading) := by
  obtain ⟨t, hfold, ht, _⟩ :=
    Tree.reflects_fold hA hne hs fun v hv => (hf v hv).within (assured_le m o)
  refine ⟨Schema.ofTree o samples.length t, ⟨t, ht, rfl⟩, ?_⟩
  rw [← Document.toValue_ofOptions]
  exact ⟨sortDepth_of_fold (fun v hv => (hf v hv).reached) hfold,
    answer_of_fold (Machine.fold_of_ok hfold)⟩

theorem gathered_kept (o : Options) : (Account.gathered o.caps).Kept o.caps Value.Regular :=
  Account.gathered_kept (Int.natCast_nonneg _) (Int.natCast_nonneg _)

/-- the answer for samples without nans is a schema that describes them, after the heading -/
theorem answer_infer (hne : samples ≠ []) (hs : ∀ v ∈ samples, v.Sample o.maxDepth) :
    ∃ s : Schema, s.Describes o samples
      ∧ (s.writtenAfter o.heading).sortDepth ≤ 2 * Value.assuredDepth + 2 + o.givenDepth
      ∧ (infer m o samples).answer = m.answer o (s.writtenAfter o.heading) :=
  answer_rendered (gathered_kept o) hne (fun v hv => (hs v hv).regular)
    fun v hv => (hs v hv).followed

/-- what holds of every schema that is rendered for the samples holds of the one returned -/
theorem returns_rendered {A : Account} {P : Value → Prop} (hA : A.Kept o.caps P)
    (hne : samples ≠ []) (hs : ∀ v ∈ samples, P v) (hf : ∀ v ∈ samples, v.Followed o.maxDepth)
    {Q : Value → Prop} (h : ∀ s : Schema, s.Rendered A o samples → Q (s.writtenAfter o.heading)) :
    (infer m o samples).Returns m o Q := by
  obtain ⟨s, hrendered, hdepth, ha⟩ := answer_rendered hA hne hs hf
  exact returns_of_answer ha hdepth fun _ => h s hrendered

/-- a schema that is returned is one that is rendered for the samples -/
theorem rendered_of_answer {A : Account} {P : Value → Prop} (hA : A.Kept o.caps P)
    (hne : samples ≠ []) (hs : ∀ v ∈ samples, P v) (hf : ∀ v ∈ samples, v.Followed o.maxDepth)
    {schema : Value} (ha : (infer m o samples).answer = .ok schema) :
    ∃ s : Schema, s.Rendered A o samples ∧ schema = s.writtenAfter o.heading := by
  obtain ⟨s, hrendered, _, hanswer⟩ := answer_rendered hA hne hs hf
  rw [ha] at hanswer
  obtain ⟨_, hschema⟩ := Machine.answer_eq_ok.mp hanswer.symm
  exact ⟨s, hrendered, hschema.symm⟩

/-- what holds of every schema that describes the samples holds of the one returned -/
theorem returns_of (hne : samples ≠ []) (hs : ∀ v ∈ samples, v.Sample o.maxDepth)
    {P : Value → Prop} (h : ∀ s : Schema, s.Describes o samples → P (s.writtenAfter o.heading)) :
    (infer m o samples).Returns m o P :=
  returns_rendered (gathered_kept o) hne (fun v hv => (hs v hv).regular)
    (fun v hv => (hs v hv).followed) h

end Inference
end JsonShape
