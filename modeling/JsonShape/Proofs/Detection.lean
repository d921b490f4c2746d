import Mathlib.Data.List.Nodup
import JsonShape.Proofs.Grouped

/-!
# Which format is detected

The format of a string is that of the first pattern of the table that matches it as a whole.  A
string may match two of the six patterns in one case only: an address of mail may be one of the web,
too.  Any other two patterns are told apart by a character that the one needs and the other does not
use, so that their order does not matter.

* `Format.firstOf_eq_some`    detection tries the patterns one after the other;
* `Format.matches_both`       which two patterns a string may match;
* `Format.firstOf_ordered`    what is detected as long as mail comes before the web;
* `Format.detect_email_uri`   the two languages that meet;
* `Format.detect_grouped`     the four languages of groups of digits.
-/

namespace JsonShape.Format

open Pattern (table)

variable {cs : List Char} {f g : Format} {p q : Pattern}

/-! ### the first pattern that matches -/

/-- whether a recogniser has the name of a pattern and accepts what it matches -/
def Recognises (r : Format × (List Char → Bool)) (e : Format × Pattern) : Prop :=
  r.1 = e.1 ∧ ∀ cs, r.2 cs = true ↔ e.2.Matches cs

theorem recognisers_match : List.Forall₂ Recognises recognisers table :=
  .cons ⟨rfl, fun _ => Pattern.isDateTime_iff.trans Pattern.matches_dateTime.symm⟩ <|
  .cons ⟨rfl, fun _ => Pattern.isEmail_iff.trans Pattern.matches_email.symm⟩ <|
  .cons ⟨rfl, fun _ => Pattern.isUuid_iff.trans Pattern.matches_uuid.symm⟩ <|
  .cons ⟨rfl, fun _ => Pattern.isUri_iff.trans Pattern.matches_uri.symm⟩ <|
  .cons ⟨rfl, fun _ => Pattern.isIpv4_iff.trans Pattern.matches_ipv4.symm⟩ <|
  .cons ⟨rfl, fun _ => Pattern.isIpv6_iff.trans Pattern.matches_ipv6.symm⟩ .nil

theorem firstOf_cons (r : Format × (List Char → Bool)) (rs : List (Format × (List Char → Bool)))
    (cs : List Char) :
    firstOf (r :: rs) cs = if r.2 cs = true then some r.1 else firstOf rs cs := by
  rw [firstOf, List.find?_cons]
  cases r.2 cs <;> rfl

/-- a format is found exactly if its pattern matches and none before it does -/
theorem firstOf_eq_some {rs : List (Format × (List Char → Bool))} {es : List (Format × Pattern)}
    (h : List.Forall₂ Recognises rs es) : firstOf rs cs = some f
      ↔ ∃ before p after, es = before ++ (f, p) :: after ∧ p.Matches cs
        ∧ ∀ e ∈ before, ¬ e.2.Matches cs := by
  induction h with
  | nil => simp [firstOf]
  | @cons r e rs es hr _ ih =>
    obtain ⟨hname, hmatch⟩ := hr
    rw [firstOf_cons]
    by_cases he : e.2.Matches cs
    · rw [if_pos ((hmatch cs).mpr he), hname]
      constructor
      · intro hf
        cases hf
        exact ⟨[], e.2, es, rfl, he, by simp⟩
      · rintro ⟨before, p, after, heq, hp, hbefore⟩
        cases before with
        | nil =>
          cases heq
          rfl
        | cons e' before =>
          cases heq
          exact absurd he (hbefore e List.mem_cons_self)
    · rw [if_neg (mt (hmatch cs).mp he), ih]
      constructor
      · rintro ⟨before, p, after, rfl, hp, hbefore⟩
        exact ⟨e :: before, p, after, rfl, hp, List.forall_mem_cons.mpr ⟨he, hbefore⟩⟩
      · rintro ⟨before, p, after, heq, hp, hbefore⟩
        cases before with
        | nil =>
          cases heq
          exact absurd hp he
        | cons e' before =>
          cases heq
          exact ⟨before, p, after, rfl, hp, (List.forall_mem_cons.mp hbefore).2⟩

/-! ### patterns told apart -/

/-- whether one pattern needs the character and the other does not use it -/
def tells (p q : Pattern) (c : Char) : Bool :=
  p.needs c && !q.uses c || q.needs c && !p.uses c

/-- the characters by which the patterns of the table are told apart -/
def marks : List Char := ['T', '@', '-', '/', '.']

theorem not_matches_of_tells {c : Char} (h : tells p q c = true) (hp : p.Matches cs) :
    ¬ q.Matches cs := by
  rw [tells, Bool.or_eq_true, Bool.and_eq_true, Bool.and_eq_true, Bool.not_eq_true',
    Bool.not_eq_true'] at h
  rcases h with ⟨hneeds, huses⟩ | ⟨hneeds, huses⟩
  · exact hp.excludes c hneeds huses
  · exact fun hq => hq.excludes c hneeds huses hp

theorem table_marked : ∀ a ∈ table, ∀ b ∈ table, a.1 = b.1 ∨ (a.1 = email ∧ b.1 = uri)
    ∨ (a.1 = uri ∧ b.1 = email) ∨ marks.any (tells a.2 b.2) = true := by
  decide

/-- a string may match two patterns only if they are those of mail and of the web -/
theorem matches_both (hp : (f, p) ∈ table) (hq : (g, q) ∈ table) (hfg : f ≠ g)
    (hpm : p.Matches cs) (hqm : q.Matches cs) : (f = email ∧ g = uri) ∨ (f = uri ∧ g = email) := by
  rcases table_marked _ hp _ hq with h | h | h | h
  · exact absurd h hfg
  · exact .inl h
  · exact .inr h
  · obtain ⟨c, _, hc⟩ := List.any_eq_true.mp h
    exact absurd hqm (not_matches_of_tells hc hpm)

theorem table_names : (table.map Prod.fst).Nodup := by decide

theorem entry_unique (hp : (f, p) ∈ table) (hq : (f, q) ∈ table) : p = q :=
  congrArg Prod.snd (List.inj_on_of_nodup_map table_names hp hq rfl)

theorem email_mem : (email, Pattern.email) ∈ table := by simp [table]

theorem uri_mem : (uri, Pattern.uri) ∈ table := by simp [table]

/-- whether the pattern of the web does not come before that of mail -/
def Ordered (es : List (Format × Pattern)) : Prop :=
  es.Pairwise fun a b => ¬ (a.1 = uri ∧ b.1 = email)

/-- of two patterns that match a string, only mail and the web have to stand in order -/
theorem firstOf_ordered {rs : List (Format × (List Char → Bool))} {es : List (Format × Pattern)}
    (h : List.Forall₂ Recognises rs es) (hes : es.Perm table) (hord : Ordered es)
    (hp : (f, p) ∈ table) : firstOf rs cs = some f
      ↔ p.Matches cs ∧ (f = uri → ¬ Pattern.email.Matches cs) := by
  rw [firstOf_eq_some h]
  constructor
  · rintro ⟨before, q, after, rfl, hq, hbefore⟩
    have hmem : (f, q) ∈ table := hes.mem_iff.mp (List.mem_append_right before List.mem_cons_self)
    rw [entry_unique hp hmem]
    refine ⟨hq, ?_⟩
    rintro rfl
    -- mail stands before the web, hence among the patterns that do not match
    rw [Ordered, List.pairwise_append, List.pairwise_cons] at hord
    have hplace := hes.mem_iff.mpr email_mem
    rw [List.mem_append, List.mem_cons] at hplace
    rcases hplace with hmail | hmail | hmail
    · exact hbefore _ hmail
    · exact absurd (congrArg Prod.fst hmail) (show email ≠ uri by decide)
    · exact absurd ⟨rfl, rfl⟩ (hord.2.1.1 _ hmail)
  · rintro ⟨hpm, hemail⟩
    obtain ⟨before, after, rfl⟩ := List.append_of_mem (hes.mem_iff.mpr hp)
    refine ⟨before, p, after, rfl, hpm, ?_⟩
    rintro ⟨g, q⟩ he hqm
    have hmem : (g, q) ∈ table := hes.mem_iff.mp (List.mem_append_left _ he)
    have hnames := (hes.map Prod.fst).nodup_iff.mpr table_names
    rw [List.map_append, List.nodup_append] at hnames
    have hgf : g ≠ f := hnames.2.2 g (List.mem_map_of_mem he) f List.mem_cons_self
    rcases matches_both hmem hp hgf hqm hpm with ⟨rfl, hweb⟩ | hboth
    · exact hemail hweb (entry_unique hmem email_mem ▸ hqm)
    · rw [Ordered, List.pairwise_append] at hord
      exact hord.2.2 _ he _ List.mem_cons_self hboth

/-- what is detected, without an order -/
theorem detect_eq_some {s : String} (hp : (f, p) ∈ table) : detect s = some f
    ↔ p.Matches s.toList ∧ (f = uri → ¬ Pattern.email.Matches s.toList) := by
  have hord : Ordered table := by
    unfold Ordered
    decide
  exact firstOf_ordered recognisers_match (.refl table) hord hp

/-- of a format other than that of the web is what its pattern matches -/
theorem detect_eq_some_of_ne {s : String} (hp : (f, p) ∈ table) (hf : f ≠ uri) :
    detect s = some f ↔ p.Matches s.toList := by
  rw [detect_eq_some hp, and_iff_left fun h => absurd h hf]

/-! ### the languages -/

/-- the texts of mail and of the web are what the two patterns match, and a text that is both is
detected as mail -/
theorem detect_email_uri (s : String) :
    (Pattern.email.Matches s.toList ↔ EmailText s.toList)
      ∧ (Pattern.uri.Matches s.toList ↔ UriText s.toList)
      ∧ (detect s = some email ↔ EmailText s.toList)
      ∧ (detect s = some uri ↔ ¬ EmailText s.toList ∧ UriText s.toList) := by
  have huri : detect s = some uri ↔ Pattern.uri.Matches s.toList
      ∧ (uri = uri → ¬ Pattern.email.Matches s.toList) := detect_eq_some (by simp [table])
  refine ⟨Pattern.matches_email, Pattern.matches_uri, ?_, ?_⟩
  · rw [detect_eq_some_of_ne email_mem (by decide), Pattern.matches_email]
  · rw [huri, Pattern.matches_uri, Pattern.matches_email, and_comm]
    simp only [forall_const]

/-- the texts of groups are what the four patterns match, and none of them is detected as of another
format -/
theorem detect_grouped (s : String) :
    ((Pattern.ipv4.Matches s.toList ↔ Ipv4Text s.toList)
        ∧ (detect s = some ipv4 ↔ Ipv4Text s.toList))
      ∧ ((Pattern.ipv6.Matches s.toList ↔ Ipv6Text s.toList)
        ∧ (detect s = some ipv6 ↔ Ipv6Text s.toList))
      ∧ ((Pattern.uuid.Matches s.toList ↔ UuidText s.toList)
        ∧ (detect s = some uuid ↔ UuidText s.toList))
      ∧ ((Pattern.dateTime.Matches s.toList ↔ DateTimeText s.toList)
        ∧ (detect s = some dateTime ↔ DateTimeText s.toList)) := by
  have hdetect : ∀ {f p}, (f, p) ∈ table → f ≠ uri → ∀ {Text : List Char → Prop},
      (p.Matches s.toList ↔ Text s.toList) →
      (p.Matches s.toList ↔ Text s.toList) ∧ (detect s = some f ↔ Text s.toList) :=
    fun hp hf _ hmatch => ⟨hmatch, (detect_eq_some_of_ne hp hf).trans hmatch⟩
  exact ⟨hdetect (by simp [table]) (by decide) Pattern.matches_ipv4,
    hdetect (by simp [table]) (by decide) Pattern.matches_ipv6,
    hdetect (by simp [table]) (by decide) Pattern.matches_uuid,
    hdetect (by simp [table]) (by decide) Pattern.matches_dateTime⟩

example : detect "https://user@example.com" = some email := by decide

end JsonShape.Format
