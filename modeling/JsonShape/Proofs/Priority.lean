import JsonShape.Proofs.Detection

/-!
# The order of the formats

A string that only one recogniser accepts has the format of that one, wherever it stands.  So the
order of the recognisers matters to the strings alone that are both an address of mail and one of
the web, and to them only the order of these two: they have the format of the one that comes first.

* `Format.accepted_twice`       which two recognisers may accept a string;
* `Format.firstOf_perm`         where no two do, the order does not matter;
* `Format.firstOf_append_cons`  of several that do, the first is found;
* `Format.firstOf_reordered`    what another order of all six changes.
-/

namespace JsonShape.Format

open Pattern (table)

variable {cs : List Char} {rs rs' before between after : List (Format × (List Char → Bool))}
  {a b mail web : Format × (List Char → Bool)}

/-- each recogniser stands for a pattern of the table -/
theorem exists_pattern (ha : a ∈ recognisers) :
    ∃ e ∈ table, a.1 = e.1 ∧ ∀ cs, a.2 cs = true ↔ e.2.Matches cs := by
  obtain ⟨i, hi, rfl⟩ := List.mem_iff_getElem.mp ha
  have hlength := recognisers_match.length_eq
  exact ⟨table[i], List.getElem_mem (hlength ▸ hi), recognisers_match.get hi (hlength ▸ hi)⟩

theorem accepts_iff {f : Format} {p : Pattern} (ha : a ∈ recognisers) (hp : (f, p) ∈ table)
    (hf : a.1 = f) : a.2 cs = true ↔ p.Matches cs := by
  obtain ⟨⟨g, q⟩, hq, hg, haccepts⟩ := exists_pattern ha
  obtain rfl : g = f := hg.symm.trans hf
  rw [haccepts, entry_unique hq hp]

/-- two patterns that match a string are one, or those of mail and of the web -/
theorem matched_twice {d e : Format × Pattern} (hd : d ∈ table) (he : e ∈ table)
    (hdm : d.2.Matches cs) (hem : e.2.Matches cs) :
    d = e ∨ (d.1 = email ∧ e.1 = uri) ∨ (d.1 = uri ∧ e.1 = email) := by
  by_cases hde : d.1 = e.1
  · exact .inl (List.inj_on_of_nodup_map table_names hd he hde)
  · exact .inr (matches_both hd he hde hdm hem)

/-- two recognisers that accept a string are those of mail and of the web, or have one name -/
theorem accepted_twice (ha : a ∈ recognisers) (hb : b ∈ recognisers) (hac : a.2 cs = true)
    (hbc : b.2 cs = true) :
    a.1 = b.1 ∨ (a.1 = email ∧ b.1 = uri) ∨ (a.1 = uri ∧ b.1 = email) := by
  obtain ⟨p, hp, hap, hpm⟩ := exists_pattern ha
  obtain ⟨q, hq, hbq, hqm⟩ := exists_pattern hb
  rw [hap, hbq]
  exact (matched_twice hp hq ((hpm cs).mp hac) ((hqm cs).mp hbc)).imp_left (congrArg Prod.fst)

theorem firstOf_perm (hp : rs.Perm rs')
    (hone : ∀ a ∈ rs, ∀ b ∈ rs, a.2 cs = true → b.2 cs = true → a.1 = b.1) :
    firstOf rs cs = firstOf rs' cs := by
  induction hp with
  | nil => rfl
  | cons r _ ih =>
    rw [firstOf_cons, firstOf_cons, ih fun a ha b hb =>
      hone a (List.mem_cons_of_mem r ha) b (List.mem_cons_of_mem r hb)]
  | swap r r' l =>
    rw [firstOf_cons, firstOf_cons, firstOf_cons, firstOf_cons]
    by_cases hr : r.2 cs = true
    · by_cases hr' : r'.2 cs = true
      · simp only [if_pos hr, if_pos hr', hone r (by simp) r' (by simp) hr hr']
      · simp only [if_pos hr, if_neg hr']
    · simp only [if_neg hr]
  | trans h _ ih ih' =>
    exact (ih hone).trans
      (ih' fun a ha b hb => hone a (h.mem_iff.mpr ha) b (h.mem_iff.mpr hb))

theorem firstOf_append_cons (hbefore : ∀ r ∈ before, ¬ r.2 cs = true) (ha : a.2 cs = true) :
    firstOf (before ++ a :: after) cs = some a.1 := by
  induction before with
  | nil => rw [List.nil_append, firstOf_cons, if_pos ha]
  | cons r before ih =>
    obtain ⟨hr, hrest⟩ := List.forall_mem_cons.mp hbefore
    rw [List.cons_append, firstOf_cons, if_neg hr, ih hrest]

theorem recogniser_names : (recognisers.map Prod.fst).Nodup := by decide

theorem perm_swapped : (before ++ web :: (between ++ mail :: after)).Perm
    (before ++ mail :: (between ++ web :: after)) :=
  List.Perm.append_left before <| (List.perm_middle.cons web).trans <|
    (List.Perm.swap mail web _).trans (List.perm_middle.symm.cons mail)

/-- what mail accepts, no other recogniser accepts but that of the web -/
theorem not_accepted_before (hmail : mail.1 = email) (hweb : web.1 = uri)
    (hp : (before ++ mail :: (between ++ web :: after)).Perm recognisers)
    (hm : mail.2 cs = true) : ∀ r ∈ before, ¬ r.2 cs = true := by
  intro r hr hrc
  have hnames := (hp.map Prod.fst).nodup_iff.mpr recogniser_names
  rw [List.map_append, List.nodup_append] at hnames
  have hother : ∀ a ∈ mail :: (between ++ web :: after), r.1 ≠ a.1 := fun a ha =>
    hnames.2.2 r.1 (List.mem_map_of_mem hr) a.1 (List.mem_map_of_mem ha)
  have hmem : mail ∈ recognisers := hp.mem_iff.mp (by simp)
  rcases accepted_twice (hp.mem_iff.mp (by simp [hr])) hmem hrc hm with h | h | h
  · exact hother mail List.mem_cons_self h
  · exact hother mail List.mem_cons_self (h.1.trans hmail.symm)
  · exact hother web (by simp) (h.1.trans hweb.symm)

/-- what one format alone matches is detected in any order of the recognisers -/
theorem firstOf_of_once (hp : rs.Perm recognisers)
    (honce : ¬ (Pattern.email.Matches cs ∧ Pattern.uri.Matches cs)) :
    firstOf rs cs = firstOf recognisers cs := by
  refine firstOf_perm hp fun a ha b hb hac hbc => ?_
  have ha' := hp.mem_iff.mp ha
  have hb' := hp.mem_iff.mp hb
  rcases accepted_twice ha' hb' hac hbc with h | ⟨hae, hbu⟩ | ⟨hau, hbe⟩
  · exact h
  · refine absurd ⟨?_, (accepts_iff hb' uri_mem hbu).mp hbc⟩ honce
    exact (accepts_iff ha' email_mem hae).mp hac
  · refine absurd ⟨(accepts_iff hb' email_mem hbe).mp hbc, ?_⟩ honce
    exact (accepts_iff ha' uri_mem hau).mp hac

/-- an address of mail that is one of the web, too -/
theorem email_uri_both : Pattern.email.Matches "https://user@example.com".toList
    ∧ Pattern.uri.Matches "https://user@example.com".toList := by
  rw [Pattern.matches_email, Pattern.matches_uri, ← Pattern.isEmail_iff, ← Pattern.isUri_iff]
  decide

/-- only mail and the web match the same strings; any order of the six with mail before the web
detects the same, and with these two exchanged it detects another format where both match -/
theorem firstOf_reordered :
    (∀ cs, ∀ d ∈ table, ∀ e ∈ table, d.2.Matches cs → e.2.Matches cs →
        d = e ∨ (d.1 = email ∧ e.1 = uri) ∨ (d.1 = uri ∧ e.1 = email))
      ∧ (∃ cs, Pattern.email.Matches cs ∧ Pattern.uri.Matches cs)
      ∧ ∀ before mail between web after, mail.1 = email → web.1 = uri →
        (before ++ mail :: (between ++ web :: after)).Perm recognisers → ∀ s : String,
          firstOf (before ++ mail :: (between ++ web :: after)) s.toList = detect s
            ∧ (firstOf (before ++ web :: (between ++ mail :: after)) s.toList ≠ detect s
              ↔ Pattern.email.Matches s.toList ∧ Pattern.uri.Matches s.toList) := by
  refine ⟨fun cs d hd e he => matched_twice hd he, ⟨_, email_uri_both⟩, ?_⟩
  intro before mail between web after hmail hweb hp s
  by_cases hboth : Pattern.email.Matches s.toList ∧ Pattern.uri.Matches s.toList
  · have hmailAccepts : mail.2 s.toList = true :=
      (accepts_iff (hp.mem_iff.mp (by simp)) email_mem hmail).mpr hboth.1
    have hwebAccepts : web.2 s.toList = true :=
      (accepts_iff (hp.mem_iff.mp (by simp)) uri_mem hweb).mpr hboth.2
    have hbefore := not_accepted_before hmail hweb hp hmailAccepts
    have hdetect : detect s = some email :=
      (detect_eq_some_of_ne email_mem (by decide)).mpr hboth.1
    rw [firstOf_append_cons hbefore hmailAccepts, firstOf_append_cons hbefore hwebAccepts,
      hdetect, hmail, hweb]
    exact ⟨rfl, fun _ => hboth, fun _ => by decide⟩
  · rw [firstOf_of_once hp hboth, firstOf_of_once (perm_swapped.trans hp) hboth]
    exact ⟨rfl, fun h => absurd rfl h, fun h => absurd h hboth⟩

/-- dates put last, and mail and the web exchanged -/
theorem firstOf_reordered_dates_last :
    firstOf [(email, isEmail), (uuid, isUuid), (uri, isUri), (ipv4, isIpv4), (ipv6, isIpv6),
        (dateTime, isDateTime)] "https://user@example.com".toList
          = detect "https://user@example.com"
      ∧ firstOf [(uri, isUri), (uuid, isUuid), (email, isEmail), (ipv4, isIpv4), (ipv6, isIpv6),
        (dateTime, isDateTime)] "https://user@example.com".toList
          ≠ detect "https://user@example.com" := by
  have hp : ([] ++ (email, isEmail) :: ([(uuid, isUuid)] ++ (uri, isUri) :: [(ipv4, isIpv4),
      (ipv6, isIpv6), (dateTime, isDateTime)])).Perm recognisers :=
    List.perm_append_singleton (dateTime, isDateTime) [(email, isEmail), (uuid, isUuid),
      (uri, isUri), (ipv4, isIpv4), (ipv6, isIpv6)]
  obtain ⟨hsame, hother⟩ := firstOf_reordered.2.2 _ _ _ _ _ rfl rfl hp "https://user@example.com"
  exact ⟨hsame, hother.mpr email_uri_both⟩

end JsonShape.Format
