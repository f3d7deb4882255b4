import Resilient.Proofs.Json.Accounts

/-!
# Readers that are asked again

A document that takes no token is null: the token at hand is a delimiter or the end of the text. It
is reported then, but for a token that was reported before; so a reader that is asked again at the
end of its text may answer null without a report (`silent_behind_report`, `silent_at_end`).
-/

namespace Resilient

namespace Json

variable {t : Token} {c c' : Bool} {v : Value} {source : String} {o : Options} {n : Nat}
  {r r' : Reader} {made reports : List Diagnostic} {vs : List Value} {s : Scan} {left : List Scan}
  {tokens taken : List Token}

/-- A token that stays where a document begins ends the search for one at once. -/
theorem finish_valueAt (h : (valueAt t c []).move = .finish v c') :
    v = .null ∧ (t.kind = .comma ∨ t.kind.closes = true ∨ t.kind = .eof) ∧
      (valueAt t c []).reports = t.expected "a value" c := by
  unfold valueAt at h ⊢
  split at h <;> try cases h
  simp only [Turn.move_behind, seekValue] at h
  split_ifs at h with hstops
  · cases h
    refine ⟨rfl, ?_, by simp [seekValue, hstops, settle, Turn.finish]⟩
    simp only [stops, decide_true, Bool.true_and, Bool.or_eq_true, decide_eq_true_eq] at hstops
    tauto
  · cases h

theorem Reader.options_documents (n : Nat) (r : Reader) :
    (r.documents n).2.2.options = r.options := by
  induction n generalizing r with
  | zero => rfl
  | succ n ih =>
    refine (ih r.document.2.2).trans ?_
    unfold Reader.document
    split <;> rfl

theorem Reader.length_unread_lt {mode : Mode} {st : List Frame} (hfits : r.oversized = none)
    (hr : r.unread = s :: left) (hm : (valueAt s.token r.complained []).move = .consume mode st) :
    r.document.2.2.unread.length < r.unread.length := by
  have hm : (react r.options.limits .value [] r.complained s.token).move = .consume mode st := hm
  rw [document_of_fits hfits]
  simp only [Reader.value, hr]
  rw [Automaton.run_consume hm]
  exact Nat.lt_succ_of_le (Automaton.length_unread_run_le _ mode st false left)

/-- A document that takes no token is null, and it is reported unless the token was reported
before. -/
theorem Reader.Accounted.stuck (h : r.Accounted tokens taken made) (hr : r.unread = s :: left)
    (hstuck : r.document.2.2.unread.length = r.unread.length) :
    r.document.1 = .null ∧
      (s.token.kind = .comma ∨ s.token.kind.closes = true ∨ s.token.kind = .eof) ∧
      (r.document.2.1 = [] → (∃ d ∈ made, d.Misplaces s.token) ∧
        (s.token.kind = .eof ∨ r.options.whole = false)) := by
  cases hm : (valueAt s.token r.complained []).move with
  | consume mode st =>
    have hlt := length_unread_lt h.fits hr hm
    omega
  | finish v c =>
    obtain ⟨rfl, hkind, hreports⟩ := finish_valueAt hm
    have hm : (react r.options.limits .value [] r.complained s.token).move = .finish .null c := hm
    have hvalue : r.value = (.null, s.reports ++ s.token.expected "a value" r.complained,
        { r with unread := { s with reports := [] } :: left, complained := c }) := by
      rw [← hreports, Reader.value, hr, Automaton.run_finish hm]
      rfl
    rw [document_of_fits h.fits, hvalue]
    refine ⟨rfl, hkind, fun hsilent => ?_⟩
    obtain ⟨hsilent, htrailing⟩ := List.append_eq_nil_iff.1 hsilent
    have hexpected := (List.append_eq_nil_iff.1 hsilent).2
    have hcomplaints := h.account.complaints
    rw [hr] at hcomplaints
    constructor
    · cases hc : r.complained with
      | false => simp [hc, Token.expected] at hexpected
      | true =>
        simp only [hc] at hcomplaints
        exact hcomplaints.exists_misplaces
    · simp only [Reader.trailing, Reader.current, List.head?_cons, Option.map_some] at htrailing
      split_ifs at htrailing with hwhole
      simp only [Token.isEof, Bool.and_eq_true, Bool.not_eq_true'] at hwhole
      by_cases hk : s.token.kind = .eof
      · exact .inl hk
      · exact .inr (by simpa [hk] using hwhole)

/-- However often a reader was asked: if the next document takes no token, it is null, and the token
at hand is a delimiter or the end of the text. If it is not reported either, it was reported by an
earlier document, and it is the end of the text, or what follows a value may be anything. -/
theorem silent_behind_report (hbefore : (Reader.ofText source o).documents n = (vs, made, r))
    (hnext : r.document = (v, reports, r')) :
    ∃ t taken, r.current = some t ∧
      r.unread.map Scan.token = taken ++ r'.unread.map Scan.token ∧
      (taken = [] → v = .null ∧ (t.kind = .comma ∨ t.kind.closes = true ∨ t.kind = .eof)) ∧
      (taken = [] → reports = [] → (∃ d ∈ made, d.Misplaces t) ∧
        (t.kind = .eof ∨ o.whole = false)) := by
  cases hsize : o.limits.exceededSize source with
  | some max =>
    have hover : (Reader.ofText source o).oversized = some max := by rw [Reader.ofText, hsize]
    have hsame := (documents_of_oversized hover n).1
    rw [hbefore] at hsame
    subst hsame
    rw [Reader.document, hover] at hnext
    cases hnext
    refine ⟨.atEnd .start, [], ?_, rfl, fun _ => ⟨rfl, .inr (.inr rfl)⟩, fun _ h => ?_⟩
    · rw [Reader.ofText, hsize]
      rfl
    · cases h
  | none =>
    obtain ⟨taken, haccount⟩ := (accounted_ofText hsize).documents n
    have hoptions := Reader.options_documents n (Reader.ofText source o)
    rw [hbefore] at haccount hoptions
    have hoptions : r.options = o := by rw [hoptions, Reader.ofText, hsize]
    obtain ⟨more, hmore, -⟩ := haccount.document
    obtain ⟨s, left, hr⟩ : ∃ s left, r.unread = s :: left := by
      obtain ⟨e, he, -⟩ := haccount.ended
      exact List.exists_cons_of_ne_nil fun hnil => by simp [hnil] at he
    have hstuck : more = [] → r.document.2.2.unread.length = r.unread.length := fun hnil => by
      simpa [hnil] using (congrArg List.length hmore).symm
    have hcurrent : r.current = some s.token := by simp [Reader.current, hr]
    rw [hnext] at hmore
    refine ⟨s.token, more, hcurrent, hmore, fun h => ?_, fun h hsilent => ?_⟩
    · obtain ⟨hv, hk, -⟩ := haccount.stuck hr (hstuck h)
      rw [hnext] at hv
      exact ⟨hv, hk⟩
    · obtain ⟨-, -, hreported⟩ := haccount.stuck hr (hstuck h)
      rw [hnext, hoptions] at hreported
      exact hreported hsilent

/-- The comma is reported by the first document only. -/
theorem silent_behind_report_comma :
    ∃ vs made r v r' t, (Reader.ofText "," ⟨false, false, .unlimited⟩).documents 1 = (vs, made, r) ∧
      r.document = (v, [], r') ∧ r.current = some t ∧ ∃ d ∈ made, d.Misplaces t := by
  obtain ⟨vs, made, r, v, r', hbefore, hnext, hstuck⟩ : ∃ vs made r v r',
      (Reader.ofText "," ⟨false, false, .unlimited⟩).documents 1 = (vs, made, r) ∧
        r.document = (v, [], r') ∧ r'.unread.length = r.unread.length :=
    ⟨_, _, _, _, _, rfl, Prod.ext rfl (Prod.ext (by decide +kernel) rfl), by decide +kernel⟩
  obtain ⟨t, taken, hcurrent, htaken, -, hreported⟩ := silent_behind_report hbefore hnext
  have hnil : taken = [] := by simpa [hstuck] using congrArg List.length htaken
  exact ⟨vs, made, r, v, r', t, hbefore, hnext, hcurrent, (hreported hnil rfl).1⟩

/-- At the end of the text the second document takes no token and is not reported. -/
theorem silent_at_end :
    ¬ ∀ (source : String) (o : Options) (n : Nat), o.limits.exceededSize source = none →
      ((Reader.ofText source o).documents n).2.2.document.2.1 = [] →
      ((Reader.ofText source o).documents n).2.2.document.2.2.unread.length <
        ((Reader.ofText source o).documents n).2.2.unread.length := by
  intro h
  have hlt := h "" .standard 1 (by decide +kernel) (by decide +kernel)
  revert hlt
  decide +kernel

end Json

end Resilient
