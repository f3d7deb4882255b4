import Resilient.Proofs.Json.Scanning

/-!
# What JSON texts without reports are spelled like

`exists_spelled` cuts a text that is scanned without a report into the spellings of its tokens, and
`writes_sentence` puts the spellings of a sentence over scans together to one over characters.
-/

namespace Resilient

namespace Json

/-- The spellings of a token. -/
inductive TokenText : Token → List Char → Prop where
  | punctuation {t : Token} {c : Char} (h : (t.kind, c) ∈ Json.punctuation) : TokenText t [c]
  | scalar {t : Token} {v : Scalar} {text : List Char} (h : ScalarText v text)
      (hk : t.kind = v.kind) (hp : t.payload = some v) : TokenText t text

/-- The spellings of the tokens, one after the other, each with what separates it from the next. -/
inductive Spelled (comments : Bool) : List Char → List Scan → Prop where
  | nil : Spelled comments [] []
  | cons {t w text : List Char} {s : Scan} {ss : List Scan} (h : TokenText s.token t)
      (hw : GapText comments w) (hs : Spelled comments text ss) :
      Spelled comments (t ++ (w ++ text)) (s :: ss)

variable {comments : Bool} {source : String} {p : Position} {text rest : List Char}

theorem scalarText_of_keyword? {kind : Kind} {v : Scalar}
    (h : Lexeme.keyword? text = some (kind, v)) :
    ScalarText v text ∧ kind = v.kind := by
  unfold Lexeme.keyword? at h
  split at h <;> cases h
  · exact ⟨.true, rfl⟩
  · exact ⟨.false, rfl⟩
  · exact ⟨.null, rfl⟩

theorem punctuation_of_match? {op : Operator} (h : Operator.match? Operator.json text = some op) :
    ∃ c, op.spelling.toList = [c] ∧ (op.kind, c) ∈ punctuation := by
  have hop := Lexeme.mem_of_match? h
  simp only [Operator.json, List.mem_cons, List.not_mem_nil, or_false] at hop
  rcases hop with rfl | rfl | rfl | rfl | rfl | rfl <;> exact ⟨_, rfl, by decide⟩

/-- A lexeme that makes a token without a report is a spelling of that token. -/
theorem tokenText_of_read {l : Lexeme} {t : Token} {span : Span}
    (h : Lexeme.read (dialect comments) text = some (l, rest))
    (ht : l.token? (dialect comments) span = some t) (hr : l.reports (dialect comments) p = []) :
    TokenText t l.text := by
  have hs : Lexeme.readSolid (dialect comments) text = some (l, rest) := by
    unfold Lexeme.read at h
    split at h
    · rename_i r hg
      cases h
      have hg : Lexeme.ofGap (readGap (dialect comments).isBlank comments [] text) =
          some (l, rest) := hg
      unfold Lexeme.ofGap at hg
      split at hg <;> cases hg
      cases ht
    · exact h
  rcases Lexeme.readSolid_cases hs with ⟨n, rfl, hb, hn⟩ | ⟨lit, body, rfl, -, hl⟩ |
    ⟨c, body, rfl, -, -, -⟩ | ⟨op, rfl, hop, -⟩ | ⟨c, rfl, -, -⟩
  · cases ht
    have hnum := Numeral.numberText_of_begins hb
    rw [hn] at hnum
    exact .scalar (.number hnum) rfl rfl
  · cases ht
    have hstr := Literal.stringText_of_reports (p := p) body (by rw [hl]; exact hr)
    rw [hl] at hstr
    exact .scalar (.string hstr) rfl rfl
  · simp only [Lexeme.token?] at ht
    split at ht
    · rename_i kind v hk
      cases ht
      obtain ⟨hv, hkind⟩ := scalarText_of_keyword? hk
      exact .scalar hv hkind rfl
    · rename_i hk
      have hi : (dialect comments).identifiers = false := rfl
      simp [Lexeme.reports, hk, hi] at hr
  · cases ht
    obtain ⟨c, hc, hm⟩ := punctuation_of_match? hop
    rw [Lexeme.text, hc]
    exact .punctuation hm
  · cases ht

/-- A lexeme that is neither a token nor reported separates tokens, or it ends the text. -/
theorem gapText_of_skip {l : Lexeme} {span : Span}
    (h : Lexeme.read (dialect comments) text = some (l, rest))
    (ht : l.token? (dialect comments) span = none) (hr : l.reports (dialect comments) p = []) :
    ∃ w t, l.text = w ++ t ∧ GapText comments w ∧ LastComment comments t ∧
      (t ≠ [] → rest = []) := by
  cases l with
  | newline | number _ | literal _ | operator _ => cases ht
  | word w =>
    simp only [Lexeme.token?] at ht
    split at ht <;> cases ht
  | stray c => cases hr
  | gap run =>
    have hg : readGap isJsonBlank comments [] text = (run, rest) := by
      unfold Lexeme.read at h
      split at h
      · rename_i r hg
        cases h
        have hg : Lexeme.ofGap (readGap isJsonBlank comments [] text) =
            some (.gap run, rest) := hg
        unfold Lexeme.ofGap at hg
        split at hg <;> cases hg
        assumption
      · rcases Lexeme.readSolid_cases h with ⟨_, hl, -, -⟩ | ⟨_, _, hl, -, -⟩ |
          ⟨_, _, hl, -, -, -⟩ | ⟨_, hl, -, -⟩ | ⟨_, hl, -, -⟩ <;> cases hl
    have hgap := gapText_of_readGap p text (by rw [hg]; exact hr)
    rwa [hg] at hgap

/-- A text that is scanned without a report consists of the spellings of its tokens. -/
theorem exists_spelled
    (hr : ∀ s ∈ Scan.scansFrom (dialect comments) source p text, s.reports = []) :
    ∃ before core last ss q, text = before ++ (core ++ last) ∧ GapText comments before ∧
      Spelled comments core ss ∧ LastComment comments last ∧
      Scan.scansFrom (dialect comments) source p text = ss ++ [⟨[], .atEnd q⟩] := by
  obtain ⟨n, hn⟩ : ∃ n, text.length = n := ⟨_, rfl⟩
  induction n using Nat.strongRecOn generalizing p text with
  | ind n ih =>
    subst hn
    cases h : Lexeme.read (dialect comments) text with
    | none =>
      obtain rfl := Lexeme.eq_nil_of_read h
      exact ⟨[], [], [], [], p, rfl, .nil, .nil, .nil, Scan.scansFrom_end h source p⟩
    | some r =>
      obtain ⟨l, rest⟩ := r
      have heq := Lexeme.read_eq h
      have hne := Lexeme.text_ne_nil_of_read (proper_dialect comments) h
      have hlen := Lexeme.length_lt_of_read h hne
      cases ht : l.token? (dialect comments) ⟨p, p.after l.text⟩ with
      | some t =>
        have hk := Lexeme.kind_ne_eof_of_read (proper_dialect comments) h ht
        have hscans := Scan.scansFrom_cons h ht hk hne source
        rw [hscans] at hr ⊢
        obtain ⟨hhead, hrest⟩ := List.forall_mem_cons.1 hr
        obtain ⟨before, core, last, ss, q, rfl, hb, hc, hl, hss⟩ := ih _ hlen hrest rfl
        have htext := tokenText_of_read h ht hhead
        refine ⟨[], l.text ++ (before ++ core), last, ⟨l.reports (dialect comments) p, t⟩ :: ss, q,
          ?_, .nil, .cons htext hb hc, hl, by rw [hss, List.cons_append]⟩
        simpa using heq.symm
      | none =>
        have hlr := Scan.reports_of_skip h ht hr
        rw [Scan.scansFrom_of_skip (proper_dialect comments) h ht hlr] at hr ⊢
        obtain ⟨w, t, hwt, hw, ht', hend⟩ := gapText_of_skip h ht hlr
        obtain ⟨before, core, last, ss, q, hrest, hb, hc, hl, hss⟩ := ih _ hlen hr rfl
        rw [hwt] at heq
        by_cases hne : t = []
        · subst hne
          refine ⟨w ++ before, core, last, ss, q, ?_, hw.append hb, hc, hl, hss⟩
          simpa [hrest] using heq.symm
        · -- A line comment that the end of the text closes is followed by nothing.
          obtain ⟨rfl, hcl⟩ := List.append_eq_nil_iff.1 (hrest.symm.trans (hend hne))
          obtain ⟨rfl, rfl⟩ := List.append_eq_nil_iff.1 hcl
          refine ⟨w, [], t, ss, q, ?_, hw, hc, ht', hss⟩
          simpa [hrest] using heq.symm

/-! ### Sentences -/

namespace Spelled

variable {ss ts : List Scan} {kind : Kind}

theorem append_inv (h : Spelled comments text (ss ++ ts)) :
    ∃ a b, text = a ++ b ∧ Spelled comments a ss ∧ Spelled comments b ts := by
  induction ss generalizing text with
  | nil => exact ⟨[], text, rfl, .nil, h⟩
  | cons s ss ih =>
    cases h with
    | cons ht hw hs =>
      obtain ⟨a, b, rfl, ha, hb⟩ := ih hs
      exact ⟨_, b, by simp, .cons ht hw ha, hb⟩

theorem mark_inv (h : Spelled comments text ss) (hs : Terminals.scan.mark kind ss)
    (hk : kind ∈ punctuation.map Prod.fst) :
    ∃ c w, text = c :: w ∧ (kind, c) ∈ punctuation ∧ GapText comments w := by
  obtain ⟨s, rfl, rfl⟩ := hs
  cases h with
  | cons ht hw hs =>
    cases hs
    cases ht with
    | punctuation hc => exact ⟨_, _, by simp, hc, hw⟩
    | scalar hv hkind hp =>
      rw [hkind] at hk
      cases hv <;> simp [Json.punctuation, Scalar.kind] at hk

theorem scalar_inv {v : Scalar} (h : Spelled comments text ss) (hs : Terminals.scan.scalar v ss) :
    ∃ t w, text = t ++ w ∧ GapText comments w ∧ ScalarText v t := by
  obtain ⟨s, rfl, hk, hp⟩ := hs
  cases h with
  | cons ht hw hs =>
    cases hs
    cases ht with
    | punctuation hc =>
      rw [hk] at hc
      cases v with
      | bool b => cases b <;> simp [Json.punctuation, Scalar.kind] at hc
      | _ => simp [Json.punctuation, Scalar.kind] at hc
    | scalar hv hkind hp' =>
      rw [hp] at hp'
      cases hp'
      exact ⟨_, _, by simp, hw, hv⟩

end Spelled

/-- However the scans are spelled, the text is as described, and then there is white space. -/
def Writes (comments : Bool) (ss : List Scan) (described : List Char → Prop) : Prop :=
  ∀ text, Spelled comments text ss →
    ∃ core w, text = core ++ w ∧ GapText comments w ∧ described core

namespace Writes

variable {ss ts x y : List Scan} {S T : List Char → Prop} {k k' : Kind}

theorem nil : Writes comments [] (· = []) := by
  intro text h
  cases h
  exact ⟨[], [], rfl, .nil, rfl⟩

theorem enclosed (hx : Terminals.scan.mark k x) (hk : k ∈ punctuation.map Prod.fst)
    (h : Writes comments ts T) (hy : Terminals.scan.mark k' y)
    (hk' : k' ∈ punctuation.map Prod.fst) :
    Writes comments (x ++ (ts ++ y)) fun text => ∃ a t b, text = a ++ (t ++ b) ∧
      (Terminals.text comments).mark k a ∧ T t ∧ (Terminals.text comments).mark k' b := by
  intro text hs
  obtain ⟨a, tb, rfl, ha, htb⟩ := hs.append_inv
  obtain ⟨t, b, rfl, ht, hb⟩ := htb.append_inv
  obtain ⟨c, w, rfl, hc, hw⟩ := ha.mark_inv hx hk
  obtain ⟨core, w', rfl, hw', hcore⟩ := h t ht
  obtain ⟨c', last, rfl, hc', hlast⟩ := hb.mark_inv hy hk'
  refine ⟨(c :: w) ++ (core ++ (w' ++ [c'])), last, by simp, hlast, _, core, _, rfl, ?_, hcore, ?_⟩
  · exact ⟨[], c, w, hc, .nil, hw, rfl⟩
  · exact ⟨w', c', [], hc', hw', .nil, rfl⟩

theorem joined (hs : Writes comments ss S) (hx : Terminals.scan.mark k x)
    (hk : k ∈ punctuation.map Prod.fst) (ht : Writes comments ts T) :
    Writes comments (ss ++ (x ++ ts)) fun text => ∃ s a t, text = s ++ (a ++ t) ∧
      S s ∧ (Terminals.text comments).mark k a ∧ T t := by
  intro text h
  obtain ⟨s, at', rfl, hss, hat⟩ := h.append_inv
  obtain ⟨a, t, rfl, ha, hts⟩ := hat.append_inv
  obtain ⟨core, w, rfl, hw, hcore⟩ := hs s hss
  obtain ⟨c, w', rfl, hc, hw'⟩ := ha.mark_inv hx hk
  obtain ⟨core', last, rfl, hlast, hcore'⟩ := ht t hts
  exact ⟨core ++ ((w ++ c :: w') ++ core'), last, by simp, hlast, core, _, core', rfl, hcore,
    ⟨w, c, w', hc, hw, hw', rfl⟩, hcore'⟩

end Writes

theorem writes_scalar {v : Scalar} {ss : List Scan} (h : Terminals.scan.scalar v ss) :
    Writes comments ss (ScalarText v) := fun _ hs => hs.scalar_inv h

/-- However a sentence over scans is spelled, the text is a sentence over characters. -/
theorem writes_sentence {part : Part} {ss : List Scan} (h : Sentence Terminals.scan ss part) :
    Writes comments ss fun text => Sentence (Terminals.text comments) text part := by
  induction h with
  | null h | bool h | number h | string h =>
    intro text hs
    obtain ⟨t, w, rfl, hw, ht⟩ := writes_scalar h text hs
    have hvalue : Sentence (Terminals.text comments) t (.value (.ofScalar _)) := .scalar ht
    exact ⟨t, w, rfl, hw, hvalue⟩
  | emptyArray ha hb =>
    intro text hs
    obtain ⟨_, w, rfl, hw, a, _, b, rfl, ha, rfl, hb⟩ :=
      Writes.nil.enclosed ha (by decide) hb (by decide) text hs
    exact ⟨_, w, rfl, hw, .emptyArray ha hb⟩
  | array ha h hb ih =>
    intro text hs
    obtain ⟨_, w, rfl, hw, a, t, b, rfl, ha, ht, hb⟩ :=
      ih.enclosed ha (by decide) hb (by decide) text hs
    exact ⟨_, w, rfl, hw, .array ha ht hb⟩
  | emptyObject ha hb =>
    intro text hs
    obtain ⟨_, w, rfl, hw, a, _, b, rfl, ha, rfl, hb⟩ :=
      Writes.nil.enclosed ha (by decide) hb (by decide) text hs
    exact ⟨_, w, rfl, hw, .emptyObject ha hb⟩
  | object ha h hb ih =>
    intro text hs
    obtain ⟨_, w, rfl, hw, a, t, b, rfl, ha, ht, hb⟩ :=
      ih.enclosed ha (by decide) hb (by decide) text hs
    exact ⟨_, w, rfl, hw, .object ha ht hb⟩
  | oneItem h ih =>
    intro text hs
    obtain ⟨t, w, rfl, hw, ht⟩ := ih text hs
    exact ⟨t, w, rfl, hw, .oneItem ht⟩
  | moreItems hs hc h ihs ih =>
    intro text hs
    obtain ⟨_, w, rfl, hw, s, a, t, rfl, hs, ha, ht⟩ := ihs.joined hc (by decide) ih text hs
    exact ⟨_, w, rfl, hw, .moreItems hs ha ht⟩
  | member hk hc h ih =>
    intro text hs
    obtain ⟨_, w, rfl, hw, s, a, t, rfl, hs, ha, ht⟩ :=
      (writes_scalar hk).joined hc (by decide) ih text hs
    exact ⟨_, w, rfl, hw, .member hs ha ht⟩
  | oneMember h ih =>
    intro text hs
    obtain ⟨t, w, rfl, hw, ht⟩ := ih text hs
    exact ⟨t, w, rfl, hw, .oneMember ht⟩
  | moreMembers hs hc h ihs ih =>
    intro text hs
    obtain ⟨_, w, rfl, hw, s, a, t, rfl, hs, ha, ht⟩ := ihs.joined hc (by decide) ih text hs
    exact ⟨_, w, rfl, hw, .moreMembers hs ha ht⟩

theorem document_of_scans {v : Value} {ss : List Scan} {s : Scan}
    (hscans : Scan.scansFrom (dialect comments) source p text = ss ++ [s])
    (hr : ∀ x ∈ ss ++ [s], x.reports = []) (h : Sentence Terminals.scan ss (.value v)) :
    Document comments text v := by
  rw [← hscans] at hr
  obtain ⟨before, core, last, ss', q, rfl, hb, hc, hl, hss⟩ := exists_spelled hr
  rw [hss, List.append_singleton_inj] at hscans
  obtain ⟨rfl, -⟩ := hscans
  obtain ⟨core, w, rfl, hw, hcore⟩ := writes_sentence h core hc
  exact ⟨before, core, w, last, by simp, hb, hcore, hw, hl⟩

end Json

end Resilient
