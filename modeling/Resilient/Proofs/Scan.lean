import Resilient.Scan

/-!
# The scans of a text, one token at a time

`scansFrom d source p text` are the scans of `text` when it begins at the place `p`. What is read
next decides how they begin: `fetch_of_token` and `fetch_of_skip` say so for one lexeme,
`scansFrom_cons` for one token and `scansFrom_end` for the end of the text.
-/

namespace Resilient

namespace Scan

variable {d : Dialect} {text rest : List Char} {l : Lexeme}

/-- The scans of a text that begins at the place `p`. -/
def scansFrom (d : Dialect) (source : String) (p : Position) (text : List Char) : List Scan :=
  (all d ⟨source, p, text⟩).1

theorem ofText_eq_scansFrom (d : Dialect) (source : String) :
    ofText d source = scansFrom d source .start source.toList := rfl

theorem source_fetch (found : List Diagnostic) (c : Cursor) :
    (fetch d found c).2.source = c.source := by
  fun_induction fetch d found c with
  | case1 found c => rfl
  | case2 found c l rest h behind found' t ht => rfl
  | case3 found c l rest h behind found' ht ih => exact ih

theorem scansFrom_eq (d : Dialect) (source : String) (p : Position) (text : List Char) :
    scansFrom d source p text =
      if (next d ⟨source, p, text⟩).1.token.isEof ∨
          (next d ⟨source, p, text⟩).2.position.offset = p.offset then
        [(next d ⟨source, p, text⟩).1]
      else
        (next d ⟨source, p, text⟩).1 ::
          scansFrom d source (next d ⟨source, p, text⟩).2.position
            (next d ⟨source, p, text⟩).2.rest := by
  have hc : ∀ c : Cursor, c.source = source → c = ⟨source, c.position, c.rest⟩ := by
    rintro ⟨⟩ rfl
    rfl
  rw [scansFrom, all_eq]
  split
  · rfl
  · rw [scansFrom, ← hc _ (source_fetch _ _)]

/-- The next fetch meets the end or moves on. -/
def Moves (d : Dialect) (c : Cursor) : Prop :=
  (next d c).1.token.isEof = true ∨ c.position.offset < (next d c).2.position.offset

theorem fetch_of_end (h : Lexeme.read d text = none) (source : String) (p : Position)
    (found : List Diagnostic) :
    fetch d found ⟨source, p, text⟩ = (⟨found.reverse, .atEnd p⟩, ⟨source, p, text⟩) := by
  rw [fetch]
  split
  · rfl
  · rename_i hr
    rw [h] at hr
    cases hr

theorem fetch_of_token {p : Position} {t : Token} (h : Lexeme.read d text = some (l, rest))
    (ht : l.token? d ⟨p, p.after l.text⟩ = some t) (source : String) (found : List Diagnostic) :
    fetch d found ⟨source, p, text⟩ =
      (⟨found.reverse ++ l.reports d p, t⟩, ⟨source, p.after l.text, rest⟩) := by
  rw [fetch]
  split
  · rename_i hr
    rw [h] at hr
    cases hr
  · rename_i l' rest' hr
    rw [h] at hr
    cases hr
    simp only [Cursor.past]
    split
    · rename_i t' ht'
      rw [ht] at ht'
      cases ht'
      simp
    · rename_i ht'
      rw [ht] at ht'
      cases ht'

theorem fetch_of_skip {p : Position} (h : Lexeme.read d text = some (l, rest))
    (ht : l.token? d ⟨p, p.after l.text⟩ = none) (source : String) (found : List Diagnostic) :
    fetch d found ⟨source, p, text⟩ =
      fetch d ((l.reports d p).reverse ++ found) ⟨source, p.after l.text, rest⟩ := by
  rw [fetch]
  split
  · rename_i hr
    rw [h] at hr
    cases hr
  · rename_i l' rest' hr
    rw [h] at hr
    cases hr
    simp only [Cursor.past]
    split
    · rename_i t' ht'
      rw [ht] at ht'
      cases ht'
    · rfl

/-- Texts whose first fetch agrees have the same scans, if that fetch moves on from both. -/
theorem scansFrom_congr {source : String} {p p' : Position} {text' : List Char}
    (h : fetch d [] ⟨source, p, text⟩ = fetch d [] ⟨source, p', text'⟩)
    (hp : Moves d ⟨source, p, text⟩) (hp' : Moves d ⟨source, p', text'⟩) :
    scansFrom d source p text = scansFrom d source p' text' := by
  have hn : next d ⟨source, p, text⟩ = next d ⟨source, p', text'⟩ := h
  unfold Moves at hp hp'
  rw [scansFrom, scansFrom, all_eq d ⟨source, p, text⟩, all_eq d ⟨source, p', text'⟩]
  simp only [hn] at hp ⊢
  by_cases he : (next d ⟨source, p', text'⟩).1.token.isEof = true
  · simp [he]
  · have h₁ := Nat.ne_of_gt (hp.resolve_left he)
    have h₂ := Nat.ne_of_gt (hp'.resolve_left he)
    rw [if_neg (by simpa [he] using h₁), if_neg (by simpa [he] using h₂)]

theorem scansFrom_cons {p : Position} {t : Token} (h : Lexeme.read d text = some (l, rest))
    (ht : l.token? d ⟨p, p.after l.text⟩ = some t) (he : t.kind ≠ .eof) (hl : l.text ≠ [])
    (source : String) :
    scansFrom d source p text =
      ⟨l.reports d p, t⟩ :: scansFrom d source (p.after l.text) rest := by
  have hf : next d ⟨source, p, text⟩ = (⟨l.reports d p, t⟩, ⟨source, p.after l.text, rest⟩) := by
    simpa [next] using fetch_of_token h ht source []
  have hp : (p.after l.text).offset ≠ p.offset := fun e => hl ((p.offset_after_eq_iff _).1 e)
  rw [scansFrom, all_eq, hf]
  simp [Token.isEof, he, hp, scansFrom]

theorem scansFrom_of_eof {p : Position} {t : Token} (h : Lexeme.read d text = some (l, rest))
    (ht : l.token? d ⟨p, p.after l.text⟩ = some t) (he : t.kind = .eof) (source : String) :
    scansFrom d source p text = [⟨l.reports d p, t⟩] := by
  have hf : next d ⟨source, p, text⟩ = (⟨l.reports d p, t⟩, ⟨source, p.after l.text, rest⟩) := by
    simpa [next] using fetch_of_token h ht source []
  rw [scansFrom, all_eq, hf]
  simp [Token.isEof, he]

theorem scansFrom_end (h : Lexeme.read d text = none) (source : String) (p : Position) :
    scansFrom d source p text = [⟨[], .atEnd p⟩] := by
  have hf : next d ⟨source, p, text⟩ = (⟨[], .atEnd p⟩, ⟨source, p, text⟩) := by
    simpa [next] using fetch_of_end h source p []
  rw [scansFrom, all_eq, hf]
  simp

end Scan

/-- Every spelling of the table has characters. -/
def Dialect.Spelled (d : Dialect) : Prop := ∀ op ∈ d.operators, op.spelling ≠ ""

/-- Every spelling of the table has characters, and none makes the token of the end. -/
def Dialect.Proper (d : Dialect) : Prop :=
  ∀ op ∈ d.operators, op.spelling ≠ "" ∧ op.kind ≠ .eof

theorem Dialect.Proper.spelled {d : Dialect} (h : d.Proper) : d.Spelled :=
  fun op hop => (h op hop).1

namespace Numeral

theorem text_ne_nil_of_begins {signed : Bool} {text : List Char} (h : begins signed text = true) :
    (read text).1.text ≠ [] := by
  cases text with
  | nil => simp [begins] at h
  | cons c text =>
    simp only [begins, Bool.or_eq_true, Bool.and_eq_true, decide_eq_true_eq] at h
    rcases h with hc | ⟨⟨-, rfl⟩, -⟩
    · have hm : c ≠ '-' := by rintro rfl; simp at hc
      have hs : readSign (c :: text) = (false, c :: text) := by
        unfold readSign
        split
        · rename_i hr
          cases hr
          exact absurd rfl hm
        · rfl
      have hw : (readWhole (c :: text)).1 ≠ [] := by
        unfold readWhole
        split
        · simp
        · simp [hc]
      simp [read, hs, Numeral.text, hw]
    · simp [read, readSign, Numeral.text]

end Numeral

namespace Lexeme

variable {d : Dialect} {text rest : List Char} {l : Lexeme}

/-- What a lexeme that is no trivium can be. -/
theorem readSolid_cases (h : readSolid d text = some (l, rest)) :
    (∃ n, l = .number n ∧ Numeral.begins d.signedNumbers text = true ∧
      Numeral.read text = (n, rest)) ∨
    (∃ lit body, l = .literal lit ∧ text = '"' :: body ∧ Literal.read body = (lit, rest)) ∨
    (∃ c body, l = .word (text.takeWhile isWordChar) ∧ text = c :: body ∧ isWordStart c = true ∧
      rest = text.dropWhile isWordChar) ∨
    (∃ op, l = .operator op ∧ Operator.match? d.operators text = some op ∧
      rest = text.drop op.spelling.toList.length) ∨
    ∃ c, l = .stray c ∧ text = c :: rest ∧ Operator.match? d.operators text = none := by
  cases text with
  | nil => cases h
  | cons c text =>
    simp only [readSolid] at h
    split at h
    · rename_i hb
      cases h
      exact .inl ⟨_, rfl, hb, rfl⟩
    · split at h
      · rename_i hc
        cases h
        subst hc
        exact .inr (.inl ⟨_, _, rfl, rfl, rfl⟩)
      · split at h
        · rename_i hw
          cases h
          exact .inr (.inr (.inl ⟨_, _, rfl, rfl, hw, rfl⟩))
        · split at h
          · rename_i op hop
            cases h
            exact .inr (.inr (.inr (.inl ⟨_, rfl, hop, rfl⟩)))
          · rename_i hop
            cases h
            exact .inr (.inr (.inr (.inr ⟨_, rfl, rfl, hop⟩)))

theorem mem_of_match? {table : List Operator} {op : Operator}
    (h : Operator.match? table text = some op) : op ∈ table := List.mem_of_find?_eq_some h

theorem text_ne_nil_of_spelled (hd : d.Spelled) (h : read d text = some (l, rest)) :
    l.text ≠ [] := by
  unfold read at h
  split at h
  · rename_i r hr
    cases h
    exact (readTrivia_eq hr).2
  · rcases readSolid_cases h with ⟨n, rfl, hb, hn⟩ | ⟨lit, body, rfl, -, -⟩ |
      ⟨c, body, rfl, rfl, hw, -⟩ | ⟨op, rfl, hop, -⟩ | ⟨c, rfl, -, -⟩
    · have hn : (Numeral.read text).1 = n := by rw [hn]
      simpa only [Lexeme.text, hn] using Numeral.text_ne_nil_of_begins hb
    · simp [Lexeme.text, Literal.text]
    · simp [Lexeme.text, isWordChar_of_isWordStart hw]
    · simpa [Lexeme.text] using hd op (mem_of_match? hop)
    · simp [Lexeme.text]

theorem text_ne_nil_of_read (hd : d.Proper) (h : read d text = some (l, rest)) : l.text ≠ [] :=
  text_ne_nil_of_spelled hd.spelled h

theorem length_lt_of_read (h : read d text = some (l, rest)) (hne : l.text ≠ []) :
    rest.length < text.length := by
  have hlength := congrArg List.length (read_eq h)
  have hpos := List.length_pos_iff.2 hne
  rw [List.length_append] at hlength
  omega

theorem eq_nil_of_read (h : read d text = none) : text = [] := by
  cases text with
  | nil => rfl
  | cons c text =>
    unfold read at h
    split at h
    · cases h
    · simp only [readSolid] at h
      repeat' split at h
      all_goals cases h

theorem mem_of_read_operator {op : Operator} (h : read d text = some (.operator op, rest)) :
    op ∈ d.operators := by
  have hs : readSolid d text = some (.operator op, rest) := by
    unfold read at h
    split at h
    · rename_i r hr
      cases h
      unfold readTrivia ofGap at hr
      repeat' split at hr
      all_goals cases hr
    · exact h
  rcases readSolid_cases hs with ⟨n, hl, -, -⟩ | ⟨lit, body, hl, -, -⟩ |
    ⟨c, body, hl, -, -, -⟩ | ⟨op', hl, hop, -⟩ | ⟨c, hl, -, -⟩
  all_goals cases hl
  exact mem_of_match? hop

theorem kind_ne_eof_of_read (hd : d.Proper) (h : read d text = some (l, rest)) {span : Span}
    {t : Token} (ht : l.token? d span = some t) : t.kind ≠ .eof := by
  cases l with
  | gap run =>
    simp only [token?] at ht
    split at ht <;> cases ht
    simp [Token.bare]
  | newline | number _ | literal _ =>
    cases ht
    simp [Token.bare]
  | word w =>
    simp only [token?, literalWord?] at ht
    split at ht
    · rename_i kind s hk
      cases ht
      split at hk
      · unfold keyword? at hk
        split at hk <;> cases hk <;> simp
      · cases hk
    · cases ht
      simp
  | operator op =>
    cases ht
    exact (hd op (mem_of_read_operator h)).2
  | stray c => cases ht

end Lexeme

namespace Scan

variable {d : Dialect}

/-- If all spellings have characters, every fetch meets a token of the end's kind or moves on. -/
theorem moves_of_spelled (hd : d.Spelled) (c : Cursor) : Moves d c := by
  have key : ∀ found c, (fetch d found c).1.token.isEof = true ∨
      c.position.offset < (fetch d found c).2.position.offset := by
    intro found c
    fun_induction fetch d found c with
    | case1 found c => exact .inl rfl
    | case2 found c l rest h behind found' t ht =>
      right
      have hn := Lexeme.text_ne_nil_of_spelled hd h
      have hne : (c.position.after l.text).offset ≠ c.position.offset :=
        fun e => hn ((c.position.offset_after_eq_iff _).1 e)
      exact Nat.lt_of_le_of_ne (c.position.offset_le_after _) hne.symm
    | case3 found c l rest h behind found' ht ih =>
      exact ih.imp_right (Nat.lt_of_le_of_lt (c.position.offset_le_after _))
  exact key [] c

theorem moves_of_proper (hd : d.Proper) (c : Cursor) : Moves d c := moves_of_spelled hd.spelled c

/-- With a proper table the end's token stands at the end of the text. -/
theorem token_of_isEof_fetch (hd : d.Proper) {found : List Diagnostic} {c : Cursor}
    (h : (fetch d found c).1.token.isEof = true) :
    (fetch d found c).1.token = .atEnd (c.position.after c.rest) := by
  fun_induction fetch d found c with
  | case1 found c hr =>
    rw [Lexeme.eq_nil_of_read hr]
    rfl
  | case2 found c l rest hr behind found' t ht =>
    exact absurd (by simpa [Token.isEof] using h) (Lexeme.kind_ne_eof_of_read hd hr ht)
  | case3 found c l rest hr behind found' ht ih =>
    rw [ih h, ← Lexeme.read_eq hr, Position.after_append]
    rfl

theorem token_fetch (found : List Diagnostic) (c : Cursor) :
    (fetch d found c).1.token.isEof = true ∨ ∃ text l rest span,
      Lexeme.read d text = some (l, rest) ∧ l.token? d span = some (fetch d found c).1.token := by
  fun_induction fetch d found c with
  | case1 found c => exact .inl rfl
  | case2 found c l rest h behind found' t ht => exact .inr ⟨_, l, rest, _, h, ht⟩
  | case3 found c l rest h behind found' ht ih => exact ih

theorem token_of_mem {s : Scan} {source : String} {p : Position} {text : List Char}
    (h : s ∈ scansFrom d source p text) :
    s.token.isEof = true ∨ ∃ text l rest span,
      Lexeme.read d text = some (l, rest) ∧ l.token? d span = some s.token := by
  obtain ⟨n, hn⟩ : ∃ n, text.length = n := ⟨_, rfl⟩
  induction n using Nat.strongRecOn generalizing p text with
  | ind n ih =>
    subst hn
    have hfirst := token_fetch (d := d) [] ⟨source, p, text⟩
    rw [scansFrom_eq] at h
    split at h
    · rw [List.mem_singleton] at h
      rw [h]
      exact hfirst
    · rename_i hp
      rcases List.mem_cons.1 h with rfl | h
      · exact hfirst
      · exact ih _ (length_rest_lt fun he => hp (.inr he)) h rfl

/-- Reports met before stand in front and change nothing else. -/
theorem fetch_found (found : List Diagnostic) (c : Cursor) :
    fetch d found c =
      (⟨found.reverse ++ (fetch d [] c).1.reports, (fetch d [] c).1.token⟩, (fetch d [] c).2) := by
  obtain ⟨n, hn⟩ : ∃ n, c.rest.length = n := ⟨_, rfl⟩
  induction n using Nat.strongRecOn generalizing found c with
  | ind n ih =>
    subst hn
    obtain ⟨source, p, text⟩ := c
    cases h : Lexeme.read d text with
    | none => rw [fetch_of_end h, fetch_of_end h]; simp
    | some r =>
      obtain ⟨l, rest⟩ := r
      cases ht : l.token? d ⟨p, p.after l.text⟩ with
      | some t => rw [fetch_of_token h ht, fetch_of_token h ht]; simp
      | none =>
        have hl := Lexeme.length_lt_of_read h (Lexeme.text_ne_nil_of_token? h ht)
        rw [fetch_of_skip h ht, fetch_of_skip h ht, ih _ hl _ _ rfl, ih _ hl (_ ++ []) _ rfl]
        simp

/-- What is fetched behind some reports is fetched with these reports in front of its own. -/
theorem scansFrom_of_fetch {source : String} {p p' : Position} {text text' : List Char}
    {reports : List Diagnostic} (hd : d.Spelled)
    (h : fetch d [] ⟨source, p, text⟩ = fetch d reports.reverse ⟨source, p', text'⟩) :
    ∃ s ss, scansFrom d source p' text' = s :: ss ∧
      scansFrom d source p text = ⟨reports ++ s.reports, s.token⟩ :: ss := by
  have hnext : next d ⟨source, p, text⟩ =
      (⟨reports ++ (next d ⟨source, p', text'⟩).1.reports, (next d ⟨source, p', text'⟩).1.token⟩,
        (next d ⟨source, p', text'⟩).2) := by
    rw [next, h, fetch_found]
    simp [next]
  have hmoves := moves_of_spelled hd ⟨source, p, text⟩
  have hmoves' := moves_of_spelled hd ⟨source, p', text'⟩
  rw [Moves, hnext] at hmoves
  rw [Moves] at hmoves'
  rw [scansFrom_eq d source p' text', scansFrom_eq d source p text, hnext]
  by_cases he : (next d ⟨source, p', text'⟩).1.token.isEof = true
  · exact ⟨_, [], if_pos (.inl he), if_pos (.inl he)⟩
  · have hp := Nat.ne_of_gt (hmoves.resolve_left he)
    have hp' := Nat.ne_of_gt (hmoves'.resolve_left he)
    exact ⟨_, _, if_neg (by simpa [he] using hp'), if_neg (by simpa [he] using hp)⟩

/-- A lexeme without a token leaves its reports with the first token behind it. -/
theorem scansFrom_behind_skip {text rest : List Char} {l : Lexeme} {p : Position} (hd : d.Spelled)
    (h : Lexeme.read d text = some (l, rest)) (ht : l.token? d ⟨p, p.after l.text⟩ = none)
    (source : String) :
    ∃ s ss, scansFrom d source (p.after l.text) rest = s :: ss ∧
      scansFrom d source p text = ⟨l.reports d p ++ s.reports, s.token⟩ :: ss := by
  have hfetch := fetch_of_skip h ht source []
  rw [List.append_nil] at hfetch
  exact scansFrom_of_fetch hd hfetch

theorem scansFrom_eq_cons (d : Dialect) (source : String) (p : Position) (text : List Char) :
    ∃ ss, scansFrom d source p text = (next d ⟨source, p, text⟩).1 :: ss := by
  rw [scansFrom_eq]
  split <;> exact ⟨_, rfl⟩

theorem reports_of_skip {text rest : List Char} {l : Lexeme} {p : Position} {source : String}
    (h : Lexeme.read d text = some (l, rest)) (ht : l.token? d ⟨p, p.after l.text⟩ = none)
    (hr : ∀ s ∈ scansFrom d source p text, s.reports = []) : l.reports d p = [] := by
  obtain ⟨ss, hss⟩ := scansFrom_eq_cons d source p text
  have hn := hr (next d ⟨source, p, text⟩).1 (by simp [hss])
  rw [next, fetch_of_skip h ht, fetch_found] at hn
  simpa using (List.append_eq_nil_iff.1 hn).1

/-- A lexeme without a token and without a report leaves no trace. -/
theorem scansFrom_of_skip {text rest : List Char} {l : Lexeme} {p : Position} {source : String}
    (hd : d.Proper) (h : Lexeme.read d text = some (l, rest))
    (ht : l.token? d ⟨p, p.after l.text⟩ = none) (hr : l.reports d p = []) :
    scansFrom d source p text = scansFrom d source (p.after l.text) rest := by
  refine scansFrom_congr ?_ (moves_of_proper hd _) (moves_of_proper hd _)
  rw [fetch_of_skip h ht, hr]
  rfl

/-- With a proper table the scans end with the token at the end of the text and hold no other one of
its kind. -/
theorem scansFrom_eq_append (hd : d.Proper) (source : String) (p : Position) (text : List Char) :
    ∃ ss reports, scansFrom d source p text = ss ++ [⟨reports, .atEnd (p.after text)⟩] ∧
      ∀ s ∈ ss, s.token.kind ≠ .eof := by
  obtain ⟨n, hn⟩ : ∃ n, text.length = n := ⟨_, rfl⟩
  induction n using Nat.strongRecOn generalizing p text with
  | ind n ih =>
    subst hn
    rw [scansFrom_eq]
    by_cases he : (next d ⟨source, p, text⟩).1.token.isEof = true
    · have ha : (next d ⟨source, p, text⟩).1.token = .atEnd (p.after text) :=
        token_of_isEof_fetch hd he
      refine ⟨[], (next d ⟨source, p, text⟩).1.reports, ?_, by simp⟩
      rw [if_pos (.inl he), ← ha]
      rfl
    · have hp := Nat.ne_of_gt ((moves_of_proper hd ⟨source, p, text⟩).resolve_left he)
      have hl : (next d ⟨source, p, text⟩).2.rest.length < text.length := length_rest_lt hp
      obtain ⟨ss, reports, hss, hk⟩ := ih _ hl (next d ⟨source, p, text⟩).2.position _ rfl
      obtain ⟨taken, htext, hposition⟩ := fetch_rest d [] ⟨source, p, text⟩
      have hend : (next d ⟨source, p, text⟩).2.position.after (next d ⟨source, p, text⟩).2.rest =
          p.after text := by
        rw [next, hposition, ← Position.after_append, htext]
      rw [hend] at hss
      refine ⟨(next d ⟨source, p, text⟩).1 :: ss, reports, ?_, ?_⟩
      · rw [if_neg (by simpa [he] using hp), List.cons_append, ← hss]
      · simpa [Token.isEof] using ⟨by simpa [Token.isEof] using he, hk⟩

/-- Scans up to the end of a text are cut at the first token of the end's kind. -/
theorem eq_of_append_eof {ss ts rest : List Scan} {e s : Scan}
    (hk : ∀ x ∈ ss, x.token.kind ≠ .eof) (h : ss ++ [e] = ts ++ s :: rest)
    (hs : s.token.kind = .eof) : ss = ts ∧ s = e ∧ rest = [] := by
  rcases rest.eq_nil_or_concat with rfl | ⟨rest, z, rfl⟩
  · obtain ⟨rfl, rfl⟩ := List.append_singleton_inj.1 h
    exact ⟨rfl, rfl, rfl⟩
  · rw [List.concat_eq_append, ← List.cons_append, ← List.append_assoc] at h
    obtain ⟨rfl, -⟩ := List.append_singleton_inj.1 h
    exact absurd hs (hk s (by simp))

end Scan

end Resilient
