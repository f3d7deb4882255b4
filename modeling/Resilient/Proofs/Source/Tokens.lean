import Resilient.Proofs.Lexeme.Gap
import Resilient.Proofs.Lexeme.Literal
import Resilient.Proofs.Source.Place

/-!
# The ranges of tokens and of reports on them

Whatever a text holds, its tokens and the reports on its characters cover ranges of it
(`Scan.isIn_of_mem`), and the tokens stand in the order in which they are scanned, without overlap
(`Scan.inOrder_ofText`). The reports on characters are lexical (`Scan.lexical_of_mem`) and stand
between the token before and the end of their own (`Scan.reports_after_ofText`,
`Scan.stop_report_le_of_mem`), and only the end takes no place (`Scan.start_lt_stop_of_mem`).
-/

namespace Resilient

variable {source : String} {p : Position} {text rest : List Char} {d : Dialect} {n m : Nat}

/-! ### Reports on lexemes -/

/-- A report on characters of the text, from one byte of it to another. -/
structure Diagnostic.OnText (source : String) (n m : Nat) (r : Diagnostic) : Prop where
  lexical : r.category = .lexical
  isIn : r.span.IsIn source
  start_le : n ≤ r.span.start.offset
  stop_le : r.span.stop.offset ≤ m

/-- A text that is read at a place lies between two bytes. -/
structure Lies (n m : Nat) (p : Position) (text : List Char) : Prop where
  start_le : n ≤ p.offset
  stop_le : (p.after text).offset ≤ m

theorem Lies.self (p : Position) (text : List Char) :
    Lies p.offset (p.after text).offset p text := ⟨Nat.le_refl _, Nat.le_refl _⟩

theorem Lies.of_append {s : List Char} (h : Lies n m p (s ++ text)) :
    Lies n m p s ∧ Lies n m (p.after s) text := by
  have hstop := h.stop_le
  rw [Position.after_append] at hstop
  have hs := p.offset_le_after s
  have ht := (p.after s).offset_le_after text
  exact ⟨⟨h.start_le, Nat.le_trans ht hstop⟩, ⟨Nat.le_trans h.start_le hs, hstop⟩⟩

theorem Diagnostic.OnText.point {f : Fault} (hf : f.category = .lexical) (hp : p.IsIn source)
    (hl : Lies n m p text) : (Diagnostic.atPoint f p).OnText source n m :=
  ⟨hf, .point hp, hl.start_le, Nat.le_trans (p.offset_le_after text) hl.stop_le⟩

theorem report?_onText {t : Trivium} {r : Diagnostic} (h : p.Sees source (t.text ++ rest))
    (hl : Lies n m p t.text) (hr : t.report? p = some r) : r.OnText source n m := by
  unfold Trivium.report? at hr
  split at hr
  · cases hr
    exact ⟨rfl, h.span, hl.start_le, hl.stop_le⟩
  · cases hr

theorem gapReports_onText {run : List Trivium}
    (h : p.Sees source (run.flatMap Trivium.text ++ rest))
    (hl : Lies n m p (run.flatMap Trivium.text)) :
    ∀ r ∈ gapReports p [] run, r.OnText source n m := by
  induction run generalizing p with
  | nil => simp [gapReports]
  | cons t run ih =>
    rw [List.flatMap_cons, List.append_assoc] at h
    rw [List.flatMap_cons] at hl
    intro r hr
    rw [gapReports_cons] at hr
    rcases List.mem_append.1 hr with hr | hr
    · exact report?_onText h hl.of_append.1 (by simpa using hr)
    · exact ih h.append hl.of_append.2 r hr

/-- What can be wrong with trivia. -/
theorem fault_of_mem_gapReports {run : List Trivium} :
    ∀ r ∈ gapReports p [] run, r.fault = .unterminatedComment := by
  induction run generalizing p with
  | nil => simp [gapReports]
  | cons t run ih =>
    rw [gapReports_cons]
    refine List.forall_mem_append.2 ⟨fun r hr => ?_, ih⟩
    unfold Trivium.report? at hr
    split at hr
    · rw [Option.toList_some, List.mem_singleton] at hr
      rw [hr]
      rfl
    · cases hr

namespace Literal

theorem controlReports_onText {found : List Diagnostic} {pieces : List Piece}
    (h : p.Sees source (pieces.flatMap Piece.text ++ rest))
    (hl : Lies n m p (pieces.flatMap Piece.text)) (hf : ∀ r ∈ found, r.OnText source n m) :
    ∀ r ∈ controlReports p found pieces, r.OnText source n m := by
  induction pieces generalizing p found with
  | nil => simpa [controlReports] using hf
  | cons piece pieces ih =>
    rw [List.flatMap_cons, List.append_assoc] at h
    rw [List.flatMap_cons] at hl
    cases piece with
    | plain c =>
      refine ih h.append hl.of_append.2 ?_
      split
      · exact List.forall_mem_cons.2 ⟨.point rfl h.isIn hl, hf⟩
      · exact hf
    | escape c | code digits | dangling => exact ih h.append hl.of_append.2 hf

theorem readingReports_onText {found : List Diagnostic} {rs : List Reading}
    (h : p.Sees source (rs.flatMap Reading.text ++ rest))
    (hl : Lies n m p (rs.flatMap Reading.text))
    (hfault : ∀ r ∈ rs, ∀ f ∈ r.fault, f.category = .lexical)
    (hf : ∀ r ∈ found, r.OnText source n m) :
    ∀ r ∈ readingReports p found rs, r.OnText source n m := by
  induction rs generalizing p found with
  | nil => simpa [readingReports] using hf
  | cons reading rs ih =>
    rw [List.flatMap_cons, List.append_assoc] at h
    rw [List.flatMap_cons] at hl
    obtain ⟨hreading, hfault⟩ := List.forall_mem_cons.1 hfault
    refine ih h.append hl.of_append.2 hfault ?_
    split
    · rename_i f hfault
      exact List.forall_mem_cons.2 ⟨.point (hreading f hfault) h.isIn hl, hf⟩
    · exact hf

theorem text_reading (piece : Piece) : piece.reading.text = piece.text := by
  cases piece with
  | plain c | dangling => rfl
  | escape c =>
    simp only [Piece.reading]
    split <;> rfl
  | code digits =>
    simp only [Piece.reading]
    split <;> rfl

theorem text_interpretOnto (done : List Reading) (pieces : List Piece) :
    (interpretOnto done pieces).flatMap Reading.text =
      done.reverse.flatMap Reading.text ++ pieces.flatMap Piece.text := by
  fun_induction interpretOnto done pieces with
  | case1 done => simp
  | case2 done piece => simp [text_reading]
  | case3 done piece next pieces c _ ih => simp [ih]
  | case4 done piece next pieces _ ih => simp [ih, text_reading]

theorem fault_of_mem_interpretOnto {r : Reading} {f : Fault} {done : List Reading}
    {pieces : List Piece}
    (hdone : ∀ r ∈ done, ∀ f ∈ r.fault, f = .invalidEscapeSequence ∨ f = .invalidUnicodeEscape)
    (h : r ∈ interpretOnto done pieces) (hf : f ∈ r.fault) :
    f = .invalidEscapeSequence ∨ f = .invalidUnicodeEscape := by
  have hpiece : ∀ piece : Piece, ∀ f ∈ piece.reading.fault,
      f = .invalidEscapeSequence ∨ f = .invalidUnicodeEscape := by
    intro piece f hf
    cases piece with
    | plain c | dangling => cases hf
    | escape c =>
      simp only [Piece.reading] at hf
      split at hf <;> cases hf
      exact .inl rfl
    | code digits =>
      simp only [Piece.reading] at hf
      split at hf <;> cases hf
      exact .inr rfl
  fun_induction interpretOnto done pieces with
  | case1 done => exact hdone r (List.mem_reverse.1 h) f hf
  | case2 done piece =>
    exact List.forall_mem_cons.2 ⟨hpiece piece, hdone⟩ r (List.mem_reverse.1 h) f hf
  | case3 done piece next pieces c _ ih =>
    exact ih (List.forall_mem_cons.2 ⟨by simp, hdone⟩) h
  | case4 done piece next pieces _ ih =>
    exact ih (List.forall_mem_cons.2 ⟨hpiece piece, hdone⟩) h

theorem category_of_mem_fault {l : Literal} {r : Reading} {f : Fault} (h : r ∈ l.interpret)
    (hf : f ∈ r.fault) : f.category = .lexical := by
  rcases fault_of_mem_interpretOnto (by simp) h hf with rfl | rfl <;> rfl

theorem fault_of_mem_controlReports {pieces : List Piece} :
    ∀ d ∈ controlReports p [] pieces, d.fault = .controlCharacter := by
  induction pieces generalizing p with
  | nil => simp [controlReports]
  | cons piece pieces ih =>
    rw [controlReports_cons]
    refine List.forall_mem_append.2 ⟨?_, ih⟩
    cases piece with
    | plain c =>
      simp only [controlReport?]
      split
      · exact List.forall_mem_singleton.2 rfl
      · simp
    | escape c | code digits | dangling => simp [controlReport?]

theorem exists_fault_of_mem_readingReports {rs : List Reading} :
    ∀ d ∈ readingReports p [] rs, ∃ r ∈ rs, d.fault ∈ r.fault := by
  induction rs generalizing p with
  | nil => simp [readingReports]
  | cons r rs ih =>
    intro d hd
    rw [readingReports_cons] at hd
    rcases List.mem_append.1 hd with hd | hd
    · obtain ⟨f, hf, rfl⟩ := Option.map_eq_some_iff.1 (Option.mem_toList.1 hd)
      exact ⟨r, List.mem_cons_self, hf⟩
    · obtain ⟨r', hr', hf⟩ := ih d hd
      exact ⟨r', List.mem_cons_of_mem r hr', hf⟩

theorem fault_of_mem_reports {l : Literal} : ∀ d ∈ l.reports p,
    d.fault = .controlCharacter ∨ d.fault = .unterminatedString ∨
      d.fault = .invalidEscapeSequence ∨ d.fault = .invalidUnicodeEscape := by
  intro d hd
  rw [reports, List.mem_append, List.mem_append] at hd
  rcases hd with (hd | hd) | hd
  · exact .inl (fault_of_mem_controlReports d hd)
  · split at hd
    · cases hd
    · rw [List.mem_singleton.1 hd]
      exact .inr (.inl rfl)
  · obtain ⟨r, hr, hf⟩ := exists_fault_of_mem_readingReports d hd
    exact .inr (.inr (fault_of_mem_interpretOnto (by simp) hr hf))

theorem reports_onText {l : Literal} (h : p.Sees source (l.text ++ rest)) :
    ∀ r ∈ l.reports p, r.OnText source p.offset (p.after l.text).offset := by
  have hbody : (p.next '"').Sees source
      (l.pieces.flatMap Piece.text ++ ((if l.closed then ['"'] else []) ++ rest)) := by
    rw [← List.append_assoc]
    exact h.cons
  have hinterpret : l.interpret.flatMap Reading.text = l.pieces.flatMap Piece.text := by
    rw [interpret, text_interpretOnto, List.reverse_nil, List.flatMap_nil, List.nil_append]
  have hquoted : Lies p.offset (p.after l.text).offset p
      (['"'] ++ (l.pieces.flatMap Piece.text ++ if l.closed then ['"'] else [])) :=
    Lies.self p l.text
  have hlies := hquoted.of_append.2.of_append.1
  intro r hr
  rw [reports, List.mem_append, List.mem_append] at hr
  rcases hr with (hr | hr) | hr
  · exact controlReports_onText hbody hlies (by simp) r hr
  · split at hr
    · cases hr
    · rw [List.mem_singleton] at hr
      rw [hr]
      have hend : Lies p.offset (p.after l.text).offset (p.after l.text) [] :=
        ⟨p.offset_le_after _, Nat.le_refl _⟩
      exact .point rfl h.append.isIn hend
  · rw [← hinterpret] at hbody hlies
    exact readingReports_onText hbody hlies (fun r hr f => category_of_mem_fault hr) (by simp) r hr

end Literal

namespace Lexeme

theorem reports_onText {l : Lexeme} (d : Dialect) (h : p.Sees source (l.text ++ rest)) :
    ∀ r ∈ l.reports d p, r.OnText source p.offset (p.after l.text).offset := by
  cases l with
  | gap run => exact gapReports_onText h (Lies.self _ _)
  | literal l => exact Literal.reports_onText h
  | word w =>
    simp only [reports]
    split
    · simp
    · have hspan : Span.IsIn source ⟨p, p.after w⟩ := Position.Sees.span h
      exact List.forall_mem_singleton.2 ⟨rfl, hspan, Nat.le_refl _, Nat.le_refl _⟩
  | stray c =>
    have hspan : Span.IsIn source ⟨p, p.next c⟩ := Position.Sees.span h
    exact List.forall_mem_singleton.2 ⟨rfl, hspan, Nat.le_refl _, Nat.le_refl _⟩
  | number n =>
    simp only [reports, Numeral.reports]
    split
    · simp
    · have hspan : Span.IsIn source ⟨p, p.after n.text⟩ := Position.Sees.span h
      exact List.forall_mem_singleton.2 ⟨rfl, hspan, Nat.le_refl _, Nat.le_refl _⟩
  | newline | operator op => simp [reports]

theorem span_of_token? {l : Lexeme} {span : Span} {t : Token} (h : l.token? d span = some t) :
    t.span = span := by
  cases l with
  | gap run =>
    simp only [token?] at h
    split at h <;> cases h
    rfl
  | word w =>
    simp only [token?] at h
    split at h <;> cases h <;> rfl
  | newline | number n | literal l | operator op =>
    cases h
    rfl
  | stray c => cases h

end Lexeme

/-! ### Scans -/

namespace Scan

/-- The token and the reports met on the way to it cover ranges of the text. -/
def IsIn (source : String) (s : Scan) : Prop :=
  s.token.span.IsIn source ∧ ∀ r ∈ s.reports, r.span.IsIn source

/-- Each token ends before the ones behind it begin. -/
def InOrder (scans : List Scan) : Prop :=
  scans.Pairwise fun s t => s.token.span.stop.offset ≤ t.token.span.start.offset

/-- What is fetched is read off the text from byte `n` on, and the cursor stands behind it. -/
structure Fetched (d : Dialect) (source : String) (n : Nat) (r : Scan × Cursor) : Prop where
  isIn : r.1.token.span.IsIn source
  onText : ∀ d ∈ r.1.reports, d.OnText source n r.1.token.span.stop.offset
  wide : d.Proper → r.1.token.kind ≠ .eof →
    r.1.token.span.start.offset < r.1.token.span.stop.offset
  sees : r.2.position.Sees source r.2.rest
  start_le : n ≤ r.1.token.span.start.offset
  stop_eq : r.1.token.span.stop = r.2.position

theorem Fetched.mono {r : Scan × Cursor} (h : Fetched d source n r) (hm : m ≤ n) :
    Fetched d source m r :=
  { h with
    onText := fun d hd =>
      { h.onText d hd with start_le := Nat.le_trans hm (h.onText d hd).start_le }
    start_le := Nat.le_trans hm h.start_le }

/-- The reports on a lexeme follow those on what was read before it. -/
theorem onText_behind {found : List Diagnostic} {l : Lexeme}
    (h : p.Sees source (l.text ++ rest)) (hn : n ≤ p.offset)
    (hf : ∀ r ∈ found, r.OnText source n p.offset) :
    ∀ r ∈ (l.reports d p).reverse ++ found, r.OnText source n (p.after l.text).offset := by
  intro r hr
  rcases List.mem_append.1 hr with hr | hr
  · have hreport := Lexeme.reports_onText d h r (List.mem_reverse.1 hr)
    exact { hreport with start_le := Nat.le_trans hn hreport.start_le }
  · have hreport := hf r hr
    exact { hreport with
      stop_le := Nat.le_trans hreport.stop_le (p.offset_le_after l.text) }

theorem fetched_fetch {found : List Diagnostic} {c : Cursor}
    (h : c.position.Sees source c.rest) (hn : n ≤ c.position.offset)
    (hf : ∀ r ∈ found, r.OnText source n c.position.offset) :
    Fetched d source n (fetch d found c) := by
  fun_induction fetch d found c with
  | case1 found c =>
    have hfound : ∀ r ∈ found.reverse, r.OnText source n c.position.offset := by simpa using hf
    exact ⟨.point h.isIn, hfound, fun _ he => absurd rfl he, h, hn, rfl⟩
  | case2 found c l rest hl behind found' t ht =>
    rw [← Lexeme.read_eq hl] at h
    have hspan := Lexeme.span_of_token? ht
    have hreports := onText_behind (d := d) h hn hf
    have hle := c.position.offset_le_after l.text
    refine ⟨?_, ?_, fun hd _ => ?_, h.append, ?_, ?_⟩
    · rw [hspan]
      exact h.span
    · rw [hspan]
      exact fun r hr => hreports r (List.mem_reverse.1 hr)
    · have hne := mt (c.position.offset_after_eq_iff l.text).1 (Lexeme.text_ne_nil_of_read hd hl)
      rw [hspan]
      exact Nat.lt_of_le_of_ne hle (Ne.symm hne)
    · rw [hspan]
      exact hn
    · rw [hspan]
  | case3 found c l rest hl behind found' ht ih =>
    rw [← Lexeme.read_eq hl] at h
    exact ih h.append (Nat.le_trans hn (c.position.offset_le_after l.text)) (onText_behind h hn hf)

/-- All scans at a place are fetched there or behind it, and each one behind the tokens before. -/
theorem fetched_scansFrom (h : p.Sees source text) :
    (∀ s ∈ scansFrom d source p text, ∃ c, Fetched d source p.offset (s, c)) ∧
      (scansFrom d source p text).Pairwise fun s t =>
        ∃ c, Fetched d source s.token.span.stop.offset (t, c) := by
  obtain ⟨n, hn⟩ : ∃ n, text.length = n := ⟨_, rfl⟩
  induction n using Nat.strongRecOn generalizing p text with
  | ind n ih =>
    subst hn
    have hfirst : Fetched d source p.offset (next d ⟨source, p, text⟩) :=
      fetched_fetch (c := ⟨source, p, text⟩) h (Nat.le_refl _) (by simp)
    rw [scansFrom_eq]
    split
    · exact ⟨by simpa using ⟨_, hfirst⟩, List.pairwise_singleton _ _⟩
    · rename_i hp
      obtain ⟨hlater, horder⟩ := ih _ (length_rest_lt fun he => hp (.inr he)) hfirst.sees rfl
      have hle := hfirst.isIn.ordered
      have hstart := hfirst.start_le
      rw [hfirst.stop_eq] at hle
      refine ⟨List.forall_mem_cons.2 ⟨⟨_, hfirst⟩, fun s hs => ?_⟩,
        List.pairwise_cons.2 ⟨fun s hs => ?_, horder⟩⟩
      · obtain ⟨c, hc⟩ := hlater s hs
        exact ⟨c, hc.mono (Nat.le_trans hstart hle)⟩
      · rw [hfirst.stop_eq]
        exact hlater s hs

section

variable {s : Scan} (h : s ∈ ofText d source)

include h

theorem exists_fetched : ∃ c, Fetched d source 0 (s, c) :=
  (fetched_scansFrom (Position.Sees.of_source source)).1 s h

theorem isIn_of_mem : s.IsIn source := by
  obtain ⟨c, hc⟩ := exists_fetched h
  exact ⟨hc.isIn, fun r hr => (hc.onText r hr).isIn⟩

theorem lexical_of_mem : ∀ r ∈ s.reports, r.category = .lexical := by
  obtain ⟨c, hc⟩ := exists_fetched h
  exact fun r hr => (hc.onText r hr).lexical

theorem start_lt_stop_of_mem (hd : d.Proper) (he : s.token.kind ≠ .eof) :
    s.token.span.start.offset < s.token.span.stop.offset := by
  obtain ⟨c, hc⟩ := exists_fetched h
  exact hc.wide hd he

/-- A report on the way to a token ends no later than the token. -/
theorem stop_report_le_of_mem : ∀ r ∈ s.reports,
    r.span.stop.offset ≤ s.token.span.stop.offset := by
  obtain ⟨c, hc⟩ := exists_fetched h
  exact fun r hr => (hc.onText r hr).stop_le

end

theorem inOrder_ofText (d : Dialect) (source : String) : InOrder (ofText d source) :=
  (fetched_scansFrom (Position.Sees.of_source source)).2.imp fun ⟨_, hc⟩ => hc.start_le

theorem starts_ofText (hd : d.Proper) (source : String) :
    (ofText d source).Pairwise fun s t =>
      s.token.span.start.offset < t.token.span.start.offset := by
  obtain ⟨ss, reports, hscans, hk⟩ := scansFrom_eq_append hd source .start source.toList
  rw [← ofText_eq_scansFrom] at hscans
  have horder := inOrder_ofText d source
  have hwide : ∀ s ∈ ss, s.token.span.start.offset < s.token.span.stop.offset := by
    intro s hs
    have hmem : s ∈ ofText d source := by simp [hscans, hs]
    exact start_lt_stop_of_mem hmem hd (hk s hs)
  rw [InOrder, hscans, List.pairwise_append] at horder
  rw [hscans]
  obtain ⟨hsolid, -, hlast⟩ := horder
  refine List.pairwise_append.2 ⟨hsolid.imp_of_mem fun hs _ h => ?_, List.pairwise_singleton _ _,
    fun s hs t ht => Nat.lt_of_lt_of_le (hwide s hs) (hlast s hs t ht)⟩
  exact Nat.lt_of_lt_of_le (hwide _ hs) h

/-- The reports on the way to a token stand behind the tokens before. -/
theorem reports_after_ofText (d : Dialect) (source : String) :
    (ofText d source).Pairwise fun s t =>
      ∀ r ∈ t.reports, s.token.span.stop.offset ≤ r.span.start.offset :=
  (fetched_scansFrom (Position.Sees.of_source source)).2.imp
    fun ⟨_, hc⟩ r hr => (hc.onText r hr).start_le

end Scan

theorem starts_tokenize {d : Dialect} (hd : d.Proper) (source : String) :
    (tokenize source d).1.Pairwise fun t u => t.span.start.offset < u.span.start.offset :=
  List.pairwise_map.2 (Scan.starts_ofText hd source)

end Resilient
