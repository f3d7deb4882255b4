import Resilient.Proofs.Lexeme.Solid

/-!
# Texts with and without trivia

Blanks, comments and line feeds make tokens of their own or none at all. Where they make tokens, a
run of them ends in front of a line feed, and where they make none, it goes on. Both ways cut a text
into the same other tokens, with the same reports (`tokenize_withTrivia`).
-/

namespace Resilient

/-- The same dialect with or without tokens for blanks, comments and line feeds. -/
def Dialect.withTrivia (d : Dialect) (kept : Bool) : Dialect := { d with trivia := kept }

variable {d : Dialect} {source : String} {p : Position} {text rest : List Char} {c : Char}
  {l : Lexeme}

/-! ### Stepping over part of a run -/

namespace Scan

variable (hd : d.trivia = false)

include hd

theorem fetch_blanks {w : List Char} (hw : ∀ c ∈ w, d.isBlank c = true) (source : String)
    (p : Position) (found : List Diagnostic) (text : List Char) :
    fetch d found ⟨source, p, w ++ text⟩ = fetch d found ⟨source, p.after w, text⟩ := by
  induction w generalizing p with
  | nil => rfl
  | cons c w ih =>
    obtain ⟨hc, hw⟩ := List.forall_mem_cons.1 hw
    rw [List.cons_append, fetch_blank hd hc, ih hw, Position.after_cons]

/-- Where trivia make no tokens, fetching goes on behind a run of them that some blanks end. -/
theorem fetch_run {blank : Char → Bool} (hb : ∀ c, blank c = true → d.isBlank c = true)
    (source : String) (p : Position) (found : List Diagnostic) (text : List Char) :
    fetch d found ⟨source, p, text⟩ =
      fetch d ((gapReports p [] (readGap blank d.comments [] text).1).reverse ++ found)
        ⟨source, p.after ((readGap blank d.comments [] text).1.flatMap Trivium.text),
          (readGap blank d.comments [] text).2⟩ := by
  induction text using readGap_induction blank d.comments generalizing p found with
  | nil => simp [readGap_nil, gapReports]
  | blanks c text hc ih =>
    have hw : ∀ x ∈ c :: text.takeWhile blank, d.isBlank x = true :=
      List.forall_mem_cons.2 ⟨hb c hc, fun x hx => hb x (List.mem_takeWhile_imp hx)⟩
    have hblanks := fetch_blanks hd hw source p found (text.dropWhile blank)
    rw [List.cons_append, List.takeWhile_append_dropWhile] at hblanks
    rw [hblanks, ih, readGap_blank hc]
    simp [gapReports_cons, Trivium.report?, Trivium.text, Position.after_append]
  | comment c text t rest hcomments hc hr ih =>
    have hsolid : d.isBlank c = false := by
      rw [eq_slash_of_readComment hr]
      exact d.isBlank_slash
    rw [fetch_comment hd hcomments hsolid hr, ih, hcomments, readGap_comment hc hr]
    cases hreport : t.report? p <;> simp [gapReports_cons, hreport, Position.after_append]
  | solid c text hc hr =>
    rw [readGap_solid hc hr]
    simp [gapReports]

end Scan

/-! ### Lexemes -/

namespace Lexeme

theorem readSolid_withTrivia (d : Dialect) (kept : Bool) (text : List Char) :
    readSolid (d.withTrivia kept) text = readSolid d text := by
  cases text <;> rfl

theorem read_withTrivia {kept : Bool} (h : readTrivia (d.withTrivia kept) text = none)
    (kept' : Bool) : read (d.withTrivia kept') text = readSolid d text := by
  cases text with
  | nil => exact read_nil _
  | cons c text =>
    have hnone : readTrivia (d.withTrivia kept') (c :: text) = none :=
      (readTrivia_eq_none_iff _ c text).2 ((readTrivia_eq_none_iff (d.withTrivia kept) c text).1 h)
    rw [read, hnone, readSolid_withTrivia]

theorem reports_withTrivia (d : Dialect) (kept : Bool) (p : Position) (l : Lexeme) :
    l.reports (d.withTrivia kept) p = l.reports d p := by
  cases l <;> rfl

theorem token?_withTrivia (kept : Bool) (h : readSolid d text = some (l, rest)) (span : Span) :
    l.token? (d.withTrivia kept) span = l.token? d span := by
  cases l with
  | gap run =>
    rcases readSolid_cases h with ⟨_, hl, -, -⟩ | ⟨_, _, hl, -, -⟩ | ⟨_, _, hl, -, -, -⟩ |
      ⟨_, hl, -, -⟩ | ⟨_, hl, -, -⟩
    all_goals cases hl
  | _ => rfl

theorem isTrivia_of_readSolid (hk : ∀ op ∈ d.operators, op.kind.isTrivia = false)
    (h : readSolid d text = some (l, rest)) {span : Span} {t : Token}
    (ht : l.token? d span = some t) : t.kind.isTrivia = false := by
  rcases readSolid_cases h with ⟨n, rfl, -, -⟩ | ⟨lit, body, rfl, -, -⟩ | ⟨c, body, rfl, -, -, -⟩ |
    ⟨op, rfl, hop, -⟩ | ⟨c, rfl, -, -⟩
  · cases ht
    rfl
  · cases ht
    rfl
  · simp only [token?, literalWord?] at ht
    split at ht
    · rename_i kind s hw
      cases ht
      split at hw
      · unfold keyword? at hw
        split at hw <;> cases hw <;> rfl
      · cases hw
    · cases ht
      rfl
  · cases ht
    exact hk op (mem_of_match? hop)
  · cases ht

end Lexeme

/-! ### Scans -/

namespace Scan

/-- The second scans are the first ones without trivia: the other tokens are the same, and so are
the reports. -/
def SteppedOver (kept stepped : List Scan) : Prop :=
  (kept.map Scan.token).filter (!·.kind.isTrivia) = stepped.map Scan.token ∧
    kept.flatMap Scan.reports = stepped.flatMap Scan.reports

namespace SteppedOver

variable {s t : Scan} {ss ts : List Scan}

theorem cons (hs : s.token.kind.isTrivia = false) (h : SteppedOver ss ts) :
    SteppedOver (s :: ss) (s :: ts) := by
  obtain ⟨htokens, hreports⟩ := h
  constructor
  · simp [hs, htokens]
  · simp [hreports]

/-- The reports on trivia are made with the next token. -/
theorem trivia (hs : s.token.kind.isTrivia = true) (h : SteppedOver ss (t :: ts)) :
    SteppedOver (s :: ss) (⟨s.reports ++ t.reports, t.token⟩ :: ts) := by
  obtain ⟨htokens, hreports⟩ := h
  constructor
  · simpa [hs] using htokens
  · simp [hreports]

theorem behind (reports : List Diagnostic) (h : SteppedOver (s :: ss) (t :: ts)) :
    SteppedOver (⟨reports ++ s.reports, s.token⟩ :: ss)
      (⟨reports ++ t.reports, t.token⟩ :: ts) := by
  obtain ⟨htokens, hreports⟩ := h
  constructor
  · simpa using htokens
  · simpa using hreports

end SteppedOver

section

variable (hs : d.Spelled)

include hs

/-- What is no trivium is scanned in the same way, unless the text behind it is not. -/
theorem steppedOver_solid (hk : ∀ op ∈ d.operators, op.kind.isTrivia = false)
    (htrivia : Lexeme.readTrivia (d.withTrivia true) text = none)
    (hsolid : Lexeme.readSolid d text = some (l, rest))
    (hrest : SteppedOver (scansFrom (d.withTrivia true) source (p.after l.text) rest)
      (scansFrom (d.withTrivia false) source (p.after l.text) rest)) :
    SteppedOver (scansFrom (d.withTrivia true) source p text)
      (scansFrom (d.withTrivia false) source p text) := by
  have hspelled : ∀ kept, (d.withTrivia kept).Spelled := fun _ => hs
  have hread := fun kept => (Lexeme.read_withTrivia htrivia kept).trans hsolid
  have htoken := fun kept => Lexeme.token?_withTrivia kept hsolid ⟨p, p.after l.text⟩
  have hreports := fun kept => Lexeme.reports_withTrivia d kept p l
  cases ht : l.token? d ⟨p, p.after l.text⟩ with
  | none =>
    obtain ⟨s, ss, hss, hkept⟩ := scansFrom_behind_skip (hspelled true) (hread true)
      ((htoken true).trans ht) source
    obtain ⟨t, ts, hts, hstepped⟩ := scansFrom_behind_skip (hspelled false) (hread false)
      ((htoken false).trans ht) source
    rw [hss, hts] at hrest
    rw [hkept, hstepped, hreports, hreports]
    exact hrest.behind _
  | some t =>
    have hkind := Lexeme.isTrivia_of_readSolid hk hsolid ht
    by_cases he : t.kind = .eof
    · have hlast := fun kept => scansFrom_of_eof (hread kept) ((htoken kept).trans ht) he source
      rw [hlast, hlast, hreports, hreports]
      exact .cons hkind ⟨rfl, rfl⟩
    · have hcons := fun kept => scansFrom_cons (hread kept) ((htoken kept).trans ht) he
        (Lexeme.text_ne_nil_of_spelled (hspelled kept) (hread kept)) source
      rw [hcons, hcons, hreports, hreports]
      exact hrest.cons hkind

omit hs in
/-- Where trivia make no tokens, fetching goes on behind what makes one where they do. -/
theorem exists_token_of_readTrivia
    (h : Lexeme.readTrivia (d.withTrivia true) text = some (l, rest)) (source : String)
    (p : Position) :
    ∃ t : Token, t.kind.isTrivia = true ∧
      l.token? (d.withTrivia true) ⟨p, p.after l.text⟩ = some t ∧
      fetch (d.withTrivia false) [] ⟨source, p, text⟩ =
        fetch (d.withTrivia false) (l.reports (d.withTrivia true) p).reverse
          ⟨source, p.after l.text, rest⟩ := by
  have htrivia : (d.withTrivia true).trivia = true := rfl
  unfold Lexeme.readTrivia at h
  rw [if_pos htrivia] at h
  split at h
  · cases h
    exact ⟨_, rfl, rfl, fetch_blank rfl (Dialect.isBlank_newline _) source p [] rest⟩
  · have hblank : ∀ c, (c ≠ '\n' && d.isBlank c) = true → (d.withTrivia false).isBlank c = true :=
      fun c hc => (Bool.and_eq_true_iff.1 hc).2
    have hrun := Scan.fetch_run rfl hblank source p [] text
    have hg : Lexeme.ofGap (readGap (fun c => c ≠ '\n' && d.isBlank c)
        (d.withTrivia false).comments [] text) = some (l, rest) := h
    rcases hgap : readGap (fun c => c ≠ '\n' && d.isBlank c) (d.withTrivia false).comments [] text
      with ⟨run, tail⟩
    rw [hgap] at hg hrun
    cases run with
    | nil => cases hg
    | cons x run =>
      cases hg
      rw [List.append_nil] at hrun
      exact ⟨_, rfl, rfl, hrun⟩

/-- What is no token in the second way is a trivium in the first way, and its reports are made with
the next token. -/
theorem steppedOver_trivia (htrivia : Lexeme.readTrivia (d.withTrivia true) text = some (l, rest))
    (hrest : SteppedOver (scansFrom (d.withTrivia true) source (p.after l.text) rest)
      (scansFrom (d.withTrivia false) source (p.after l.text) rest)) :
    SteppedOver (scansFrom (d.withTrivia true) source p text)
      (scansFrom (d.withTrivia false) source p text) := by
  have hspelled : ∀ kept, (d.withTrivia kept).Spelled := fun _ => hs
  have hread : Lexeme.read (d.withTrivia true) text = some (l, rest) := by
    rw [Lexeme.read, htrivia]
  obtain ⟨t, hkind, ht, hfetch⟩ := exists_token_of_readTrivia htrivia source p
  have hknown : t.kind ≠ .eof := by
    intro he
    rw [he] at hkind
    cases hkind
  obtain ⟨s, ss, hss, hstepped⟩ := scansFrom_of_fetch (hspelled false) hfetch
  rw [hss] at hrest
  rw [scansFrom_cons hread ht hknown (Lexeme.text_ne_nil_of_spelled (hspelled true) hread),
    hstepped]
  exact hrest.trivia hkind

/-- With and without tokens for trivia, a text has the same other tokens and the same reports. -/
theorem steppedOver_scansFrom (hk : ∀ op ∈ d.operators, op.kind.isTrivia = false)
    (source : String) (p : Position) (text : List Char) :
    SteppedOver (scansFrom (d.withTrivia true) source p text)
      (scansFrom (d.withTrivia false) source p text) := by
  obtain ⟨n, hn⟩ : ∃ n, text.length = n := ⟨_, rfl⟩
  induction n using Nat.strongRecOn generalizing p text with
  | ind n ih =>
    subst hn
    cases hread : Lexeme.read (d.withTrivia true) text with
    | none =>
      obtain rfl := Lexeme.eq_nil_of_read hread
      rw [scansFrom_end hread, scansFrom_end (Lexeme.read_nil _)]
      exact .cons rfl ⟨rfl, rfl⟩
    | some found =>
      obtain ⟨l, rest⟩ := found
      have hspelled : (d.withTrivia true).Spelled := hs
      have hshort := Lexeme.length_lt_of_read hread (Lexeme.text_ne_nil_of_spelled hspelled hread)
      have hrest := ih _ hshort (p.after l.text) rest rfl
      cases htrivia : Lexeme.readTrivia (d.withTrivia true) text with
      | none =>
        have hsolid := (Lexeme.read_withTrivia htrivia true).symm.trans hread
        exact steppedOver_solid hs hk htrivia hsolid hrest
      | some found =>
        rw [Lexeme.read, htrivia] at hread
        cases hread
        exact steppedOver_trivia hs htrivia hrest

end

end Scan

/-- Once the trivia are dropped, a text that is cut with tokens for them has the tokens that it has
without, and the same reports. An entry of the table may make the token of the end. -/
theorem tokenize_withTrivia (source : String) (hs : d.Spelled)
    (hk : ∀ op ∈ d.operators, op.kind.isTrivia = false) :
    tokenize source (d.withTrivia false) =
      ((tokenize source (d.withTrivia true)).1.filter (!·.kind.isTrivia),
        (tokenize source (d.withTrivia true)).2) := by
  obtain ⟨htokens, hreports⟩ := Scan.steppedOver_scansFrom hs hk source .start source.toList
  exact Prod.ext htokens.symm hreports.symm

/-- A semicolon ends the text behind a comment over two lines, in front of one without an end. -/
theorem tokenize_withTrivia_semicolon :
    tokenize "x /*\n*/ \n; /*" (Dialect.withTrivia
        { Dialect.expression with operators := [.punctuation ";" .eof], comments := true } false) =
      ((tokenize "x /*\n*/ \n; /*" (Dialect.withTrivia
          { Dialect.expression with operators := [.punctuation ";" .eof], comments := true }
            true)).1.filter (!·.kind.isTrivia),
        (tokenize "x /*\n*/ \n; /*" (Dialect.withTrivia
          { Dialect.expression with operators := [.punctuation ";" .eof], comments := true }
            true)).2) := by
  have hspelled : ∀ op ∈ [Operator.punctuation ";" .eof], op.spelling ≠ "" := by decide
  exact tokenize_withTrivia "x /*\n*/ \n; /*" hspelled (by decide)

end Resilient
