import Mathlib.Data.List.TakeWhile
import Resilient.Proofs.Scan

/-!
# What may stand between two tokens

`GapText` says which texts separate tokens, `LastComment` which ones may end a text.
`scansFrom_gap` says that such a text is stepped over without a report, and `gapText_of_readGap`
that nothing else is.
-/

namespace Resilient

/-- White space and, where they are allowed, comments; a line comment includes its line feed. -/
inductive GapText (comments : Bool) : List Char → Prop where
  | nil : GapText comments []
  | blank {c : Char} {text : List Char} (hc : c ∈ [' ', '\t', '\n', '\r'])
      (h : GapText comments text) : GapText comments (c :: text)
  | lineComment {body text : List Char} (allowed : comments = true) (hb : '\n' ∉ body)
      (h : GapText comments text) : GapText comments ('/' :: '/' :: (body ++ '\n' :: text))
  | blockComment {body text : List Char} (allowed : comments = true)
      (hb : ¬ ['*', '/'] <:+: body) (h : GapText comments text) :
      GapText comments ('/' :: '*' :: (body ++ '*' :: '/' :: text))

/-- Nothing, or a line comment that the end of the text closes. -/
inductive LastComment (comments : Bool) : List Char → Prop where
  | nil : LastComment comments []
  | lineComment {body : List Char} (allowed : comments = true) (hb : '\n' ∉ body) :
      LastComment comments ('/' :: '/' :: body)

namespace GapText

variable {comments : Bool} {s t : List Char}

theorem append (hs : GapText comments s) (ht : GapText comments t) : GapText comments (s ++ t) := by
  induction hs with
  | nil => exact ht
  | blank hc _ ih => exact .blank hc ih
  | lineComment allowed hb _ ih => simpa using lineComment allowed hb ih
  | blockComment allowed hb _ ih => simpa using blockComment allowed hb ih

theorem blanks (h : ∀ c ∈ s, isJsonBlank c = true) : GapText comments s := by
  induction s with
  | nil => exact .nil
  | cons c s ih =>
    have hc := h c (by simp)
    simp only [isJsonBlank, Bool.or_eq_true, decide_eq_true_eq, or_assoc] at hc
    exact .blank (by simpa using hc) (ih fun x hx => h x (by simp [hx]))

end GapText

theorem isJsonBlank_of_mem {c : Char} (h : c ∈ [' ', '\t', '\n', '\r']) : isJsonBlank c = true := by
  simp only [List.mem_cons, List.not_mem_nil, or_false] at h
  simp only [isJsonBlank, Bool.or_eq_true, decide_eq_true_eq, or_assoc]
  exact h

/-! ### Comments -/

theorem readComment_line {body rest : List Char} (hb : '\n' ∉ body)
    (hr : rest = [] ∨ rest.head? = some '\n') :
    readComment ('/' :: '/' :: (body ++ rest)) = some (.lineComment body, rest) := by
  have hall : ∀ c ∈ body, decide (c ≠ '\n') = true := by
    intro c hc
    refine decide_eq_true ?_
    rintro rfl
    exact hb hc
  have hstop : rest.takeWhile (fun c => decide (c ≠ '\n')) = [] ∧
      rest.dropWhile (fun c => decide (c ≠ '\n')) = rest := by
    cases rest with
    | nil => exact ⟨rfl, rfl⟩
    | cons c rest =>
      obtain rfl : c = '\n' := by simpa using hr
      simp
  simp only [readComment, List.takeWhile_append_of_pos hall, List.dropWhile_append_of_pos hall,
    hstop, List.append_nil]

theorem readBlock_of_not_infix {body : List Char} (h : ¬ ['*', '/'] <:+: body)
    (done rest : List Char) :
    readBlock done (body ++ '*' :: '/' :: rest) = (done.reverse ++ body, true, rest) := by
  induction body generalizing done with
  | nil => simp [readBlock]
  | cons c body ih =>
    have hb : ¬ ['*', '/'] <:+: body := fun hi => h (hi.trans (List.suffix_cons c body).isInfix)
    have hc : ∀ tail, c = '*' → body ++ '*' :: '/' :: rest ≠ '/' :: tail := by
      rintro tail rfl he
      cases body with
      | nil => simp at he
      | cons x body =>
        simp only [List.cons_append, List.cons.injEq] at he
        exact h ⟨[], body, by simp [he.1]⟩
    rw [List.cons_append, readBlock, ih hb]
    · simp
    · exact hc

theorem not_infix_of_readBlock (done text : List Char) :
    ∃ body, (readBlock done text).1 = done.reverse ++ body ∧
      ((readBlock done text).2.1 = true → ¬ ['*', '/'] <:+: body) := by
  fun_induction readBlock done text with
  | case1 done => exact ⟨[], by simp, by simp⟩
  | case2 done rest => exact ⟨[], by simp, by simp⟩
  | case3 done c rest hne ih =>
    obtain ⟨body, hb, hi⟩ := ih
    refine ⟨c :: body, by simp [hb], fun hc hin => ?_⟩
    have heq := readBlock_eq (c :: done) rest
    rw [hb, hc] at heq
    rcases List.infix_cons_iff.1 hin with hp | hin
    · obtain ⟨tail, ht⟩ := hp
      simp only [List.cons_append, List.nil_append, List.cons.injEq] at ht
      refine hne (tail ++ '*' :: '/' :: (readBlock (c :: done) rest).2.2) ht.1.symm ?_
      rw [← ht.2] at heq
      simpa using heq.symm
    · exact hi hc hin

/-- What a comment can be. -/
theorem readComment_cases {text rest : List Char} {t : Trivium}
    (h : readComment text = some (t, rest)) :
    (∃ body, t = .lineComment body ∧ '\n' ∉ body ∧ (rest = [] ∨ rest.head? = some '\n')) ∨
      ∃ body closed, t = .blockComment body closed ∧
        (closed = true → ¬ ['*', '/'] <:+: body) := by
  unfold readComment at h
  split at h
  · rename_i body
    cases h
    refine .inl ⟨_, rfl, fun hn => ?_, ?_⟩
    · simpa using List.mem_takeWhile_imp hn
    · have hn := List.head?_dropWhile_not (fun c => decide (c ≠ '\n')) body
      cases hd : body.dropWhile (fun c => decide (c ≠ '\n')) with
      | nil => exact .inl rfl
      | cons c rest =>
        rw [hd] at hn
        exact .inr (by simpa using hn)
  · rename_i body
    cases h
    obtain ⟨body', hb, hi⟩ := not_infix_of_readBlock [] body
    refine .inr ⟨_, _, rfl, fun hc => ?_⟩
    rw [hb]
    exact hi hc
  · cases h

/-! ### The longest run -/

section

variable {blank : Char → Bool} {comments : Bool} {c : Char} {text rest : List Char} {t : Trivium}

/-- Trivia read before stand in front and change nothing else. -/
theorem readGap_onto (blank : Char → Bool) (comments : Bool) (done : List Trivium)
    (text : List Char) :
    readGap blank comments done text =
      (done.reverse ++ (readGap blank comments [] text).1, (readGap blank comments [] text).2) := by
  obtain ⟨n, hn⟩ : ∃ n, text.length = n := ⟨_, rfl⟩
  induction n using Nat.strongRecOn generalizing done text with
  | ind n ih =>
    subst hn
    rw [readGap.eq_def blank comments done, readGap.eq_def blank comments []]
    cases text with
    | nil => simp
    | cons c text =>
      have hl : (text.dropWhile blank).length < (c :: text).length :=
        Nat.lt_succ_of_le (List.dropWhile_sublist _).length_le
      simp only
      split
      · rw [ih _ hl (_ :: done) _ rfl, ih _ hl [_] _ rfl]
        simp
      · split
        · split
          · rename_i t rest' hr
            have hl := length_lt_of_readComment hr
            rw [ih _ hl (_ :: done) _ rfl, ih _ hl [_] _ rfl]
            simp
          · simp
        · simp

theorem readGap_blank (hc : blank c = true) :
    readGap blank comments [] (c :: text) =
      (.blanks c (text.takeWhile blank) :: (readGap blank comments [] (text.dropWhile blank)).1,
        (readGap blank comments [] (text.dropWhile blank)).2) := by
  rw [readGap]
  simp only [hc, if_true]
  rw [readGap_onto]
  simp

theorem readGap_comment (hc : blank c = false) (h : readComment (c :: text) = some (t, rest)) :
    readGap blank true [] (c :: text) =
      (t :: (readGap blank true [] rest).1, (readGap blank true [] rest).2) := by
  rw [readGap]
  simp only [hc, Bool.false_eq_true, if_false, if_true]
  split
  · rename_i t' rest' hr
    rw [h] at hr
    cases hr
    rw [readGap_onto]
    simp
  · rename_i hr
    rw [h] at hr
    cases hr

theorem readGap_solid (hc : blank c = false)
    (h : comments = true → readComment (c :: text) = none) :
    readGap blank comments [] (c :: text) = ([], c :: text) := by
  rw [readGap]
  simp only [hc, Bool.false_eq_true, if_false]
  split
  · rename_i hcomments
    split
    · rename_i hr
      rw [h hcomments] at hr
      cases hr
    · rfl
  · rfl

theorem readGap_nil : readGap blank comments [] [] = ([], []) := by
  simp [readGap]

/-- A run goes on behind blanks and behind a comment, and ends in front of anything else. -/
theorem readGap_induction (blank : Char → Bool) (comments : Bool) {motive : List Char → Prop}
    (nil : motive [])
    (blanks : ∀ c text, blank c = true → motive (text.dropWhile blank) → motive (c :: text))
    (comment : ∀ c text t rest, comments = true → blank c = false →
      readComment (c :: text) = some (t, rest) → motive rest → motive (c :: text))
    (solid : ∀ c text, blank c = false → (comments = true → readComment (c :: text) = none) →
      motive (c :: text)) (text : List Char) : motive text := by
  obtain ⟨n, hn⟩ : ∃ n, text.length = n := ⟨_, rfl⟩
  induction n using Nat.strongRecOn generalizing text with
  | ind n ih =>
    subst hn
    cases text with
    | nil => exact nil
    | cons c text =>
      cases hc : blank c with
      | true =>
        have hl : (text.dropWhile blank).length < (c :: text).length :=
          Nat.lt_succ_of_le (List.dropWhile_sublist _).length_le
        exact blanks c text hc (ih _ hl _ rfl)
      | false =>
        cases hr : if comments then readComment (c :: text) else none with
        | none => exact solid c text hc fun ha => by simpa [ha] using hr
        | some r =>
          obtain ⟨t, rest⟩ := r
          obtain ⟨ha, hr⟩ : comments = true ∧ readComment (c :: text) = some (t, rest) := by
            simpa using hr
          exact comment c text t rest ha hc hr (ih _ (length_lt_of_readComment hr) _ rfl)

theorem gapReports_onto (p : Position) (found : List Diagnostic) (run : List Trivium) :
    gapReports p found run = found.reverse ++ gapReports p [] run := by
  induction run generalizing p found with
  | nil => simp [gapReports]
  | cons t run ih =>
    rw [gapReports, gapReports, ih, ih _ (_ ++ [])]
    cases t.report? p <;> simp

theorem gapReports_cons (p : Position) (t : Trivium) (run : List Trivium) :
    gapReports p [] (t :: run) = (t.report? p).toList ++ gapReports (p.after t.text) [] run := by
  rw [gapReports, gapReports_onto]
  cases t.report? p <;> simp

theorem readGap_dropWhile (blank : Char → Bool) (comments : Bool) (p : Position)
    (text : List Char) :
    (readGap blank comments [] (text.dropWhile blank)).2 = (readGap blank comments [] text).2 ∧
      (p.after (text.takeWhile blank)).after
          ((readGap blank comments [] (text.dropWhile blank)).1.flatMap Trivium.text) =
        p.after ((readGap blank comments [] text).1.flatMap Trivium.text) ∧
      gapReports (p.after (text.takeWhile blank)) []
          (readGap blank comments [] (text.dropWhile blank)).1 =
        gapReports p [] (readGap blank comments [] text).1 := by
  cases text with
  | nil => exact ⟨rfl, rfl, rfl⟩
  | cons c text =>
    by_cases hc : blank c = true
    · simp [readGap_blank hc, hc, Trivium.text, Position.after_append, gapReports_cons,
        Trivium.report?]
    · simp [hc]

end

/-! ### Stepping over -/

theorem Lexeme.read_nil (d : Dialect) : read d [] = none := by
  have hgap : ∀ blank comments, ofGap (readGap blank comments [] []) = none := by
    intro blank comments
    simp [readGap, ofGap]
  simp only [read, readTrivia, hgap, ite_self]
  rfl

namespace Scan

variable {d : Dialect} {text : List Char}

/-- Where trivia make no tokens, fetching begins behind the longest run of them. -/
theorem fetch_gap (hd : d.trivia = false) (source : String) (p : Position)
    (found : List Diagnostic) (text : List Char) :
    fetch d found ⟨source, p, text⟩ =
      fetch d ((gapReports p [] (readGap d.isBlank d.comments [] text).1).reverse ++ found)
        ⟨source, p.after ((readGap d.isBlank d.comments [] text).1.flatMap Trivium.text),
          (readGap d.isBlank d.comments [] text).2⟩ := by
  have heq := readGap_eq d.isBlank d.comments [] text
  rcases hg : readGap d.isBlank d.comments [] text with ⟨run, rest⟩
  rw [hg] at heq
  cases run with
  | nil =>
    have hr : rest = text := by simpa using heq
    simp [hr, gapReports]
  | cons t run =>
    have hr : Lexeme.read d text = some (.gap (t :: run), rest) := by
      simp [Lexeme.read, Lexeme.readTrivia, hd, hg, Lexeme.ofGap]
    rw [fetch_of_skip hr (by simp [Lexeme.token?, hd])]
    simp [Lexeme.reports, Lexeme.text]

theorem fetch_blank (hd : d.trivia = false) {c : Char} (hc : d.isBlank c = true)
    (source : String) (p : Position) (found : List Diagnostic) (text : List Char) :
    fetch d found ⟨source, p, c :: text⟩ = fetch d found ⟨source, p.next c, text⟩ := by
  obtain ⟨h₁, h₂, h₃⟩ := readGap_dropWhile d.isBlank d.comments (p.next c) text
  rw [fetch_gap hd source p found (c :: text), fetch_gap hd source (p.next c) found text,
    readGap_blank hc]
  simp only [gapReports_cons, Trivium.report?, Option.toList_none, List.nil_append, Trivium.text,
    List.flatMap_cons, Position.after_cons, Position.after_append, h₁, h₂, h₃]

theorem fetch_comment (hd : d.trivia = false) (hc : d.comments = true) {p : Position}
    {t : Trivium} {c : Char} {rest : List Char} (hb : d.isBlank c = false)
    (h : readComment (c :: text) = some (t, rest)) (source : String) (found : List Diagnostic) :
    fetch d found ⟨source, p, c :: text⟩ =
      fetch d ((t.report? p).toList ++ found) ⟨source, p.after t.text, rest⟩ := by
  rw [fetch_gap hd source p found (c :: text), fetch_gap hd source (p.after t.text), hc,
    readGap_comment hb h]
  cases hr : t.report? p <;>
    simp only [gapReports_cons, hr, Option.toList_none, Option.toList_some, List.nil_append,
      List.reverse_append, List.reverse_singleton, List.append_assoc, List.flatMap_cons,
      Position.after_append]

section

variable (hd : d.trivia = false) (hu : d.unicodeBlanks = false) (hp : d.Proper)

include hd hu hp

theorem scansFrom_gap {w : List Char} (hw : GapText d.comments w) (source : String)
    (p : Position) (text : List Char) :
    scansFrom d source p (w ++ text) = scansFrom d source (p.after w) text := by
  have hmoves := moves_of_proper hp
  have hslash : d.isBlank '/' = false := by simp [Dialect.isBlank, hu, isJsonBlank]
  induction hw generalizing p with
  | nil => rfl
  | @blank c w hc _ ih =>
    have hb : d.isBlank c = true := by simp [Dialect.isBlank, hu, isJsonBlank_of_mem hc]
    rw [List.cons_append, Position.after_cons, ← ih]
    exact scansFrom_congr (fetch_blank hd hb _ _ _ _) (hmoves _) (hmoves _)
  | @lineComment body w allowed hb _ ih =>
    have hr : readComment ('/' :: '/' :: (body ++ '\n' :: (w ++ text))) =
        some (.lineComment body, '\n' :: (w ++ text)) := readComment_line hb (.inr rfl)
    have hn : d.isBlank '\n' = true := by simp [Dialect.isBlank, hu, isJsonBlank]
    have h₁ := fetch_comment hd allowed hslash hr (p := p) source []
    have h₂ := fetch_blank hd hn source (p.after ('/' :: '/' :: body)) [] (w ++ text)
    have heq : '/' :: '/' :: (body ++ '\n' :: w) ++ text =
        '/' :: '/' :: (body ++ '\n' :: (w ++ text)) := by simp
    rw [heq, scansFrom_congr (h₁.trans h₂) (hmoves _) (hmoves _), ih]
    simp [Position.after_append]
  | @blockComment body w allowed hb _ ih =>
    have hr : readComment ('/' :: '*' :: (body ++ '*' :: '/' :: (w ++ text))) =
        some (.blockComment body true, w ++ text) := by
      simp [readComment, readBlock_of_not_infix hb]
    have h := fetch_comment hd allowed hslash hr (p := p) source []
    have heq : '/' :: '*' :: (body ++ '*' :: '/' :: w) ++ text =
        '/' :: '*' :: (body ++ '*' :: '/' :: (w ++ text)) := by simp
    rw [heq, scansFrom_congr h (hmoves _) (hmoves _), ih]
    simp [Trivium.text, Position.after_append]

theorem scansFrom_lastComment {t : List Char} (ht : LastComment d.comments t) (source : String)
    (p : Position) : scansFrom d source p t = [⟨[], .atEnd (p.after t)⟩] := by
  cases ht with
  | nil => exact scansFrom_end (Lexeme.read_nil d) source p
  | @lineComment body allowed hb =>
    have hslash : d.isBlank '/' = false := by simp [Dialect.isBlank, hu, isJsonBlank]
    have hr := readComment_line hb (.inl rfl)
    rw [List.append_nil] at hr
    have h := fetch_comment hd allowed hslash hr (p := p) source []
    rw [scansFrom_congr h (moves_of_proper hp _) (moves_of_proper hp _)]
    exact scansFrom_end (Lexeme.read_nil d) source _

end

end Scan

/-! ### Nothing else is stepped over -/

/-- A run of trivia without a report separates tokens, or it ends the text with a line comment. -/
theorem gapText_of_readGap {comments : Bool} (p : Position) (text : List Char)
    (h : gapReports p [] (readGap isJsonBlank comments [] text).1 = []) :
    ∃ w t, (readGap isJsonBlank comments [] text).1.flatMap Trivium.text = w ++ t ∧
      GapText comments w ∧ LastComment comments t ∧
      (t ≠ [] → (readGap isJsonBlank comments [] text).2 = []) := by
  induction text using readGap_induction isJsonBlank comments generalizing p with
  | nil => exact ⟨[], [], by simp [readGap_nil], .nil, .nil, by simp [readGap_nil]⟩
  | blanks c text hc ih =>
    rw [readGap_blank hc] at h ⊢
    rw [gapReports_cons] at h
    obtain ⟨w, t, hwt, hw, ht, he⟩ := ih _ (List.append_eq_nil_iff.1 h).2
    have hb : GapText comments (c :: text.takeWhile isJsonBlank) := by
      refine .blanks ?_
      simpa [hc] using fun x hx => List.mem_takeWhile_imp hx
    exact ⟨_, t, by simp [Trivium.text, hwt], hb.append hw, ht, he⟩
  | comment c text t rest hcomments hc hr ih =>
    subst hcomments
    rw [readGap_comment hc hr] at h ⊢
    rw [gapReports_cons] at h
    obtain ⟨hclosed, h⟩ := List.append_eq_nil_iff.1 h
    obtain ⟨w, t', hwt, hw, ht, he⟩ := ih _ h
    have hclosed : t.report? p = none := by simpa using hclosed
    rw [List.flatMap_cons, hwt]
    rcases readComment_cases hr with ⟨body, rfl, hb, hrest⟩ | ⟨body, closed, rfl, hb⟩
    · rcases hrest with rfl | hrest
      · rw [readGap_nil] at hwt ⊢
        obtain ⟨rfl, rfl⟩ := List.append_eq_nil_iff.1 hwt.symm
        exact ⟨[], _, by simp [Trivium.text], .nil, .lineComment rfl hb, fun _ => rfl⟩
      · obtain ⟨rest, rfl⟩ : ∃ r, rest = '\n' :: r := by
          cases rest with
          | nil => cases hrest
          | cons c rest => exact ⟨rest, by simpa using hrest⟩
        -- The run goes on with the line feed, which belongs to the comment.
        have hn : ∃ w', w = '\n' :: w' := by
          rw [readGap_blank (by decide), List.flatMap_cons] at hwt
          cases w with
          | nil => cases ht <;> simp [Trivium.text] at hwt
          | cons c w =>
            simp only [Trivium.text, List.cons_append, List.cons.injEq] at hwt
            exact ⟨w, by rw [← hwt.1]⟩
        obtain ⟨w, rfl⟩ := hn
        have hw' : GapText true w := by
          cases hw with
          | blank _ hw => exact hw
        refine ⟨_, t', ?_, .lineComment rfl hb hw', ht, he⟩
        simp [Trivium.text]
    · obtain rfl : closed = true := by
        cases closed
        · cases hclosed
        · rfl
      refine ⟨_, t', ?_, .blockComment rfl (hb rfl) hw, ht, he⟩
      simp [Trivium.text]
  | solid c text hc hr =>
    rw [readGap_solid hc hr]
    exact ⟨[], [], rfl, .nil, .nil, by simp⟩

end Resilient
