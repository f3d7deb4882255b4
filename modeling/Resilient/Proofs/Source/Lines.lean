import Resilient.Proofs.Source.Lexemes
import Resilient.Proofs.Source.Place
import Resilient.Proofs.Source.Trivia

/-!
# Lines of a text

A line feed ends every lexeme but a string or a block comment that is still open. So a lexeme that
is read at the end of a text is read in the same way in front of a line feed (`Lexeme.read_feed`),
and behind the line feed the places are those of a text of its own, moved by the bytes and lines in
front (`Lexed.shift`). Two texts with a line feed between them are cut into the tokens of the one
and the tokens of the other (`tokenize_lines`).
-/

namespace Resilient

variable {d : Dialect} {p : Position} {text rest : List Char} {c : Char} {l : Lexeme}
  {os : List Occurrence} {o : Occurrence}

/-! ### In front of a line feed -/

theorem takeWhile_feed {q : Char → Bool} (hq : q '\n' = false) (text more : List Char) :
    (text ++ '\n' :: more).takeWhile q = text.takeWhile q ∧
      (text ++ '\n' :: more).dropWhile q = text.dropWhile q ++ '\n' :: more := by
  induction text with
  | nil => simp [hq]
  | cons c text ih =>
    obtain ⟨htake, hdrop⟩ := ih
    cases hc : q c <;> simp [hc, htake, hdrop]

theorem exists_rest_of_feed {a tail more : List Char} (h : a ++ tail = text ++ '\n' :: more)
    (ha : '\n' ∉ a) : ∃ rest, text = a ++ rest ∧ tail = rest ++ '\n' :: more := by
  rcases List.append_eq_append_iff.1 h with ⟨rest, rfl, htail⟩ | ⟨extra, rfl, htail⟩
  · exact ⟨rest, rfl, htail⟩
  · cases extra with
    | nil => exact ⟨[], by simp, htail.symm⟩
    | cons x extra =>
      rw [← (List.cons.inj htail).1] at ha
      simp at ha

/-- Blanks, or a comment with its end. -/
def Trivium.isClosed : Trivium → Bool
  | blockComment _ closed => closed
  | _ => true

/-- A lexeme that does not miss the mark at its end. -/
def Lexeme.isClosed : Lexeme → Bool
  | gap run => run.all Trivium.isClosed
  | literal l => l.closed
  | _ => true

theorem readComment_feed {t : Trivium} (h : readComment text = some (t, rest))
    (ht : t.isClosed = true) (more : List Char) :
    readComment (text ++ '\n' :: more) = some (t, rest ++ '\n' :: more) := by
  rw [← readComment_eq h, List.append_assoc]
  rcases readComment_cases h with ⟨body, rfl, hb, hr⟩ | ⟨body, closed, rfl, hb⟩
  · refine readComment_line hb (.inr ?_)
    rcases hr with rfl | hr
    · rfl
    · rw [List.head?_append, hr]
      rfl
  · obtain rfl : closed = true := ht
    simp [Trivium.text, readComment, readBlock_of_not_infix (hb rfl)]

theorem readComment_none_feed (h : readComment text = none) (more : List Char) :
    readComment (text ++ '\n' :: more) = none := by
  match text with
  | [] => rfl
  | [c] =>
    unfold readComment
    split
    · rename_i heq
      cases heq
    · rename_i heq
      cases heq
    · rfl
  | c :: x :: tail =>
    unfold readComment at h ⊢
    split at h
    · cases h
    · cases h
    · rename_i hline hblock
      split
      · rename_i heq
        cases heq
        exact absurd rfl (hline _)
      · rename_i heq
        cases heq
        exact absurd rfl (hblock _)
      · rfl

theorem readGap_feed {blank : Char → Bool} (hblank : blank '\n' = false) (comments : Bool)
    (text : List Char) (h : (readGap blank comments [] text).1.all Trivium.isClosed = true)
    (more : List Char) :
    readGap blank comments [] (text ++ '\n' :: more) =
      ((readGap blank comments [] text).1,
        (readGap blank comments [] text).2 ++ '\n' :: more) := by
  induction text using readGap_induction blank comments with
  | nil =>
    rw [readGap_nil]
    exact readGap_solid hblank fun _ => rfl
  | blanks c text hc ih =>
    obtain ⟨htake, hdrop⟩ := takeWhile_feed hblank text more
    rw [readGap_blank hc] at h ⊢
    rw [List.cons_append, readGap_blank hc, htake, hdrop, ih h]
  | comment c text t rest hcomments hc hr ih =>
    subst hcomments
    rw [readGap_comment hc hr] at h ⊢
    obtain ⟨ht, hrun⟩ : t.isClosed = true ∧
        (readGap blank true [] rest).1.all Trivium.isClosed = true := by simpa using h
    have hread := readComment_feed hr ht more
    rw [List.cons_append] at hread
    rw [List.cons_append, readGap_comment hc hread, ih hrun]
  | solid c text hc hr =>
    rw [readGap_solid hc hr]
    exact readGap_solid hc fun ha => readComment_none_feed (hr ha) more

theorem Literal.read_feed (h : (read text).1.closed = true) (more : List Char) :
    read (text ++ '\n' :: more) = ((read text).1, (read text).2 ++ '\n' :: more) := by
  obtain ⟨body, hbody, hread⟩ := readBody_closed [] text h
  have heq : text ++ '\n' :: more = body ++ '"' :: ((read text).2 ++ '\n' :: more) := by
    rw [← List.cons_append, ← List.append_assoc]
    exact congrArg (· ++ _) hbody
  rw [heq]
  exact hread _

/-! ### Numbers and operators -/

theorem AllDigits.feed_not_mem {ds : List Char} (h : AllDigits ds) : '\n' ∉ ds :=
  fun hn => absurd (h _ hn) (by decide)

theorem NumberText.feed_not_mem {x : Binary64} (h : NumberText text x) : '\n' ∉ text := by
  obtain ⟨hs, hw, hf, he, -⟩ := h
  simp only [List.mem_append, not_or]
  refine ⟨?_, ?_, ?_, ?_⟩
  · simp only [List.mem_cons, List.not_mem_nil, or_false] at hs
    rcases hs with rfl | rfl <;> decide
  · cases hw with
    | zero => decide
    | digits hc _ hds => exact AllDigits.feed_not_mem (List.forall_mem_cons.2 ⟨hc, hds⟩)
  · cases hf with
    | absent => exact List.not_mem_nil
    | digits _ hds => simpa using hds.feed_not_mem
  · cases he with
    | absent => exact List.not_mem_nil
    | digits hm hs _ hds =>
      simp only [List.mem_cons, List.not_mem_nil, or_false] at hm hs
      rcases hm with rfl | rfl <;> rcases hs with rfl | rfl | rfl <;>
        simpa using hds.feed_not_mem

namespace Numeral

theorem begins_feed (signed : Bool) (c : Char) (text more : List Char) :
    begins signed (c :: text ++ '\n' :: more) = begins signed (c :: text) := by
  cases text with
  | nil => simp [begins]
  | cons x text => rfl

/-- No numeral holds a line feed, so what is read in front of one is read at the end of the text. -/
theorem read_feed {signed : Bool} (h : begins signed text = true) (more : List Char) :
    read (text ++ '\n' :: more) = ((read text).1, (read text).2 ++ '\n' :: more) := by
  have hbegins : begins true (text ++ '\n' :: more) = true := by
    have hsigned : begins true text = true := by
      cases text with
      | nil => cases h
      | cons c text =>
        simp only [begins, Bool.or_eq_true, Bool.and_eq_true, Bool.true_and] at h ⊢
        exact h.imp_right fun h => ⟨h.1.2, h.2⟩
    exact begins_of_beginning hsigned (List.prefix_append _ _)
  rcases hn : read (text ++ '\n' :: more) with ⟨n, tail⟩
  have heq := read_eq (text ++ '\n' :: more)
  have hfeed := (numberText_of_begins hbegins).feed_not_mem
  have hw := whole_ne_nil_of_begins hbegins
  rw [hn] at heq hfeed hw
  obtain ⟨rest, rfl, rfl⟩ := exists_rest_of_feed heq hfeed
  rw [← heq] at hn
  rw [read_beginning hn hw (List.prefix_append rest ('\n' :: more))]

end Numeral

namespace Operator

theorem begins_feed {op : Operator} (h : '\n' ∉ op.spelling.toList) (text more : List Char) :
    op.begins (text ++ '\n' :: more) = op.begins text := by
  rw [begins, begins, Bool.eq_iff_iff, List.isPrefixOf_iff_prefix, List.isPrefixOf_iff_prefix]
  refine ⟨fun hp => ?_, fun hp => hp.trans (List.prefix_append _ _)⟩
  obtain ⟨tail, ht⟩ := hp
  obtain ⟨rest, hrest, -⟩ := exists_rest_of_feed ht h
  exact ⟨rest, hrest.symm⟩

theorem match?_feed {table : List Operator} (h : ∀ op ∈ table, '\n' ∉ op.spelling.toList)
    (text more : List Char) : match? table (text ++ '\n' :: more) = match? table text := by
  induction table with
  | nil => rfl
  | cons op table ih =>
    obtain ⟨hop, htable⟩ := List.forall_mem_cons.1 h
    have ih : table.find? (·.begins (text ++ '\n' :: more)) = table.find? (·.begins text) :=
      ih htable
    rw [match?, match?, List.find?_cons, List.find?_cons, begins_feed hop, ih]

end Operator

/-! ### Lexemes -/

namespace Lexeme

theorem isClosed_of_gapReports {run : List Trivium}
    (h : ∀ r ∈ gapReports p [] run, r.fault ≠ .unterminatedComment) :
    run.all Trivium.isClosed = true := by
  induction run generalizing p with
  | nil => rfl
  | cons t run ih =>
    simp only [gapReports_cons, List.forall_mem_append] at h
    obtain ⟨ht, hrun⟩ := h
    rw [List.all_cons, ih hrun, Bool.and_true]
    cases t with
    | blockComment body closed =>
      cases closed with
      | true => rfl
      | false => exact absurd rfl (ht _ (List.mem_singleton.2 rfl))
    | _ => rfl

theorem isClosed_of_reports
    (h : ∀ r ∈ l.reports d p, r.fault ≠ .unterminatedString ∧ r.fault ≠ .unterminatedComment) :
    l.isClosed = true := by
  cases l with
  | gap run => exact isClosed_of_gapReports fun r hr => (h r hr).2
  | literal lit =>
    by_contra hc
    have hc : lit.closed = false := by simpa [isClosed] using hc
    exact absurd rfl (h (.atPoint .unterminatedString (p.after lit.text))
      (by simp [reports, Literal.reports, hc])).1
  | _ => rfl

theorem ofGap_feed {blank : Char → Bool} (hblank : blank '\n' = false) {comments : Bool}
    (h : ofGap (readGap blank comments [] text) = some (l, rest)) (hl : l.isClosed = true)
    (more : List Char) :
    ofGap (readGap blank comments [] (text ++ '\n' :: more)) =
      some (l, rest ++ '\n' :: more) := by
  have hread := readGap_feed hblank comments text
  rcases hg : readGap blank comments [] text with ⟨run, tail⟩
  rw [hg] at h hread
  cases run with
  | nil => cases h
  | cons t ts =>
    cases h
    rw [hread hl more]
    rfl

theorem readTrivia_feed (hd : d.trivia = true) (h : readTrivia d text = some (l, rest))
    (hl : l.isClosed = true) (more : List Char) :
    readTrivia d (text ++ '\n' :: more) = some (l, rest ++ '\n' :: more) := by
  unfold readTrivia at h ⊢
  rw [if_pos hd] at h ⊢
  split at h
  · cases h
    rfl
  · rename_i hfeed
    split
    · -- The text would begin with the line feed or be empty.
      rename_i heq
      cases text with
      | nil => simp [readGap, ofGap] at h
      | cons c text => exact absurd (by rw [(List.cons.inj heq).1]) (hfeed text)
    · exact ofGap_feed (by simp) h hl more

theorem readTrivia_none_feed (h : readTrivia d (c :: text) = none) (more : List Char) :
    readTrivia d (c :: text ++ '\n' :: more) = none := by
  obtain ⟨hc, hcomment⟩ := (readTrivia_eq_none_iff d c text).1 h
  refine (readTrivia_eq_none_iff d c (text ++ '\n' :: more)).2 ⟨hc, fun ha => ?_⟩
  exact readComment_none_feed (hcomment ha) more

theorem readSolid_feed (hd : ∀ op ∈ d.operators, '\n' ∉ op.spelling.toList)
    (h : readSolid d text = some (l, rest)) (hl : l.isClosed = true) (more : List Char) :
    readSolid d (text ++ '\n' :: more) = some (l, rest ++ '\n' :: more) := by
  cases text with
  | nil => cases h
  | cons c text =>
    have hbegins := Numeral.begins_feed d.signedNumbers c text more
    have hword := takeWhile_feed (q := isWordChar) (by decide) (c :: text) more
    have hmatch := Operator.match?_feed hd (c :: text) more
    rw [List.cons_append] at hbegins hword hmatch ⊢
    simp only [readSolid, hbegins, hword, hmatch] at h ⊢
    split at h
    · rename_i hnumber
      cases h
      rw [if_pos hnumber, ← List.cons_append, Numeral.read_feed hnumber]
    · rename_i hnumber
      rw [if_neg hnumber]
      split at h
      · rename_i hquote
        cases h
        rw [if_pos hquote, Literal.read_feed hl]
      · rename_i hquote
        rw [if_neg hquote]
        split at h
        · rename_i hstart
          cases h
          rw [if_pos hstart]
        · rename_i hstart
          rw [if_neg hstart]
          split at h
          · rename_i op hop
            cases h
            rw [← List.cons_append, ← Operator.append_drop_of_match? hop]
            simp
          · cases h
            rfl

/-- A lexeme that is read at the end of a text is read in front of a line feed, unless the mark at
its end is missing. -/
theorem read_feed (hd : d.trivia = true) (hs : ∀ op ∈ d.operators, '\n' ∉ op.spelling.toList)
    (h : read d text = some (l, rest)) (hl : l.isClosed = true) (more : List Char) :
    read d (text ++ '\n' :: more) = some (l, rest ++ '\n' :: more) := by
  unfold read at h ⊢
  split at h
  · rename_i found hread
    cases h
    rw [readTrivia_feed hd hread hl]
  · rename_i hread
    cases text with
    | nil => cases h
    | cons c text => rw [readTrivia_none_feed hread, readSolid_feed hs h hl]

end Lexeme

/-- A text in front of a line feed, and the text behind it, are cut into lexemes by themselves. -/
theorem Lexed.append_feed {more : List Char} {os' : List Occurrence} (hd : d.trivia = true)
    (hs : ∀ op ∈ d.operators, '\n' ∉ op.spelling.toList) (h : Lexed d p text os)
    (hclosed : ∀ o ∈ os, o.lexeme.isClosed = true)
    (hmore : Lexed d ((p.after text).next '\n') more os') :
    Lexed d p (text ++ '\n' :: more) (os ++ ⟨p.after text, .newline⟩ :: os') := by
  induction h with
  | nil =>
    refine .cons ?_ hmore
    simp [Lexeme.read, Lexeme.readTrivia, hd]
  | @cons p text rest l os hread _ ih =>
    obtain ⟨hl, hclosed⟩ := List.forall_mem_cons.1 hclosed
    have htext : p.after text = (p.after l.text).after rest := by
      rw [← Lexeme.read_eq hread, Position.after_append]
    rw [htext] at hmore ⊢
    exact .cons (Lexeme.read_feed hd hs hread hl more) (ih hclosed hmore)

/-! ### Moved places -/

/-- The place behind more bytes and more lines, in the same column. -/
def Position.shift (bytes lines : Nat) (p : Position) : Position :=
  ⟨p.offset + bytes, p.line + lines, p.column⟩

/-- A range moved on by bytes and lines. -/
def Span.shift (bytes lines : Nat) (s : Span) : Span :=
  ⟨s.start.shift bytes lines, s.stop.shift bytes lines⟩

/-- A token moved on by bytes and lines. -/
def Token.shift (bytes lines : Nat) (t : Token) : Token :=
  { t with span := t.span.shift bytes lines }

/-- A report moved on by bytes and lines. -/
def Diagnostic.shift (bytes lines : Nat) (r : Diagnostic) : Diagnostic :=
  { r with span := r.span.shift bytes lines }

/-- A lexeme moved on by bytes and lines. -/
def Occurrence.shift (bytes lines : Nat) (o : Occurrence) : Occurrence :=
  { o with place := o.place.shift bytes lines }

variable {bytes lines : Nat}

namespace Position

theorem next_shift (p : Position) (c : Char) :
    (p.shift bytes lines).next c = (p.next c).shift bytes lines := by
  unfold next shift
  split <;> simp only [Nat.add_right_comm]

theorem after_shift (p : Position) (text : List Char) :
    (p.shift bytes lines).after text = (p.after text).shift bytes lines := by
  induction text generalizing p with
  | nil => rfl
  | cons c text ih => rw [after_cons, after_cons, next_shift, ih]

/-- The place behind a line is the start, moved by the line. -/
theorem next_after_start (text : List Char) :
    (start.after text).next '\n' =
      start.shift ((String.ofList text).utf8ByteSize + 1) (text.count '\n' + 1) := by
  obtain ⟨hoffset, hline, -⟩ := after_start text
  have hsize : '\n'.utf8Size = 1 := rfl
  rw [next, if_pos rfl, hoffset, hline, hsize, shift, start, Nat.zero_add, Nat.add_assoc]

end Position

namespace Literal

theorem controlReports_shift (p : Position) (found : List Diagnostic) (pieces : List Piece) :
    controlReports (p.shift bytes lines) (found.map (.shift bytes lines)) pieces =
      (controlReports p found pieces).map (.shift bytes lines) := by
  fun_induction controlReports p found pieces with
  | case1 p found => simp [controlReports]
  | case2 p found c pieces ih =>
    rw [controlReports, Position.next_shift, ← ih]
    split <;> rfl
  | case3 p found piece pieces hplain ih =>
    rw [controlReports, Position.after_shift, ih]
    exact hplain

theorem readingReports_shift (p : Position) (found : List Diagnostic) (rs : List Reading) :
    readingReports (p.shift bytes lines) (found.map (.shift bytes lines)) rs =
      (readingReports p found rs).map (.shift bytes lines) := by
  induction rs generalizing p found with
  | nil => simp [readingReports]
  | cons r rs ih =>
    rw [readingReports, readingReports, Position.after_shift, ← ih]
    cases r.fault <;> rfl

theorem reports_shift (p : Position) (l : Literal) :
    l.reports (p.shift bytes lines) = (l.reports p).map (.shift bytes lines) := by
  have hcontrol := @controlReports_shift bytes lines (p.next '"') [] l.pieces
  have hreading := @readingReports_shift bytes lines (p.next '"') [] l.interpret
  rw [List.map_nil] at hcontrol hreading
  simp only [reports, Position.next_shift, Position.after_shift, List.map_append, hcontrol,
    hreading]
  split <;> rfl

end Literal

theorem Trivium.report?_shift (p : Position) (t : Trivium) :
    t.report? (p.shift bytes lines) = (t.report? p).map (.shift bytes lines) := by
  unfold report?
  split
  · simp only [Position.after_shift]
    rfl
  · rfl

theorem gapReports_shift (p : Position) (run : List Trivium) :
    gapReports (p.shift bytes lines) [] run =
      (gapReports p [] run).map (.shift bytes lines) := by
  induction run generalizing p with
  | nil => rfl
  | cons t run ih =>
    rw [gapReports_cons, gapReports_cons, Trivium.report?_shift, Position.after_shift, ih,
      List.map_append]
    cases t.report? p <;> rfl

namespace Occurrence

theorem span_shift (o : Occurrence) :
    (o.shift bytes lines).span = o.span.shift bytes lines := by
  simp only [span, shift, Position.after_shift]
  rfl

theorem token?_shift (d : Dialect) (o : Occurrence) :
    (o.shift bytes lines).token? d = (o.token? d).map (.shift bytes lines) := by
  have key : ∀ span, o.lexeme.token? d (span.shift bytes lines) =
      (o.lexeme.token? d span).map (.shift bytes lines) := by
    intro span
    cases o.lexeme with
    | gap run | word w =>
      simp only [Lexeme.token?]
      split <;> rfl
    | newline | number n | literal lit | operator op | stray c => rfl
  rw [token?, span_shift]
  exact key o.span

theorem reports_shift (d : Dialect) (o : Occurrence) :
    (o.shift bytes lines).reports d = (o.reports d).map (.shift bytes lines) := by
  obtain ⟨p, l⟩ := o
  cases l with
  | gap run => exact gapReports_shift p run
  | literal lit => exact Literal.reports_shift p lit
  | number n =>
    simp only [shift, reports, Lexeme.reports, Numeral.reports, Position.after_shift]
    split <;> rfl
  | word w =>
    simp only [shift, reports, Lexeme.reports, Position.after_shift]
    split <;> rfl
  | stray c =>
    simp only [shift, reports, Lexeme.reports, Position.next_shift]
    rfl
  | newline | operator op => rfl

theorem filterMap_shift (d : Dialect) (os : List Occurrence) :
    (os.map (Occurrence.shift bytes lines)).filterMap (·.token? d) =
      (os.filterMap (·.token? d)).map (Token.shift bytes lines) := by
  simp only [List.filterMap_map, List.map_filterMap, Function.comp_def, token?_shift]

theorem flatMap_shift (d : Dialect) (os : List Occurrence) :
    (os.map (Occurrence.shift bytes lines)).flatMap (·.reports d) =
      (os.flatMap (·.reports d)).map (Diagnostic.shift bytes lines) := by
  simp only [List.flatMap_map, List.map_flatMap, reports_shift]

end Occurrence

/-- Where a text begins has no part in how it is cut. -/
theorem Lexed.shift (h : Lexed d p text os) (bytes lines : Nat) :
    Lexed d (p.shift bytes lines) text (os.map (.shift bytes lines)) := by
  induction h with
  | nil => exact .nil
  | cons hread _ ih =>
    rw [← Position.after_shift] at ih
    exact .cons hread ih

/-! ### Tokens without trivia -/

section

variable (ts : List Token)

theorem filter_newline (span : Span) :
    (Token.bare .newline span :: ts).filter (!·.kind.isTrivia) = ts.filter (!·.kind.isTrivia) :=
  rfl

theorem filter_shift (bytes lines : Nat) :
    (ts.map (Token.shift bytes lines)).filter (!·.kind.isTrivia) =
      (ts.filter (!·.kind.isTrivia)).map (Token.shift bytes lines) :=
  List.filter_map

theorem filter_dropLast_atEnd (p : Position) :
    ((ts ++ [Token.atEnd p]).filter (!·.kind.isTrivia)).dropLast =
      ts.filter (!·.kind.isTrivia) := by
  rw [List.filter_append]
  exact List.dropLast_concat

end

/-! ### Lines -/

section

variable (hs : ∀ op ∈ d.operators, '\n' ∉ op.spelling.toList) (hp : d.Proper)

include hs hp

/-- Where line feeds make tokens, a text is cut into the tokens of its lines. -/
theorem tokenize_lines_of_trivia (hd : d.trivia = true) (a b : String)
    (ha : ∀ r ∈ (tokenize a d).2, r.fault ≠ .unterminatedString ∧ r.fault ≠ .unterminatedComment) :
    tokenize (a ++ "\n" ++ b) d =
      ((tokenize a d).1.dropLast ++
          .bare .newline ⟨Position.start.after a.toList,
            (Position.start.after a.toList).next '\n'⟩ ::
          (tokenize b d).1.map (.shift (a.utf8ByteSize + 1) (a.toList.count '\n' + 1)),
        (tokenize a d).2 ++
          (tokenize b d).2.map (.shift (a.utf8ByteSize + 1) (a.toList.count '\n' + 1))) := by
  obtain ⟨os, hos⟩ := exists_lexed hp .start a.toList
  obtain ⟨os', hos'⟩ := exists_lexed hp .start b.toList
  have htokens := tokenize_of_lexed hp hos
  have htokens' := tokenize_of_lexed hp hos'
  have hclosed : ∀ o ∈ os, o.lexeme.isClosed = true := by
    intro o ho
    refine Lexeme.isClosed_of_reports (d := d) (p := o.place) fun r hr => ha r ?_
    rw [htokens]
    exact List.mem_flatMap.2 ⟨o, ho, hr⟩
  have hbytes := Position.next_after_start a.toList
  rw [String.ofList_toList] at hbytes
  have htext : (a ++ "\n" ++ b).toList = a.toList ++ '\n' :: b.toList := by simp
  have hlines := hos'.shift (a.utf8ByteSize + 1) (a.toList.count '\n' + 1)
  rw [← hbytes] at hlines
  have hall := hos.append_feed hd hs hclosed hlines
  rw [← htext] at hall
  have hend : Position.start.after (a ++ "\n" ++ b).toList =
      (Position.start.after b.toList).shift (a.utf8ByteSize + 1) (a.toList.count '\n' + 1) := by
    rw [htext, Position.after_append, Position.after_cons, hbytes, Position.after_shift]
  have hfeed : Occurrence.token? d ⟨Position.start.after a.toList, .newline⟩ =
      some (.bare .newline ⟨Position.start.after a.toList,
        (Position.start.after a.toList).next '\n'⟩) := rfl
  rw [tokenize_of_lexed hp hall, hend, htokens, htokens', List.dropLast_concat,
    List.filterMap_append, List.flatMap_append, List.filterMap_cons_some hfeed, List.flatMap_cons,
    Occurrence.filterMap_shift, Occurrence.flatMap_shift, List.map_append, List.append_assoc]
  rfl

end

/-- Two texts with a line feed between them are cut into the tokens of the one before its end, the
token of the line feed where it makes one, and the tokens of the other, moved by the bytes and lines
in front of it; and so are the reports, unless the first text ends within a string or a comment. -/
theorem tokenize_lines (a b : String)
    (hd : d.operators = Operator.json ∨ d.operators = Operator.expression)
    (ha : ∀ r ∈ (tokenize a d).2, r.fault ≠ .unterminatedString ∧ r.fault ≠ .unterminatedComment) :
    tokenize (a ++ "\n" ++ b) d =
      ((tokenize a d).1.dropLast ++
          (if d.trivia then [.bare .newline ⟨Position.start.after a.toList,
            (Position.start.after a.toList).next '\n'⟩] else []) ++
          (tokenize b d).1.map (.shift (a.utf8ByteSize + 1) (a.toList.count '\n' + 1)),
        (tokenize a d).2 ++
          (tokenize b d).2.map (.shift (a.utf8ByteSize + 1) (a.toList.count '\n' + 1))) := by
  have htable : ∀ op ∈ d.operators, op.spelling ≠ "" ∧ op.kind ≠ .eof ∧
      '\n' ∉ op.spelling.toList ∧ op.kind.isTrivia = false := by
    rcases hd with h | h <;> rw [h] <;> decide
  have hp : d.Proper := fun op hop => ⟨(htable op hop).1, (htable op hop).2.1⟩
  have hs : ∀ op ∈ d.operators, '\n' ∉ op.spelling.toList := fun op hop => (htable op hop).2.2.1
  cases htrivia : d.trivia with
  | true =>
    rw [tokenize_lines_of_trivia hs hp htrivia a b ha]
    simp
  | false =>
    have hk : ∀ op ∈ d.operators, op.kind.isTrivia = false := fun op hop => (htable op hop).2.2.2
    have hproper : (d.withTrivia true).Proper := hp
    have hoff : d.withTrivia false = d := by rw [Dialect.withTrivia, ← htrivia]
    -- Both ways of cutting give the same tokens but for the trivia, and the same reports.
    have hstep : ∀ source, tokenize source d =
        ((tokenize source (d.withTrivia true)).1.filter (!·.kind.isTrivia),
          (tokenize source (d.withTrivia true)).2) := by
      intro source
      obtain ⟨htokens, hreports⟩ :=
        Scan.steppedOver_scansFrom hp.spelled hk source .start source.toList
      rw [hoff] at htokens hreports
      exact Prod.ext htokens.symm hreports.symm
    rw [hstep] at ha
    obtain ⟨os, hos⟩ := exists_lexed hproper .start a.toList
    have hlast := congrArg Prod.fst (tokenize_of_lexed hproper hos)
    rw [hstep, hstep a, hstep b,
      tokenize_lines_of_trivia (d := d.withTrivia true) hs hproper rfl a b ha, hlast,
      List.dropLast_concat, filter_dropLast_atEnd, List.filter_append, filter_newline,
      filter_shift, if_neg Bool.false_ne_true, List.append_nil]

/-- A comment ends with the line, and a string behind it is read as one of its own. -/
theorem tokenize_lines_comment :
    tokenize ("[1e // é" ++ "\n" ++ "\"x\" tru") { Dialect.json with comments := true } =
      ((tokenize "[1e // é" { Dialect.json with comments := true }).1.dropLast ++
          (if false then [.bare .newline ⟨Position.start.after "[1e // é".toList,
            (Position.start.after "[1e // é".toList).next '\n'⟩] else []) ++
          (tokenize "\"x\" tru" { Dialect.json with comments := true }).1.map
            (.shift ("[1e // é".utf8ByteSize + 1) ("[1e // é".toList.count '\n' + 1)),
        (tokenize "[1e // é" { Dialect.json with comments := true }).2 ++
          (tokenize "\"x\" tru" { Dialect.json with comments := true }).2.map
            (.shift ("[1e // é".utf8ByteSize + 1) ("[1e // é".toList.count '\n' + 1))) := by
  have hreports : ∀ r ∈ (tokenize "[1e // é" { Dialect.json with comments := true }).2,
      r.fault ≠ .unterminatedString ∧ r.fault ≠ .unterminatedComment := by decide +kernel
  exact tokenize_lines "[1e // é" "\"x\" tru" (.inl rfl) hreports

end Resilient
