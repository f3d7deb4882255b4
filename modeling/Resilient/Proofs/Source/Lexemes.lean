import Mathlib.Data.List.Sort
import Resilient.Proofs.Lexeme.Beginning
import Resilient.Proofs.Source.Tokens

/-!
# The lexemes of a text

`Lexed d p text os` lists the lexemes of a text with the places where they begin; the tokens of the
text and the reports on it are read off that list (`tokenize_of_lexed`). A lexeme is cut off in the
same way when it stands alone, so each token is found again in its own stretch of text
(`tokenize_slice`). Where trivia make tokens, a lexeme makes a token or is a stray character, so the
tokens and the reports on strays cover the text without gaps or overlaps (`tokens_and_strays_tile`).
-/

namespace Resilient

/-- A lexeme of a text and the place where it begins. -/
structure Occurrence where
  place : Position
  lexeme : Lexeme

namespace Occurrence

/-- The range of text of a lexeme at its place. -/
def span (o : Occurrence) : Span := ⟨o.place, o.place.after o.lexeme.text⟩

/-- The token that the lexeme makes at its place. -/
def token? (d : Dialect) (o : Occurrence) : Option Token := o.lexeme.token? d o.span

/-- The reports on the lexeme at its place. -/
def reports (d : Dialect) (o : Occurrence) : List Diagnostic := o.lexeme.reports d o.place

end Occurrence

/-- A text that begins at a place is cut into these lexemes. -/
inductive Lexed (d : Dialect) : Position → List Char → List Occurrence → Prop where
  | nil {p : Position} : Lexed d p [] []
  | cons {p : Position} {text rest : List Char} {l : Lexeme} {os : List Occurrence}
      (h : Lexeme.read d text = some (l, rest)) (hs : Lexed d (p.after l.text) rest os) :
      Lexed d p text (⟨p, l⟩ :: os)

variable {d : Dialect} {source : String} {p : Position} {text rest : List Char} {l : Lexeme}
  {os : List Occurrence} {o : Occurrence}

/-! ### Tokens and reports are those of the lexemes -/

theorem exists_lexed (hd : d.Proper) (p : Position) (text : List Char) :
    ∃ os, Lexed d p text os := by
  obtain ⟨n, hn⟩ : ∃ n, text.length = n := ⟨_, rfl⟩
  induction n using Nat.strongRecOn generalizing p text with
  | ind n ih =>
    subst hn
    cases hread : Lexeme.read d text with
    | none =>
      rw [Lexeme.eq_nil_of_read hread]
      exact ⟨[], .nil⟩
    | some found =>
      obtain ⟨l, rest⟩ := found
      have hshort := Lexeme.length_lt_of_read hread (Lexeme.text_ne_nil_of_read hd hread)
      obtain ⟨os, hs⟩ := ih rest.length hshort (p.after l.text) rest rfl
      exact ⟨_, .cons hread hs⟩

theorem Lexed.scans (hd : d.Proper) (h : Lexed d p text os) (source : String) :
    (Scan.scansFrom d source p text).map Scan.token =
        os.filterMap (·.token? d) ++ [.atEnd (p.after text)] ∧
      (Scan.scansFrom d source p text).flatMap Scan.reports = os.flatMap (·.reports d) := by
  induction h with
  | @nil p => simp [Scan.scansFrom_end (Lexeme.read_nil d) source p]
  | @cons p text rest l os hread hs ih =>
    obtain ⟨htokens, hreports⟩ := ih
    have hend : p.after text = (p.after l.text).after rest := by
      rw [← Lexeme.read_eq hread, Position.after_append]
    rw [hend]
    cases ht : l.token? d ⟨p, p.after l.text⟩ with
    | some t =>
      have ht' : Occurrence.token? d ⟨p, l⟩ = some t := ht
      rw [Scan.scansFrom_cons hread ht (Lexeme.kind_ne_eof_of_read hd hread ht)
        (Lexeme.text_ne_nil_of_read hd hread), List.map_cons, List.flatMap_cons, htokens, hreports,
        List.filterMap_cons_some ht', List.flatMap_cons]
      exact ⟨rfl, rfl⟩
    | none =>
      have ht' : Occurrence.token? d ⟨p, l⟩ = none := ht
      obtain ⟨s, ss, hrest, htext⟩ := Scan.scansFrom_behind_skip hd.spelled hread ht source
      rw [hrest] at htokens hreports
      rw [htext, List.filterMap_cons_none ht', ← htokens, List.flatMap_cons, List.flatMap_cons,
        ← hreports]
      simp [Occurrence.reports]

/-- The tokens of a text are those of its lexemes and the end, and so are the reports. -/
theorem tokenize_of_lexed (hd : d.Proper) (h : Lexed d .start source.toList os) :
    tokenize source d =
      (os.filterMap (·.token? d) ++ [.atEnd (Position.start.after source.toList)],
        os.flatMap (·.reports d)) := by
  obtain ⟨htokens, hreports⟩ := h.scans hd source
  exact Prod.ext htokens hreports

/-! ### The text of a lexeme -/

namespace Lexed

theorem exists_read (h : Lexed d p text os) (ho : o ∈ os) :
    ∃ text rest, Lexeme.read d text = some (o.lexeme, rest) := by
  induction h with
  | nil => cases ho
  | cons hread _ ih =>
    rcases List.mem_cons.1 ho with rfl | ho
    · exact ⟨_, _, hread⟩
    · exact ih ho

theorem kind_ne_eof {t : Token} (hd : d.Proper) (h : Lexed d p text os) (ho : o ∈ os)
    (ht : o.token? d = some t) : t.kind ≠ .eof := by
  obtain ⟨_, _, hread⟩ := h.exists_read ho
  exact Lexeme.kind_ne_eof_of_read hd hread ht

/-- A lexeme is cut off in the same way when it stands alone. -/
theorem alone (hd : d.Proper) (h : Lexed d p text os) (ho : o ∈ os) (q : Position) :
    Lexed d q o.lexeme.text [⟨q, o.lexeme⟩] := by
  obtain ⟨_, _, hread⟩ := h.exists_read ho
  have halone := Lexeme.read_beginning hread (Lexeme.text_ne_nil_of_read hd hread) List.nil_prefix
  rw [List.append_nil] at halone
  exact .cons halone .nil

theorem slice (h : Lexed d p text os) (hp : p.Sees source text) (ho : o ∈ os) :
    o.span.slice source = some (String.ofList o.lexeme.text) := by
  induction h with
  | nil => cases ho
  | @cons p text rest l os hread _ ih =>
    rw [← Lexeme.read_eq hread] at hp
    rcases List.mem_cons.1 ho with rfl | ho
    · exact hp.slice
    · exact ih hp.append ho

end Lexed

/-! ### A token by itself -/

namespace Lexeme

/-- The place of a lexeme has no part in what its token is. -/
theorem token?_span {span : Span} {t : Token} (h : l.token? d span = some t) (span' : Span) :
    l.token? d span' = some ⟨t.kind, span', t.payload⟩ := by
  cases l with
  | gap run =>
    simp only [token?] at h ⊢
    split at h <;> cases h
    rename_i htrivia
    rw [if_pos htrivia]
    rfl
  | word w =>
    simp only [token?] at h ⊢
    split at h <;> cases h <;> rfl
  | newline | number n | literal l | operator op =>
    cases h
    rfl
  | stray c => cases h

theorem kind_token? (d : Dialect) (l : Lexeme) (span span' : Span) :
    (l.token? d span).map Token.kind = (l.token? d span').map Token.kind := by
  cases ht : l.token? d span with
  | some t =>
    rw [token?_span ht span']
    rfl
  | none =>
    cases ht' : l.token? d span' with
    | none => rfl
    | some t =>
      rw [token?_span ht' span] at ht
      cases ht

end Lexeme

/-- Wherever a text begins, it is cut into the same lexemes. -/
theorem Lexed.exists_at (h : Lexed d p text os) (q : Position) :
    ∃ os', Lexed d q text os' ∧ os'.map Occurrence.lexeme = os.map Occurrence.lexeme := by
  induction h generalizing q with
  | nil => exact ⟨[], .nil, rfl⟩
  | @cons p text rest l os hread _ ih =>
    obtain ⟨os', hos', hl⟩ := ih (q.after l.text)
    exact ⟨⟨q, l⟩ :: os', .cons hread hos', by rw [List.map_cons, List.map_cons, hl]⟩

theorem kinds_of_lexemes {os os' : List Occurrence}
    (h : os'.map Occurrence.lexeme = os.map Occurrence.lexeme) :
    (os'.filterMap (·.token? d)).map Token.kind = (os.filterMap (·.token? d)).map Token.kind := by
  have key : ∀ o : Occurrence,
      (o.token? d).map Token.kind = (o.lexeme.token? d (.point .start)).map Token.kind :=
    fun o => o.lexeme.kind_token? d o.span _
  have hmap : ∀ os : List Occurrence, (os.filterMap (·.token? d)).map Token.kind =
      (os.map Occurrence.lexeme).filterMap fun l =>
        (l.token? d (.point .start)).map Token.kind := by
    intro os
    simp only [List.map_filterMap, List.filterMap_map, Function.comp_def, key]
  rw [hmap, hmap, h]

/-- Wherever a text begins, its tokens are of the same kinds. -/
theorem Scan.kinds_scansFrom (hd : d.Proper) (source source' : String) (p q : Position)
    (text : List Char) :
    (Scan.scansFrom d source p text).map (·.token.kind) =
      (Scan.scansFrom d source' q text).map (·.token.kind) := by
  obtain ⟨os, hos⟩ := exists_lexed hd p text
  obtain ⟨os', hos', hl⟩ := hos.exists_at q
  have key : ∀ ss : List Scan, ss.map (·.token.kind) = (ss.map Scan.token).map Token.kind :=
    fun ss => by rw [List.map_map]; rfl
  rw [key, key, (hos.scans hd source).1, (hos'.scans hd source').1, List.map_append,
    List.map_append, kinds_of_lexemes hl]
  rfl

/-- Each token of a text that is not the end's is found again in the stretch of text that it covers:
cut by itself, that stretch is one token of the same kind with the same scalar, and then the
end. -/
theorem tokenize_slice {t : Token} (hd : d.Proper) (h : t ∈ (tokenize source d).1)
    (he : t.kind ≠ .eof) :
    ∃ text p, t.span.slice source = some text ∧ p.offset = text.utf8ByteSize ∧
      (tokenize text d).1 = [⟨t.kind, ⟨.start, p⟩, t.payload⟩, .atEnd p] := by
  obtain ⟨os, hos⟩ := exists_lexed hd .start source.toList
  rw [tokenize_of_lexed hd hos] at h
  rcases List.mem_append.1 h with h | h
  · obtain ⟨o, ho, ht⟩ := List.mem_filterMap.1 h
    have hspan : t.span = o.span := Lexeme.span_of_token? ht
    have halone : Lexed d .start (String.ofList o.lexeme.text).toList [⟨.start, o.lexeme⟩] := by
      rw [String.toList_ofList]
      exact hos.alone hd ho .start
    refine ⟨String.ofList o.lexeme.text, Position.start.after o.lexeme.text, ?_,
      (Position.after_start _).1, ?_⟩
    · rw [hspan]
      exact hos.slice (.of_source source) ho
    · have htoken := Lexeme.token?_span ht ⟨.start, Position.start.after o.lexeme.text⟩
      have htoken : Occurrence.token? d ⟨.start, o.lexeme⟩ = some _ := htoken
      rw [tokenize_of_lexed hd halone, List.filterMap_cons_some htoken, String.toList_ofList]
      rfl
  · rw [List.mem_singleton] at h
    rw [h] at he
    exact absurd rfl he

/-- A number in front of a point without digits is the same number without the point. -/
theorem tokenize_slice_number :
    ∃ x text p, Span.slice ⟨⟨0, 1, 1⟩, ⟨2, 1, 3⟩⟩ "-1.e" = some text ∧
      p.offset = text.utf8ByteSize ∧
      (tokenize text .json).1 = [⟨.number, ⟨.start, p⟩, some (.number x)⟩, .atEnd p] := by
  have hproper : Dialect.json.Proper := by
    have key : ∀ op ∈ Operator.json, op.spelling ≠ "" ∧ op.kind ≠ .eof := by decide
    exact key
  have hfirst : (tokenize "-1.e" .json).1.head? = some ⟨.number, ⟨⟨0, 1, 1⟩, ⟨2, 1, 3⟩⟩,
      some (.number (Numeral.read "-1.e".toList).1.value)⟩ := by decide +kernel
  exact ⟨_, tokenize_slice hproper (List.mem_of_mem_head? hfirst) (by simp)⟩

/-! ### Tilings -/

/-- The spans lie side by side from one place to another, and none of them is empty. -/
def Tiles (p q : Position) : List Span → Prop
  | [] => p = q
  | s :: ss => s.start = p ∧ s.start.offset < s.stop.offset ∧ Tiles s.stop q ss

theorem Tiles.starts {q : Position} {ss : List Span} (h : Tiles p q ss) :
    (∀ s ∈ ss, p.offset ≤ s.start.offset) ∧
      ss.Pairwise fun s t => s.start.offset < t.start.offset := by
  induction ss generalizing p with
  | nil => simp
  | cons s ss ih =>
    obtain ⟨rfl, hlt, hs⟩ := h
    obtain ⟨hle, hss⟩ := ih hs
    have hbehind : ∀ t ∈ ss, s.start.offset < t.start.offset :=
      fun t ht => Nat.lt_of_lt_of_le hlt (hle t ht)
    refine ⟨List.forall_mem_cons.2 ⟨Nat.le_refl _, fun t ht => Nat.le_of_lt (hbehind t ht)⟩,
      List.pairwise_cons.2 ⟨hbehind, hss⟩⟩

/-- Spans side by side are found from any list of them by sorting. -/
theorem Tiles.mergeSort_eq {q : Position} {ss ts : List Span} (h : Tiles p q ss) (hp : ts.Perm ss) :
    ts.mergeSort (fun s t => s.start.offset ≤ t.start.offset) = ss := by
  have hlt := h.starts.2
  have hle : ss.Pairwise fun s t => s.start.offset ≤ t.start.offset := hlt.imp Nat.le_of_lt
  have hsorted : (ts.mergeSort (fun s t => s.start.offset ≤ t.start.offset)).Pairwise
      fun s t => s.start.offset ≤ t.start.offset := by
    have hsort : (ts.mergeSort (fun s t => s.start.offset ≤ t.start.offset)).Pairwise
        fun s t => decide (s.start.offset ≤ t.start.offset) = true :=
      List.pairwise_mergeSort (by simpa using fun _ _ _ => Nat.le_trans)
        (by simpa using fun _ _ => Nat.le_total _ _) ts
    simpa using hsort
  have hinj : (ss.map fun s : Span => s.start.offset).Nodup :=
    List.pairwise_map.2 (hlt.imp Nat.ne_of_lt)
  have hperm := (List.mergeSort_perm ts fun s t => s.start.offset ≤ t.start.offset).trans hp
  refine hperm.eq_of_pairwise (fun s t hs ht h₁ h₂ => ?_) hsorted hle
  exact List.inj_on_of_nodup_map hinj (hperm.mem_iff.1 hs) ht (Nat.le_antisymm h₁ h₂)

theorem Lexed.tiles (hd : d.Proper) (h : Lexed d p text os) :
    Tiles p (p.after text) (os.map Occurrence.span) := by
  induction h with
  | nil => rfl
  | @cons p text rest l os hread _ ih =>
    have hl := Lexeme.text_ne_nil_of_read hd hread
    have hne : (p.after l.text).offset ≠ p.offset := fun he => hl ((p.offset_after_eq_iff _).1 he)
    rw [← Lexeme.read_eq hread, Position.after_append]
    exact ⟨rfl, Nat.lt_of_le_of_ne (p.offset_le_after _) hne.symm, ih⟩

/-! ### Strays -/

/-- The report is on a character that begins nothing. -/
def Diagnostic.isStray (r : Diagnostic) : Bool :=
  match r.fault with
  | .unrecognizedCharacter _ => true
  | _ => false

/-- Where trivia make tokens, a lexeme is a stray character, or it makes a token and no report on a
stray. -/
theorem Lexeme.stray_or_token (ht : d.trivia = true) (l : Lexeme) (p : Position) (span : Span) :
    (∃ c, l = .stray c) ∨
      (∃ t, l.token? d span = some t) ∧ ∀ r ∈ l.reports d p, r.isStray = false := by
  cases l with
  | stray c => exact .inl ⟨c, rfl⟩
  | gap run =>
    refine .inr ⟨⟨_, if_pos ht⟩, fun r hr => ?_⟩
    simp [Diagnostic.isStray, fault_of_mem_gapReports r hr]
  | newline | operator op => exact .inr ⟨⟨_, rfl⟩, by simp [reports]⟩
  | number n =>
    refine .inr ⟨⟨_, rfl⟩, ?_⟩
    simp only [reports, Numeral.reports]
    split
    · simp
    · exact List.forall_mem_singleton.2 rfl
  | literal l =>
    refine .inr ⟨⟨_, rfl⟩, fun r hr => ?_⟩
    rcases Literal.fault_of_mem_reports r hr with hf | hf | hf | hf <;>
      simp [Diagnostic.isStray, hf]
  | word w =>
    refine .inr ⟨?_, fun r hr => ?_⟩
    · simp only [token?]
      split <;> exact ⟨_, rfl⟩
    · simp only [reports] at hr
      split at hr
      · cases hr
      · rw [List.mem_singleton] at hr
        rw [hr]
        rfl

/-- Where trivia make tokens, each lexeme is covered by its token or by the report on it. -/
theorem spans_perm (ht : d.trivia = true) (os : List Occurrence) :
    ((os.filterMap (·.token? d)).map Token.span ++
      ((os.flatMap (·.reports d)).filter Diagnostic.isStray).map Diagnostic.span).Perm
        (os.map Occurrence.span) := by
  induction os with
  | nil => exact .refl _
  | cons o os ih =>
    obtain ⟨p, l⟩ := o
    rcases Lexeme.stray_or_token ht l p ⟨p, p.after l.text⟩ with ⟨c, rfl⟩ | ⟨⟨t, htoken⟩, hreports⟩
    · exact List.perm_middle.trans (ih.cons _)
    · have hspan := Lexeme.span_of_token? htoken
      have htoken : Occurrence.token? d ⟨p, l⟩ = some t := htoken
      have hnone : (Occurrence.reports d ⟨p, l⟩).filter Diagnostic.isStray = [] :=
        List.filter_eq_nil_iff.2 fun r hr => by simp [hreports r hr]
      rw [List.filterMap_cons_some htoken, List.flatMap_cons, List.filter_append, hnone,
        List.nil_append, List.map_cons, List.map_cons, hspan]
      exact ih.cons _

/-- Where trivia make tokens, a text is covered by its tokens and the reports on characters that
begin nothing: sorted by where they begin, they lie side by side from the beginning of the text to
its end, where the end's token stands, and none is empty. Such a report covers just the character
that it names. -/
theorem tokens_and_strays_tile (hd : d.Proper) (ht : d.trivia = true) (source : String) :
    ∃ ts p, (tokenize source d).1 = ts ++ [.atEnd p] ∧ (∀ t ∈ ts, t.kind ≠ .eof) ∧
      p.offset = source.utf8ByteSize ∧
      Tiles .start p ((ts.map Token.span ++
        ((tokenize source d).2.filter Diagnostic.isStray).map Diagnostic.span).mergeSort
          fun s t => s.start.offset ≤ t.start.offset) ∧
      ∀ r ∈ (tokenize source d).2, ∀ c, r.fault = .unrecognizedCharacter c →
        r.span.slice source = some (String.singleton c) := by
  obtain ⟨os, hos⟩ := exists_lexed hd .start source.toList
  have hsize := (Position.after_start source.toList).1
  rw [String.ofList_toList] at hsize
  have htiles := hos.tiles hd
  rw [tokenize_of_lexed hd hos]
  refine ⟨_, _, rfl, fun t h => ?_, hsize, ?_, fun r hr c hc => ?_⟩
  · obtain ⟨o, ho, htoken⟩ := List.mem_filterMap.1 h
    exact hos.kind_ne_eof hd ho htoken
  · rw [htiles.mergeSort_eq (spans_perm ht os)]
    exact htiles
  · obtain ⟨o, ho, hr⟩ := List.mem_flatMap.1 hr
    have hstray : r.isStray = true := by simp [Diagnostic.isStray, hc]
    obtain ⟨p, l⟩ := o
    rcases Lexeme.stray_or_token ht l p ⟨p, p.after l.text⟩ with ⟨c', rfl⟩ | ⟨-, hreports⟩
    · have hslice := hos.slice (.of_source source) ho
      obtain rfl : r = .of (.unrecognizedCharacter c') ⟨p, p.next c'⟩ := List.mem_singleton.1 hr
      cases hc
      rw [String.singleton_eq_ofList]
      exact hslice
    · rw [hreports r hr] at hstray
      cases hstray

/-- The blank, the word and the line feed make tokens, and the character between is reported. -/
theorem tokens_and_strays_tile_word :
    ∃ ts p, (tokenize " €a\n" .expression).1 = ts ++ [.atEnd p] ∧ (∀ t ∈ ts, t.kind ≠ .eof) ∧
      p.offset = " €a\n".utf8ByteSize ∧
      Tiles .start p ((ts.map Token.span ++
        ((tokenize " €a\n" .expression).2.filter Diagnostic.isStray).map Diagnostic.span).mergeSort
          fun s t => s.start.offset ≤ t.start.offset) ∧
      ∀ r ∈ (tokenize " €a\n" .expression).2, ∀ c, r.fault = .unrecognizedCharacter c →
        r.span.slice " €a\n" = some (String.singleton c) := by
  have hproper : Dialect.expression.Proper := by
    have key : ∀ op ∈ Operator.expression, op.spelling ≠ "" ∧ op.kind ≠ .eof := by decide
    exact key
  exact tokens_and_strays_tile hproper rfl " €a\n"

end Resilient
