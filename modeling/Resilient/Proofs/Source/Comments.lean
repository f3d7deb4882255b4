import Resilient.Proofs.Source.Lexemes
import Resilient.Proofs.Source.Trivia

/-!
# Texts without comments

Allowing comments changes how a text is cut only if a comment begins between two lexemes: otherwise
the text has the same lexemes, tokens and reports (`tokenize_withComments`). What begins with one of
the characters that open comments is an operator or a stray character (`Lexeme.mark_of_read`).
-/

namespace Resilient

variable {d : Dialect} {source : String} {p : Position} {text rest : List Char} {c : Char}
  {l : Lexeme} {os : List Occurrence}

theorem exists_cons_of_readComment (h : readComment text ≠ none) :
    ∃ c rest, text = '/' :: c :: rest ∧ (c = '/' ∨ c = '*') := by
  unfold readComment at h
  split at h
  · exact ⟨_, _, rfl, .inl rfl⟩
  · exact ⟨_, _, rfl, .inr rfl⟩
  · exact absurd rfl h

/-- Where no comment follows a run of blanks, the run goes no further with comments. -/
theorem readGap_of_no_comment {blank : Char → Bool}
    (h : readComment (readGap blank false [] text).2 = none) :
    readGap blank true [] text = readGap blank false [] text := by
  induction text using readGap_induction blank false with
  | nil => rw [readGap_nil, readGap_nil]
  | blanks c text hc ih =>
    rw [readGap_blank hc] at h
    rw [readGap_blank hc, readGap_blank hc, ih h]
  | comment _ _ _ _ hfalse => cases hfalse
  | solid c text hc _ =>
    rw [readGap_solid hc (by simp)] at h
    rw [readGap_solid hc fun _ => h, readGap_solid hc (by simp)]

/-! ### Lexemes -/

namespace Lexeme

theorem readSolid_withComments (d : Dialect) (allowed : Bool) (text : List Char) :
    readSolid (d.withComments allowed) text = readSolid d text := by
  cases text <;> rfl

theorem ofGap_of_no_comment {blank : Char → Bool} (hrest : readComment rest = none)
    (h : ofGap (readGap blank false [] text) = some (l, rest)) :
    ofGap (readGap blank true [] text) = some (l, rest) := by
  have hbehind : (readGap blank false [] text).2 = rest := by
    rcases hg : readGap blank false [] text with ⟨run, tail⟩
    rw [hg] at h
    cases run with
    | nil => cases h
    | cons t run =>
      cases h
      rfl
  rw [readGap_of_no_comment (by rw [hbehind]; exact hrest), h]

/-- A run of trivia with no comment behind it is read in the same way with comments. -/
theorem readTrivia_withComments (hrest : readComment rest = none)
    (h : readTrivia (d.withComments false) text = some (l, rest)) :
    readTrivia (d.withComments true) text = some (l, rest) := by
  cases hd : d.trivia with
  | true =>
    have hkept : ∀ allowed, (d.withComments allowed).trivia = true := fun _ => hd
    unfold readTrivia at h ⊢
    rw [if_pos (hkept _)] at h ⊢
    split at h
    · exact h
    · exact ofGap_of_no_comment hrest h
  | false =>
    have hdropped : ∀ allowed, ¬ (d.withComments allowed).trivia = true := fun _ =>
      Bool.eq_false_iff.1 hd
    unfold readTrivia at h ⊢
    rw [if_neg (hdropped _)] at h ⊢
    exact ofGap_of_no_comment hrest h

/-- A lexeme with no comment before it and none behind it is read in the same way with comments. -/
theorem read_withComments (htext : readComment text = none) (hrest : readComment rest = none)
    (h : read (d.withComments false) text = some (l, rest)) :
    read (d.withComments true) text = some (l, rest) := by
  cases text with
  | nil => cases (read_nil _).symm.trans h
  | cons c text =>
    cases ht : readTrivia (d.withComments false) (c :: text) with
    | none =>
      have hblank := ((readTrivia_eq_none_iff _ c text).1 ht).1
      have htrivia : readTrivia (d.withComments true) (c :: text) = none :=
        (readTrivia_eq_none_iff _ c text).2 ⟨hblank, fun _ => htext⟩
      rw [read, ht, readSolid_withComments] at h
      rw [read, htrivia, readSolid_withComments]
      exact h
    | some found =>
      rw [read, ht] at h
      cases h
      rw [read, readTrivia_withComments hrest ht]

theorem mark_of_read (hd : d.Spelled) (hc : c = '/' ∨ c = '*')
    (h : read (d.withComments false) (c :: text) = some (l, rest)) :
    (∃ op ∈ d.operators, l = .operator op ∧ op.spelling.toList.head? = some c) ∨ l = .stray c := by
  have hsolid : readSolid d (c :: text) = some (l, rest) := by
    have hblank : (d.withComments false).isBlank c = false := by
      unfold Dialect.isBlank
      rcases hc with rfl | rfl <;> split <;> rfl
    have htrivia : readTrivia (d.withComments false) (c :: text) = none :=
      (readTrivia_eq_none_iff _ c text).2 ⟨hblank, fun hfalse => by cases hfalse⟩
    rwa [read, htrivia, readSolid_withComments] at h
  rcases readSolid_cases hsolid with ⟨n, -, hb, -⟩ | ⟨lit, body, -, hq, -⟩ |
    ⟨c', body, -, hw, hstart, -⟩ | ⟨op, rfl, hop, -⟩ | ⟨c', rfl, htext, -⟩
  · rcases hc with rfl | rfl <;> simp [Numeral.begins] at hb
  · rcases hc with rfl | rfl <;> cases hq
  · cases hw
    have hno : isWordStart c = false := by rcases hc with rfl | rfl <;> decide
    rw [hno] at hstart
    cases hstart
  · refine .inl ⟨op, mem_of_match? hop, rfl, ?_⟩
    have hspelled := hd op (mem_of_match? hop)
    have hbegins := Operator.append_drop_of_match? hop
    cases hs : op.spelling.toList with
    | nil => exact absurd (by simpa using hs) hspelled
    | cons c' s =>
      rw [hs, List.cons_append] at hbegins
      rw [List.head?_cons, (List.cons.inj hbegins).1]
  · cases htext
    exact .inr rfl

end Lexeme

/-! ### Whole texts -/

/-- Where nothing is reported, a slash or a star is read as an operator. -/
theorem Lexed.exists_mark (hd : d.Spelled) (hc : c = '/' ∨ c = '*')
    (h : Lexed (d.withComments false) p (c :: text) os)
    (hclean : ∀ o ∈ os, o.reports (d.withComments false) = []) :
    ∃ op rest os', op ∈ d.operators ∧ op.spelling.toList.head? = some c ∧
      os = ⟨p, .operator op⟩ :: os' ∧ op.spelling.toList ++ rest = c :: text ∧
      Lexed (d.withComments false) (p.after op.spelling.toList) rest os' := by
  cases h with
  | @cons _ _ rest l os hread hs =>
    rcases Lexeme.mark_of_read hd hc hread with ⟨op, hop, rfl, hhead⟩ | rfl
    · exact ⟨op, rest, os, hop, hhead, rfl, Lexeme.read_eq hread, hs⟩
    · cases hclean _ List.mem_cons_self

/-- If no comment begins between the lexemes, they are the same with comments. -/
theorem Lexed.withComments (h : Lexed (d.withComments false) p text os)
    (hnone : ∀ q tail os', os' <:+ os → Lexed (d.withComments false) q tail os' →
      readComment tail = none) : Lexed (d.withComments true) p text os := by
  induction h with
  | nil => exact .nil
  | @cons p text rest l os hread hs ih =>
    have htext := hnone _ _ _ (List.suffix_refl _) (.cons hread hs)
    have hrest := hnone _ _ _ (List.suffix_cons _ _) hs
    refine .cons (Lexeme.read_withComments htext hrest hread) (ih fun q tail os' hos => ?_)
    exact hnone q tail os' (hos.trans (List.suffix_cons _ _))

theorem tokenize_withComments (hd : d.Proper)
    (h : Lexed (d.withComments false) .start source.toList os)
    (hnone : ∀ q tail os', os' <:+ os → Lexed (d.withComments false) q tail os' →
      readComment tail = none) :
    tokenize source (d.withComments true) = tokenize source (d.withComments false) := by
  have htoken : ∀ o : Occurrence, o.token? (d.withComments true) = o.token? (d.withComments false)
      := by
    rintro ⟨q, l⟩
    cases l <;> rfl
  have hreports : ∀ o : Occurrence,
      o.reports (d.withComments true) = o.reports (d.withComments false) := by
    rintro ⟨q, l⟩
    cases l <;> rfl
  have hproper : ∀ allowed, (d.withComments allowed).Proper := fun _ => hd
  rw [tokenize_of_lexed (hproper true) (h.withComments hnone),
    tokenize_of_lexed (hproper false) h]
  simp only [htoken, hreports]

/-- Where nothing is reported, the tokens are all that there is to a scan. -/
theorem Scan.ofText_eq_of_tokenize {d' : Dialect} (hclean : (tokenize source d).2 = [])
    (h : tokenize source d' = tokenize source d) : ofText d' source = ofText d source := by
  have hbare : ∀ d, (tokenize source d).2 = [] →
      ofText d source = (tokenize source d).1.map (⟨[], ·⟩) := by
    intro d hclean
    have hreports : ∀ s ∈ ofText d source, s.reports = [] := List.flatMap_eq_nil_iff.1 hclean
    have hsame : ∀ s ∈ ofText d source, (⟨[], s.token⟩ : Scan) = s := by
      rintro ⟨reports, t⟩ hs
      obtain rfl : reports = [] := hreports _ hs
      rfl
    rw [tokenize, List.map_map]
    exact ((List.map_congr_left hsame).trans (List.map_id _)).symm
  rw [hbare d' (by rw [h]; exact hclean), hbare d hclean, h]

end Resilient
