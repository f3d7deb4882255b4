import Resilient.Proofs.Lexeme.Gap

/-!
# What begins no trivium

Trivia begin with a blank or with a comment (`Lexeme.readTrivia_eq_none_iff`). What begins with
another character is a number, a string, a word or an operator: a digit begins a number and a quote
a string in every dialect (`Lexeme.read_number`, `Lexeme.read_quote`).
-/

namespace Resilient

variable {d : Dialect} {text rest : List Char} {c : Char}

theorem Dialect.isBlank_newline (d : Dialect) : d.isBlank '\n' = true := by
  unfold Dialect.isBlank
  split <;> rfl

theorem Dialect.isBlank_slash (d : Dialect) : d.isBlank '/' = false := by
  unfold Dialect.isBlank
  split <;> rfl

theorem eq_slash_of_readComment {t : Trivium} (h : readComment (c :: text) = some (t, rest)) :
    c = '/' := by
  unfold readComment at h
  split at h
  · rename_i heq
    exact (List.cons.inj heq).1
  · rename_i heq
    exact (List.cons.inj heq).1
  · cases h

namespace Lexeme

theorem ofGap_eq_none_iff (blank : Char → Bool) (comments : Bool) (c : Char) (text : List Char) :
    ofGap (readGap blank comments [] (c :: text)) = none ↔
      blank c = false ∧ (comments = true → readComment (c :: text) = none) := by
  cases hc : blank c with
  | true => simp [readGap_blank hc, ofGap]
  | false =>
    cases hr : if comments then readComment (c :: text) else none with
    | none =>
      have hnone : comments = true → readComment (c :: text) = none := fun h => by
        simpa [h] using hr
      rw [readGap_solid hc hnone]
      exact ⟨fun _ => ⟨rfl, hnone⟩, fun _ => rfl⟩
    | some r =>
      obtain ⟨t, rest⟩ := r
      obtain ⟨rfl, hcomment⟩ : comments = true ∧ readComment (c :: text) = some (t, rest) := by
        simpa using hr
      simp [readGap_comment hc hcomment, ofGap, hcomment]

/-- Where trivia begin does not depend on whether they make tokens. -/
theorem readTrivia_eq_none_iff (d : Dialect) (c : Char) (text : List Char) :
    readTrivia d (c :: text) = none ↔
      d.isBlank c = false ∧ (d.comments = true → readComment (c :: text) = none) := by
  unfold readTrivia
  split
  · split
    · rename_i heq
      rw [(List.cons.inj heq).1, d.isBlank_newline]
      simp
    · rename_i hfeed
      have hc : c ≠ '\n' := by
        rintro rfl
        exact hfeed text rfl
      rw [ofGap_eq_none_iff]
      simp [hc]
  · exact ofGap_eq_none_iff _ _ c text

/-- A character that begins neither a blank nor a comment begins another lexeme. -/
theorem read_eq_readSolid (hb : d.isBlank c = false) (hc : c ≠ '/') :
    read d (c :: text) = readSolid d (c :: text) := by
  have hcomment : readComment (c :: text) = none := by
    cases hread : readComment (c :: text) with
    | none => rfl
    | some found => exact absurd (eq_slash_of_readComment hread) hc
  rw [read, (readTrivia_eq_none_iff d c text).2 ⟨hb, fun _ => hcomment⟩]

end Lexeme

/-! ### Strings -/

theorem Dialect.isBlank_quote (d : Dialect) : d.isBlank '"' = false := by
  unfold Dialect.isBlank
  split <;> rfl

theorem Lexeme.read_quote (d : Dialect) (body : List Char) :
    read d ('"' :: body) = some (.literal (Literal.read body).1, (Literal.read body).2) := by
  rw [read_eq_readSolid d.isBlank_quote (by decide), readSolid]
  simp [Numeral.begins]

/-! ### Numbers -/

theorem isBlank_of_isDigit {c : Char} (h : c.isDigit = true) : isBlank c = false := by
  have hrange : 48 ≤ c.toNat ∧ c.toNat ≤ 57 := by
    simpa [Char.isDigit, UInt32.le_iff_toNat_le] using h
  simp only [isBlank, Bool.or_eq_false_iff, Bool.and_eq_false_iff, decide_eq_false_iff_not]
  omega

theorem Numeral.isBlank_of_begins {signed : Bool} (h : begins signed (c :: text) = true)
    (d : Dialect) : d.isBlank c = false ∧ c ≠ '/' := by
  have hall : isBlank c = false ∧ c ≠ '/' := by
    simp only [begins, Bool.or_eq_true, Bool.and_eq_true, decide_eq_true_eq] at h
    rcases h with hc | ⟨⟨-, rfl⟩, -⟩
    · refine ⟨isBlank_of_isDigit hc, ?_⟩
      rintro rfl
      cases hc
    · exact ⟨by decide, by decide⟩
  refine ⟨?_, hall.2⟩
  unfold Dialect.isBlank
  split
  · exact hall.1
  · have hjson := mt (isBlank_of_isJsonBlank (c := c))
    rw [hall.1] at hjson
    simpa using hjson

theorem Lexeme.read_number (h : Numeral.begins d.signedNumbers text = true) :
    read d text = some (.number (Numeral.read text).1, (Numeral.read text).2) := by
  cases text with
  | nil => cases h
  | cons c text =>
    obtain ⟨hblank, hslash⟩ := Numeral.isBlank_of_begins h d
    rw [read_eq_readSolid hblank hslash, readSolid]
    simp only [h, if_true]

end Resilient
