import Resilient.Proofs.Lexeme.Literal
import Resilient.Proofs.Lexeme.Solid

/-!
# String tokens

In every dialect a quote begins a string literal. The spellings of strings, and nothing else that
begins with a quote, are fetched without a report, each as the string that it spells
(`spellings_fetched`).
-/

namespace Resilient

namespace Scan

/-- The literal behind a quote is fetched as a whole, with the reports on it. -/
theorem next_quote (d : Dialect) {c : Cursor} {body rest : List Char} {l : Literal}
    (hc : c.rest = '"' :: body) (hl : Literal.read body = (l, rest)) :
    next d c = (⟨l.reports c.position, ⟨.string, ⟨c.position, c.position.after l.text⟩,
      some (.string l.value)⟩⟩, c.past l.text rest) := by
  obtain ⟨source, p, text⟩ := c
  subst hc
  have hread : Lexeme.read d ('"' :: body) = some (.literal l, rest) := by
    rw [Lexeme.read_quote, hl]
  exact fetch_of_token hread rfl source []

/-- A spelling of a string, whatever follows it, is fetched up to and with the closing quote as the
token of the string, without a report. What begins with a quote and is fetched without a report is
the spelling of the string in its token. -/
theorem spellings_fetched (d : Dialect) (c : Cursor) :
    (∀ t s rest, StringText t s → c.rest = t ++ rest →
      next d c =
        (⟨[], ⟨.string, ⟨c.position, c.position.after t⟩, some (.string s)⟩⟩, c.past t rest)) ∧
    (c.rest.head? = some '"' → (next d c).1.reports = [] →
      ∃ t s rest, StringText t s ∧ c.rest = t ++ rest ∧ next d c =
        (⟨[], ⟨.string, ⟨c.position, c.position.after t⟩, some (.string s)⟩⟩, c.past t rest)) := by
  constructor
  · rintro t s rest ⟨h⟩ hc
    obtain ⟨l, hl, htext, hvalue, hreports⟩ := Literal.read_of_charsText h rest
    rw [next_quote d (by simpa using hc) hl, htext, hvalue, hreports]
  · intro hquote hsilent
    obtain ⟨body, hc⟩ : ∃ body, c.rest = '"' :: body := by
      cases hrest : c.rest with
      | nil => simp [hrest] at hquote
      | cons x body =>
        obtain rfl : x = '"' := by simpa [hrest] using hquote
        exact ⟨body, rfl⟩
    have hnext := next_quote d hc (Prod.eta (Literal.read body)).symm
    rw [hnext] at hsilent ⊢
    have hreports : (Literal.read body).1.reports c.position = [] := hsilent
    rw [hreports]
    refine ⟨_, _, _, Literal.stringText_of_reports body hreports, ?_, rfl⟩
    rw [hc, Literal.read_eq]

/-- A code, a short escape, a character as it is, and the codes of two surrogates; and a literal
without characters. -/
theorem spellings_fetched_pair :
    next .json (.ofText "\"\\u004a\\n=\\ud83D\\uDE00\" ]") =
        (⟨[], ⟨.string, ⟨⟨0, 1, 1⟩, ⟨23, 1, 24⟩⟩, some (.string (.ofList ['J', '\n', '=', '😀']))⟩⟩,
          ⟨"\"\\u004a\\n=\\ud83D\\uDE00\" ]", ⟨23, 1, 24⟩, [' ', ']']⟩) ∧
      ∃ t s rest, StringText t s ∧ "\"\"]".toList = t ++ rest ∧
        (next .expression (.ofText "\"\"]")).1.token.payload = some (.string s) := by
  have hcode : CharText ['\\', 'u', '0', '0', '4', 'a'] 'J' := .code
    (.intro (w := 0) (x := 0) (y := 4) (z := 10) (.inl rfl) (.inl rfl) (.inl rfl) (.inl rfl))
  have hescape : CharText ['\\', 'n'] '\n' := .escape (by decide)
  have hplain : CharText ['='] '=' := .plain (by decide) (by decide) (by decide)
  have hhigh : CodeText ['d', '8', '3', 'D'] 0xd83d :=
    .intro (w := 13) (x := 8) (y := 3) (z := 13) (.inl rfl) (.inl rfl) (.inl rfl) (.inr rfl)
  have hlow : CodeText ['D', 'E', '0', '0'] 0xde00 :=
    .intro (w := 13) (x := 14) (y := 0) (z := 0) (.inr rfl) (.inr rfl) (.inl rfl) (.inl rfl)
  have hpair := CharText.pair (c := '😀') hhigh hlow (by decide) (by decide) (by decide)
  have hspelled := StringText.intro (.cons hcode (.cons hescape (.cons hplain (.cons hpair .nil))))
  constructor
  · refine ((spellings_fetched .json (.ofText "\"\\u004a\\n=\\ud83D\\uDE00\" ]")).1 _ _ [' ', ']']
      hspelled (by decide +kernel)).trans ?_
    rfl
  · obtain ⟨t, s, rest, hs, htext, hnext⟩ :=
      (spellings_fetched .expression (.ofText "\"\"]")).2 (by decide +kernel) (by decide +kernel)
    exact ⟨t, s, rest, hs, htext, by rw [hnext]⟩

end Scan

end Resilient
