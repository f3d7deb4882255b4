import Resilient.Lexeme.Dialect
import Resilient.Lexeme.Literal
import Resilient.Lexeme.Numeral
import Resilient.Lexeme.Trivia
import Resilient.Token

/-!
# Lexemes

A lexeme is the next stretch of a text that belongs together: a run of blanks and comments, a line
feed, a numeral, a string literal, a word, an operator, or a character that fits nowhere.
`Lexeme.read` cuts it off, and `Lexeme.read_eq` says that nothing is lost or made up. Its token and
its reports follow from the lexeme and the place where it begins.
-/

namespace Resilient

/-- A stretch of text that belongs together. -/
inductive Lexeme where
  /-- Blanks and comments. -/
  | gap (run : List Trivium)
  /-- A line feed that makes a token. -/
  | newline
  | number (n : Numeral)
  | literal (l : Literal)
  | word (w : List Char)
  /-- An entry of the operator table. -/
  | operator (op : Operator)
  /-- A character that begins nothing. -/
  | stray (c : Char)
  deriving DecidableEq

namespace Lexeme

/-- A lexeme as it is written. -/
def text : Lexeme → List Char
  | gap run => run.flatMap Trivium.text
  | newline => ['\n']
  | number n => n.text
  | literal l => l.text
  | word w => w
  | operator op => op.spelling.toList
  | stray c => [c]

/-- A run of trivia as a lexeme, if there is any. -/
def ofGap : List Trivium × List Char → Option (Lexeme × List Char)
  | ([], _) => none
  | (run, rest) => some (gap run, rest)

/-- The line feed or the run of blanks and comments that begins a text, and the rest. Where trivia
make tokens, a run goes no further than to the next line feed outside a comment. -/
def readTrivia (d : Dialect) (text : List Char) : Option (Lexeme × List Char) :=
  if d.trivia then
    match text with
    | '\n' :: rest => some (newline, rest)
    | text => ofGap (readGap (fun c => c ≠ '\n' && d.isBlank c) d.comments [] text)
  else ofGap (readGap d.isBlank d.comments [] text)

/-- The lexeme that begins a text which does not begin with trivia, and the rest. -/
def readSolid (d : Dialect) : List Char → Option (Lexeme × List Char)
  | [] => none
  | c :: rest =>
    let text := c :: rest
    if Numeral.begins d.signedNumbers text then
      let (n, rest) := Numeral.read text
      some (number n, rest)
    else if c = '"' then
      let (l, rest) := Literal.read rest
      some (literal l, rest)
    else if isWordStart c then some (word (text.takeWhile isWordChar), text.dropWhile isWordChar)
    else match Operator.match? d.operators text with
      | some op => some (operator op, text.drop op.spelling.toList.length)
      | none => some (stray c, rest)

/-- The lexeme that begins a text, and the rest. -/
def read (d : Dialect) (text : List Char) : Option (Lexeme × List Char) :=
  match readTrivia d text with
  | some r => some r
  | none => readSolid d text

/-- The scalar of a literal word. -/
def keyword? : List Char → Option (Kind × Scalar)
  | ['t', 'r', 'u', 'e'] => some (.trueWord, .bool true)
  | ['f', 'a', 'l', 's', 'e'] => some (.falseWord, .bool false)
  | ['n', 'u', 'l', 'l'] => some (.nullWord, .null)
  | _ => none

/-- The scalar of a word that is a literal in the dialect. -/
def literalWord? (d : Dialect) (w : List Char) : Option (Kind × Scalar) :=
  if d.keywords then keyword? w else none

/-- The token of a lexeme over its range; some lexemes make none. -/
def token? (d : Dialect) (span : Span) : Lexeme → Option Token
  | gap _ => if d.trivia then some (.bare .whitespace span) else none
  | newline => some (.bare .newline span)
  | number n => some ⟨.number, span, some (.number n.value)⟩
  | literal l => some ⟨.string, span, some (.string l.value)⟩
  | word w =>
    match literalWord? d w with
    | some (kind, s) => some ⟨kind, span, some s⟩
    | none => some ⟨.identifier, span, some (.string (String.ofList w))⟩
  | operator op => some (.bare op.kind span)
  | stray _ => none

/-- The reports on a lexeme that begins at `p`. -/
def reports (d : Dialect) (p : Position) : Lexeme → List Diagnostic
  | gap run => gapReports p [] run
  | number n => n.reports p
  | literal l => l.reports p
  | word w =>
    if d.identifiers || (literalWord? d w).isSome then []
    else [.of .identifierNotPermitted ⟨p, p.after w⟩]
  | stray c => [.of (.unrecognizedCharacter c) ⟨p, p.next c⟩]
  | _ => []

/-! ### Nothing is lost -/

theorem ofGap_eq {blank : Char → Bool} {comments : Bool} {text rest : List Char} {l : Lexeme}
    (h : ofGap (readGap blank comments [] text) = some (l, rest)) :
    l.text ++ rest = text ∧ l.text ≠ [] := by
  have hr := readGap_eq blank comments [] text
  rcases hg : readGap blank comments [] text with ⟨run, tail⟩
  rw [hg] at h hr
  cases run with
  | nil => cases h
  | cons t ts =>
    cases h
    exact ⟨by simpa [Lexeme.text] using hr, by simp [Lexeme.text, t.text_ne_nil]⟩

theorem readTrivia_eq {d : Dialect} {text rest : List Char} {l : Lexeme}
    (h : readTrivia d text = some (l, rest)) : l.text ++ rest = text ∧ l.text ≠ [] := by
  unfold readTrivia at h
  split at h
  · split at h
    · cases h
      exact ⟨rfl, by simp [Lexeme.text]⟩
    · exact ofGap_eq h
  · exact ofGap_eq h

theorem readSolid_eq {d : Dialect} {text rest : List Char} {l : Lexeme}
    (h : readSolid d text = some (l, rest)) : l.text ++ rest = text := by
  cases text with
  | nil => cases h
  | cons c text =>
    simp only [readSolid] at h
    split at h
    · cases h
      exact Numeral.read_eq _
    · split at h
      · rename_i hc
        cases h
        subst hc
        exact Literal.read_eq _
      · split at h
        · cases h
          exact List.takeWhile_append_dropWhile
        · split at h
          · rename_i op hop
            cases h
            exact Operator.append_drop_of_match? hop
          · cases h
            rfl

/-- The lexeme read and what stays behind make up the text. -/
theorem read_eq {d : Dialect} {text rest : List Char} {l : Lexeme}
    (h : read d text = some (l, rest)) : l.text ++ rest = text := by
  unfold read at h
  split at h
  · rename_i r hr
    cases h
    exact (readTrivia_eq hr).1
  · exact readSolid_eq h

theorem text_ne_nil_of_token? {d : Dialect} {text rest : List Char} {l : Lexeme} {span : Span}
    (h : read d text = some (l, rest)) (ht : l.token? d span = none) : l.text ≠ [] := by
  unfold read at h
  split at h
  · rename_i r hr
    cases h
    exact (readTrivia_eq hr).2
  · cases l with
    | gap run =>
      cases text with
      | nil => cases h
      | cons c text =>
        simp only [readSolid] at h
        repeat' split at h
        all_goals cases h
    | word w =>
      simp only [token?] at ht
      split at ht <;> cases ht
    | stray c => simp [Lexeme.text]
    | newline | number _ | literal _ | operator _ => cases ht

end Lexeme

end Resilient
