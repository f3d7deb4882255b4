import Resilient.Operator
import Resilient.Unicode.Blank
import Resilient.Unicode.Letter
import Resilient.Unicode.Numeric

/-!
# Dialects

A dialect says how the characters of a text are cut into tokens. Two are given: the one of JSON and
the one of expressions.
-/

namespace Resilient

/-- How a text is cut into tokens. -/
structure Dialect where
  /-- The punctuation, spellings before the shorter ones that begin them. -/
  operators : List Operator
  /-- Comments may stand wherever blanks may. -/
  comments : Bool
  /-- A minus sign directly before a digit begins a number. -/
  signedNumbers : Bool
  /-- `true`, `false` and `null` are literals and not identifiers. -/
  keywords : Bool
  /-- Words that are no literals are accepted without a report. -/
  identifiers : Bool
  /-- Blanks, comments and line feeds make tokens. -/
  trivia : Bool
  /-- Every white space separates tokens, not just the blanks of JSON. -/
  unicodeBlanks : Bool

namespace Dialect

/-- How JSON is cut into lexemes. -/
def json : Dialect where
  operators := Operator.json
  comments := false
  signedNumbers := true
  keywords := true
  identifiers := false
  trivia := false
  unicodeBlanks := false

/-- How expressions are cut into lexemes. -/
def expression : Dialect where
  operators := Operator.expression
  comments := false
  signedNumbers := false
  keywords := false
  identifiers := true
  trivia := true
  unicodeBlanks := true

/-- The dialect of JSON is taken where none is named. -/
instance : Inhabited Dialect := ⟨json⟩

/-- The same dialect with or without comments. -/
def withComments (d : Dialect) (allowed : Bool) : Dialect := { d with comments := allowed }

/-- The blanks of a dialect. -/
def isBlank (d : Dialect) (c : Char) : Bool :=
  if d.unicodeBlanks then Resilient.isBlank c else isJsonBlank c

end Dialect

/-- Does the character begin a word? -/
def isWordStart (c : Char) : Bool := isLetter c || c = '_'

/-- May the character stand inside a word? -/
def isWordChar (c : Char) : Bool := isLetter c || isNumeric c || c = '_'

theorem isWordChar_of_isWordStart {c : Char} (h : isWordStart c = true) : isWordChar c = true := by
  simp only [isWordStart, isWordChar, Bool.or_eq_true] at h ⊢
  rcases h with h | h
  · exact .inl (.inl h)
  · exact .inr h

end Resilient
