import Resilient.Scalar
import Resilient.Source.Span
import Resilient.Token.Kind

/-!
# Tokens

A token has a kind, the range of text it was read from and, for numbers, strings, identifiers and
the literal words, a scalar.
-/

namespace Resilient

/-- A piece of text that a parser takes as one. -/
structure Token where
  kind : Kind
  span : Span
  /-- The scalar that the token carries. -/
  payload : Option Scalar
  deriving DecidableEq

namespace Token

/-- A token that carries nothing. -/
def bare (kind : Kind) (span : Span) : Token := ⟨kind, span, none⟩

/-- The token at the end of a text. -/
def atEnd (p : Position) : Token := bare .eof (.point p)

/-- The string that a token carries, if it carries one. -/
def text? (t : Token) : Option String := t.payload.bind Scalar.text?

/-- The number that a token carries, if it carries one. -/
def number? (t : Token) : Option Binary64 := t.payload.bind Scalar.number?

/-- Tokens of the end's kind. -/
def isEof (t : Token) : Bool := t.kind = .eof

end Token

end Resilient
