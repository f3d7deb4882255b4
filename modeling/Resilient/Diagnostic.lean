import Resilient.Source.Span
import Resilient.Text.Quoted

/-!
# Diagnostics

A diagnostic names a fault, the range of text that shows it and the message for the reader.
-/

namespace Resilient

/-- The broad class of a fault. -/
inductive Category where
  /-- Found among the characters. -/
  | lexical
  /-- Found among the tokens. -/
  | syntactic
  | limit
  deriving DecidableEq

/-- What can be wrong with a text. -/
inductive Fault where
  | unrecognizedCharacter (c : Char)
  | unterminatedString
  | unterminatedComment
  | controlCharacter
  | invalidEscapeSequence
  | invalidUnicodeEscape
  | invalidNumber
  | identifierNotPermitted
  | expected (wanted found : String)
  | trailingComma
  | trailingInput
  | maxDepthExceeded (max : Nat)
  | maxSizeExceeded (max : Nat)
  deriving DecidableEq

namespace Fault

/-- The category that a fault belongs to. -/
def category : Fault → Category
  | unrecognizedCharacter _ | unterminatedString | unterminatedComment | controlCharacter
  | invalidEscapeSequence | invalidUnicodeEscape | invalidNumber | identifierNotPermitted =>
    .lexical
  | expected _ _ | trailingComma | trailingInput => .syntactic
  | maxDepthExceeded _ | maxSizeExceeded _ => .limit

/-- The message for the reader. -/
def message : Fault → String
  | unrecognizedCharacter c => "unrecognized character " ++ quotedCharacter c
  | unterminatedString => "unterminated string"
  | unterminatedComment => "unterminated block comment"
  | controlCharacter => "control character in string"
  | invalidEscapeSequence => "invalid escape sequence"
  | invalidUnicodeEscape => "invalid unicode escape"
  | invalidNumber => "invalid number"
  | identifierNotPermitted => "identifiers are not permitted here"
  | expected wanted found => "expected " ++ wanted ++ ", found " ++ found
  | trailingComma => "trailing comma"
  | trailingInput => "expected end of input"
  | maxDepthExceeded max => "max depth exceeded: " ++ toString max
  | maxSizeExceeded max => "max size exceeded: " ++ toString max

end Fault

/-- A report of a fault. -/
structure Diagnostic where
  fault : Fault
  span : Span
  message : String
  deriving DecidableEq

namespace Diagnostic

/-- The report of a fault in its own words. -/
def of (fault : Fault) (span : Span) : Diagnostic := ⟨fault, span, fault.message⟩

/-- The report on a fault at a single place. -/
def atPoint (fault : Fault) (p : Position) : Diagnostic := of fault (.point p)

/-- The place that a report names: where its range starts. -/
def position (d : Diagnostic) : Position := d.span.start

/-- The category of what is reported. -/
def category (d : Diagnostic) : Category := d.fault.category

/-- The report on one line: `line:column: message`. -/
def line (d : Diagnostic) : String := d.position.toText ++ ": " ++ d.message

/-- The report as the reason of a failure. -/
def toText (d : Diagnostic) : String := "error at " ++ d.line

end Diagnostic

end Resilient
