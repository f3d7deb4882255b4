/-!
# Kinds of tokens

The kinds of tokens of both languages, with the names that messages use for them.
-/

namespace Resilient

/-- The kind of a token. -/
inductive Kind where
  | whitespace | newline
  | identifier | number | string
  | nullWord | trueWord | falseWord
  | leftBrace | rightBrace | leftBracket | rightBracket | leftParen | rightParen | colon | comma
  | equals | eqEq | notEq | less | lessEq | greater | greaterEq | shl | shr
  | plus | minus | star | slash | percent | caret | amp | pipe
  | eof
  deriving DecidableEq

namespace Kind

/-- The name of a kind in messages. -/
def name : Kind → String
  | whitespace => "whitespace"
  | newline => "newline"
  | identifier => "identifier"
  | number => "number"
  | string => "string"
  | nullWord => "null"
  | trueWord => "true"
  | falseWord => "false"
  | leftBrace => "'\x7b'"
  | rightBrace => "'\x7d'"
  | leftBracket => "'['"
  | rightBracket => "']'"
  | leftParen => "'('"
  | rightParen => "')'"
  | colon => "':'"
  | comma => "','"
  | equals => "'='"
  | eqEq => "'=='"
  | notEq => "'!='"
  | less => "'<'"
  | lessEq => "'<='"
  | greater => "'>'"
  | greaterEq => "'>='"
  | shl => "'<<'"
  | shr => "'>>'"
  | plus => "'+'"
  | minus => "'-'"
  | star => "'*'"
  | slash => "'/'"
  | percent => "'%'"
  | caret => "'^'"
  | amp => "'&'"
  | pipe => "'|'"
  | eof => "end of input"

/-- A name in a message singles out the kind. -/
theorem name_injective {a b : Kind} (h : a.name = b.name) : a = b := by
  have key : ∀ i < 34, ∀ j < 34, (ofNat i).name = (ofNat j).name → i = j := by decide +kernel
  have hlt : ∀ k : Kind, k.ctorIdx < 34 := by
    intro k
    cases k <;> decide
  rw [← ofNat_ctorIdx a, ← ofNat_ctorIdx b] at h ⊢
  rw [key _ (hlt a) _ (hlt b) h]

/-- The kinds that parsers never see. -/
def isTrivia : Kind → Bool
  | whitespace | newline => true
  | _ => false

/-- The kinds that open a bracket pair of JSON. -/
def opens : Kind → Bool
  | leftBrace | leftBracket => true
  | _ => false

/-- The kinds that close a bracket pair of JSON. -/
def closes : Kind → Bool
  | rightBrace | rightBracket => true
  | _ => false

end Kind

end Resilient
