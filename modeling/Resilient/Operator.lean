import Resilient.Symbol
import Resilient.Token.Kind

/-!
# Operator tables

The punctuation of a language is a table of spellings. `Operator.match?` takes the first entry
whose spelling begins the text, so a table lists a spelling before the shorter ones that begin it.
-/

namespace Resilient

/-- How tightly a binary operator binds, loosest first. -/
inductive Precedence where
  | assignment | bitwise | comparison | additive | multiplicative
  deriving DecidableEq

/-- How tightly a precedence binds: the greater, the tighter. -/
def Precedence.level : Precedence → Nat
  | assignment => 10
  | bitwise => 20
  | comparison => 30
  | additive => 40
  | multiplicative => 50

/-- An entry of an operator table. -/
structure Operator where
  spelling : String
  /-- The kind of the token that the spelling makes. -/
  kind : Kind
  /-- The operator of a tree, if the spelling stands for one. -/
  symbol : Option Symbol
  /-- The binding strength, for spellings that stand between two operands. -/
  precedence : Option Precedence
  deriving DecidableEq

namespace Operator

/-- A spelling that stands for no operator of a tree. -/
def punctuation (spelling : String) (kind : Kind) : Operator := ⟨spelling, kind, none, none⟩

/-- A spelling that stands between two operands. -/
def binary (spelling : String) (kind : Kind) (symbol : Symbol) (precedence : Precedence) :
    Operator := ⟨spelling, kind, some symbol, some precedence⟩

/-- The punctuation of JSON. -/
def json : List Operator :=
  [punctuation "\x7b" .leftBrace, punctuation "\x7d" .rightBrace,
    punctuation "[" .leftBracket, punctuation "]" .rightBracket,
    punctuation ":" .colon, punctuation "," .comma]

/-- The operators and the punctuation of expressions. A spelling stands in front of its
beginnings. -/
def expression : List Operator :=
  [binary "==" .eqEq .eq .comparison,
    binary "!=" .notEq .notEq .comparison,
    binary "<=" .lessEq .lessEq .comparison,
    binary ">=" .greaterEq .greaterEq .comparison,
    binary "<<" .shl .shl .multiplicative,
    binary ">>" .shr .shr .multiplicative,
    binary "=" .equals .assign .assignment,
    binary "<" .less .less .comparison,
    binary ">" .greater .greater .comparison,
    binary "&" .amp .bitAnd .bitwise,
    binary "|" .pipe .bitOr .bitwise,
    binary "+" .plus .add .additive,
    binary "-" .minus .sub .additive,
    binary "*" .star .mul .multiplicative,
    binary "/" .slash .div .multiplicative,
    binary "%" .percent .rem .multiplicative,
    ⟨"^", .caret, some .pow, none⟩,
    punctuation "(" .leftParen,
    punctuation ")" .rightParen]

/-- Does the text begin with the spelling? -/
def begins (op : Operator) (text : List Char) : Bool := op.spelling.toList.isPrefixOf text

/-- The first entry of a table whose spelling begins the text. -/
def match? (table : List Operator) (text : List Char) : Option Operator :=
  table.find? (·.begins text)

/-- The first entry of a table that makes tokens of a kind. -/
def ofKind? (table : List Operator) (kind : Kind) : Option Operator :=
  table.find? (·.kind = kind)

theorem append_drop_of_match? {table : List Operator} {text : List Char} {op : Operator}
    (h : match? table text = some op) :
    op.spelling.toList ++ text.drop op.spelling.toList.length = text := by
  have hb : op.begins text = true := List.find?_some (p := fun o : Operator => o.begins text) h
  obtain ⟨rest, hr⟩ := List.isPrefixOf_iff_prefix.1 hb
  rw [← hr, List.drop_left]

end Operator

end Resilient
