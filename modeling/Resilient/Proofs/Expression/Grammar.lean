import Resilient.Expression.Node
import Resilient.Operator
import Resilient.Token

/-!
# The grammar of expressions

`Sentence` is the stratified grammar over tokens, with the tree of each derivation: every repetition
is folded to the left. A `Tree` is a node without its ranges (`Node.tree`). In `Gapped` operands may
be missing where the tokens around the gap show that one was meant.
-/

namespace Resilient

/-- A tree without ranges of text. -/
inductive Tree where
  | literal (value : Scalar)
  | identifier (name : String)
  | call (symbol : Symbol) (operands : List Tree)

mutual

/-- The tree of a node. -/
def Node.tree : Node → Tree
  | .literal v _ => .literal v
  | .identifier name _ => .identifier name
  | .call symbol ns _ => .call symbol (Node.trees ns)

/-- The trees of nodes. -/
def Node.trees : List Node → List Tree
  | [] => []
  | n :: ns => n.tree :: Node.trees ns

end

namespace Node

@[simp] theorem tree_widen (s : Span) (n : Node) : (n.widen s).tree = n.tree := by
  cases n <;> simp [widen, tree]

@[simp] theorem tree_binary (symbol : Symbol) (l r : Node) :
    (binary symbol l r).tree = .call symbol [l.tree, r.tree] := by
  simp [binary, apply, tree, trees]

@[simp] theorem tree_applyWithin (s : Span) (symbol : Symbol) (n : Node) :
    (applyWithin s symbol [n]).tree = .call symbol [n.tree] := by
  simp [applyWithin, tree, trees]

end Node

namespace Expression

/-- The layers of the grammar, loosest first. -/
inductive Rule where
  /-- Operands with binary operators of one strength between them. -/
  | level (p : Precedence)
  /-- A term, with or without a minus sign. -/
  | signed
  /-- Atoms side by side. -/
  | term
  /-- Primaries with marks of powers between them. -/
  | atom
  /-- An identifier, a number, or an expression in parentheses. -/
  | primary
  deriving DecidableEq

/-- The layer from which a layer is built. -/
def Rule.inner : Rule → Option Rule
  | .level .assignment => some (.level .bitwise)
  | .level .bitwise => some (.level .comparison)
  | .level .comparison => some (.level .additive)
  | .level .additive => some (.level .multiplicative)
  | .level .multiplicative => some .signed
  | .signed => some .term
  | .term => some .atom
  | .atom => some .primary
  | .primary => none

/-- The binary operators: the kinds of their tokens, their layers, and what they stand for. -/
def binaryOperators : List (Kind × Precedence × Symbol) :=
  [(.equals, .assignment, .assign),
    (.amp, .bitwise, .bitAnd), (.pipe, .bitwise, .bitOr),
    (.eqEq, .comparison, .eq), (.notEq, .comparison, .notEq), (.less, .comparison, .less),
    (.lessEq, .comparison, .lessEq), (.greater, .comparison, .greater),
    (.greaterEq, .comparison, .greaterEq),
    (.plus, .additive, .add), (.minus, .additive, .sub),
    (.star, .multiplicative, .mul), (.slash, .multiplicative, .div),
    (.percent, .multiplicative, .rem), (.shl, .multiplicative, .shl), (.shr, .multiplicative, .shr)]

/-- The grammar, with the tree of each derivation. -/
inductive Sentence : Rule → List Token → Tree → Prop where
  /-- One part of a layer, without an operator. -/
  | inner {r r' : Rule} {ts : List Token} {n : Tree} (hr : r.inner = some r')
      (h : Sentence r' ts n) : Sentence r ts n
  | binary {p : Precedence} {symbol : Symbol} {r : Rule} {ts us : List Token} {o : Token}
      {m n : Tree} (hs : Sentence (.level p) ts m) (ho : (o.kind, p, symbol) ∈ binaryOperators)
      (hr : (Rule.level p).inner = some r) (h : Sentence r us n) :
      Sentence (.level p) (ts ++ o :: us) (.call symbol [m, n])
  | negation {ts : List Token} {o : Token} {n : Tree} (ho : o.kind = .minus)
      (h : Sentence .term ts n) : Sentence .signed (o :: ts) (.call .neg [n])
  | product {ts us : List Token} {m n : Tree} (hs : Sentence .term ts m)
      (h : Sentence .atom us n) : Sentence .term (ts ++ us) (.call .mul [m, n])
  | power {ts us : List Token} {o : Token} {m n : Tree} (hs : Sentence .atom ts m)
      (ho : o.kind = .caret) (h : Sentence .primary us n) :
      Sentence .atom (ts ++ o :: us) (.call .pow [m, n])
  | identifier {t : Token} {name : String} (hk : t.kind = .identifier)
      (hp : t.payload = some (.string name)) : Sentence .primary [t] (.identifier name)
  | number {t : Token} {x : Binary64} (hk : t.kind = .number)
      (hp : t.payload = some (.number x)) : Sentence .primary [t] (.literal (.number x))
  | group {ts : List Token} {a b : Token} {n : Tree} (ha : a.kind = .leftParen)
      (h : Sentence (.level .assignment) ts n) (hb : b.kind = .rightParen) :
      Sentence .primary (a :: (ts ++ [b])) n

/-- The tokens in front of which an operand may be missing: those that go on behind an operand and
begin none, the closing parenthesis and the end. -/
def resumes (k : Kind) : Bool :=
  k = .caret || k = .rightParen || k = .eof ||
    (k ≠ .minus && binaryOperators.any fun e => e.1 = k)

/-- The grammar with gaps, up to the token `next` behind the part. An operand is `due` at the
beginning of the text and behind an opening parenthesis, an operator or a minus sign; one that is
due may be missing, and the tokens behind the gaps are listed. -/
inductive Gapped : Bool → Token → Rule → List Token → Node → List Token → Prop where
  | inner {due : Bool} {next : Token} {r r' : Rule} {ts gs : List Token} {n : Node}
      (hr : r.inner = some r') (h : Gapped due next r' ts n gs) : Gapped due next r ts n gs
  | binary {due : Bool} {next o : Token} {p : Precedence} {symbol : Symbol} {r : Rule}
      {ts us gs hs : List Token} {m n : Node} (hl : Gapped due o (.level p) ts m gs)
      (ho : (o.kind, p, symbol) ∈ binaryOperators) (hr : (Rule.level p).inner = some r)
      (h : Gapped true next r us n hs) :
      Gapped due next (.level p) (ts ++ o :: us) (.binary symbol m n) (gs ++ hs)
  | negation {due : Bool} {next o : Token} {ts gs : List Token} {n : Node} (ho : o.kind = .minus)
      (h : Gapped true next .term ts n gs) :
      Gapped due next .signed (o :: ts) (.applyWithin o.span .neg [n]) gs
  | product {due : Bool} {next t : Token} {ts us gs hs : List Token} {m n : Node}
      (hl : Gapped due t .term ts m gs) (h : Gapped false next .atom (t :: us) n hs) :
      Gapped due next .term (ts ++ t :: us) (.binary .mul m n) (gs ++ hs)
  | power {due : Bool} {next o : Token} {ts us gs hs : List Token} {m n : Node}
      (hl : Gapped due o .atom ts m gs) (ho : o.kind = .caret)
      (h : Gapped true next .primary us n hs) :
      Gapped due next .atom (ts ++ o :: us) (.binary .pow m n) (gs ++ hs)
  | identifier {due : Bool} {next t : Token} {name : String} (hk : t.kind = .identifier)
      (hp : t.payload = some (.string name)) :
      Gapped due next .primary [t] (.identifier name t.span) []
  | number {due : Bool} {next t : Token} {x : Binary64} (hk : t.kind = .number)
      (hp : t.payload = some (.number x)) :
      Gapped due next .primary [t] (.literal (.number x) t.span) []
  | group {due : Bool} {next a b : Token} {ts gs : List Token} {n : Node} (ha : a.kind = .leftParen)
      (h : Gapped true b (.level .assignment) ts n gs) (hb : b.kind = .rightParen) :
      Gapped due next .primary (a :: (ts ++ [b])) (n.widen (a.span.merge b.span)) gs
  | gap {next : Token} (hn : resumes next.kind = true) :
      Gapped true next .primary [] (.placeholder (.point next.span.start)) [next]

end Expression

end Resilient
