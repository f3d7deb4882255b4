import Resilient.Automaton
import Resilient.Expression.Node
import Resilient.Limits

/-!
# Reading expressions from tokens

Expressions are read by operator precedence. The stack holds what waits for an operand: open
parentheses, and operators with their left operand. When an operand is complete, `settle` compares
the next token with the operators on the stack: those that bind at least as tightly take the
operand, so that operators of one strength group to the left, and the token then waits itself.
From the loosest: the binary operators by their levels, the minus sign before an operand, two
operands side by side, which are multiplied, and powers.

No token stops the reading. A missing operand or parenthesis is reported, at most once for each
token, and a null literal of no width stands in for an operand.
-/

namespace Resilient

namespace Expression

/-- What waits for an operand. -/
inductive Frame where
  | group (bracket : Span)
  /-- A binary operator with its left operand. -/
  | operand (lhs : Node) (symbol : Symbol) (level : Nat)
  | negation (sign : Span)
  /-- A factor with another one directly behind it. -/
  | factor (lhs : Node)
  /-- A base with the mark of a power behind it. -/
  | base (lhs : Node)

/-- What the next token is taken for. -/
inductive Mode where
  /-- The beginning of an operand that may have a minus sign. -/
  | signed
  /-- The beginning of an operand. -/
  | primary
  /-- What follows an operand. -/
  | settled (n : Node)
  /-- Skipped inside parentheses that stand too deep: how many are open, the first one, and the
  token before. -/
  | skip (nesting : Nat) (bracket : Span) (last : Option Span)

/-- A decision of the automaton of expressions. -/
abbrev Turn := Resilient.Turn Mode Frame Node

/-! ### Binding strength -/

/-- How tightly a minus sign binds its operand. -/
def negationStrength : Nat := 55

/-- How tightly operands side by side bind. -/
def factorStrength : Nat := 60

/-- How tightly a power binds its operands. -/
def powerStrength : Nat := 70

/-- The operator and the level of a token between two operands. -/
def binaryOperator? (k : Kind) : Option (Symbol × Nat) := do
  let op ← Operator.ofKind? Operator.expression k
  let symbol ← op.symbol
  let precedence ← op.precedence
  return (symbol, precedence.level)

/-- The kinds that begin an operand without a sign. -/
def startsOperand : Kind → Bool
  | .identifier | .number | .leftParen => true
  | _ => false

/-- How tightly a token behind an operand binds; tokens that end an expression do not. -/
def strength (k : Kind) : Nat :=
  if k = .caret then powerStrength
  else if startsOperand k then factorStrength
  else match binaryOperator? k with
    | some (_, level) => level
    | none => 0

namespace Frame

/-- How tightly what waits binds; a parenthesis never lets go by itself. -/
def strength? : Frame → Option Nat
  | group _ => none
  | operand _ _ level => some level
  | negation _ => some negationStrength
  | factor _ => some factorStrength
  | base _ => some powerStrength

/-- What waited, with its operand. -/
def join (n : Node) : Frame → Node
  | group bracket => n.widen bracket
  | operand lhs symbol _ => .binary symbol lhs n
  | negation sign => .applyWithin sign .neg [n]
  | factor lhs => .binary .mul lhs n
  | base lhs => .binary .pow lhs n

/-- Does the frame wait for a closing parenthesis? -/
def isGroup : Frame → Bool
  | group _ => true
  | _ => false

end Frame

/-- What is wanted where an operand begins. -/
def operandWanted : String := "identifier, number, or parenthesized expression"

/-! ### Decisions -/

/-- A token that begins an operand. -/
def operandAt (limits : Limits) (t : Token) (stack : List Frame) : Turn :=
  match t.kind with
  | .identifier => .consume (.settled (.identifier (t.text?.getD "") t.span)) stack
  | .number => .consume (.settled (.literal (.number (t.number?.getD .zero)) t.span)) stack
  | _ =>
    match limits.reachedDepth fun _ => stack.countP Frame.isGroup with
    | some max => ⟨[.of (.maxDepthExceeded max) t.span], .consume (.skip 1 t.span none) stack⟩
    | none => .consume .signed (.group t.span :: stack)

/-- A token behind an operand that everything tighter has let go of. -/
def shift (limits : Limits) (t : Token) (n : Node) (stack : List Frame) : Turn :=
  if t.kind = .caret then .consume .primary (.base n :: stack)
  else if startsOperand t.kind then operandAt limits t (.factor n :: stack)
  else match binaryOperator? t.kind with
    | some (symbol, level) => .consume .signed (.operand n symbol level :: stack)
    | none => .finish n false

/-- A token behind an operand. -/
def settle (limits : Limits) (t : Token) (complained : Bool) (n : Node) (stack : List Frame) :
    Turn :=
  match stack with
  | [] => if strength t.kind = 0 then .finish n complained else shift limits t n []
  | .group bracket :: below =>
    if 0 < strength t.kind then shift limits t n (.group bracket :: below)
    else if t.kind = .rightParen then
      .consume (.settled (n.widen (bracket.merge t.span))) below
    else .behind (t.expected "')'" complained) (settle limits t true (n.widen bracket) below)
  | f :: below =>
    if f.strength?.any (strength t.kind ≤ ·) then settle limits t complained (f.join n) below
    else shift limits t n (f :: below)
termination_by structural stack

/-- A token where an operand begins without a sign. -/
def primaryAt (limits : Limits) (t : Token) (complained : Bool) (stack : List Frame) : Turn :=
  if startsOperand t.kind then operandAt limits t stack
  else .behind (t.expected operandWanted complained)
    (settle limits t true (.placeholder (.point t.span.start)) stack)

/-- A token inside parentheses that stand too deep. -/
def skipAt (limits : Limits) (t : Token) (complained : Bool) (nesting : Nat) (bracket : Span)
    (last : Option Span) (stack : List Frame) : Turn :=
  if t.kind = .eof then
    settle limits t complained (.placeholder (bracket.merge (last.getD t.span))) stack
  else if t.kind = .rightParen && nesting = 1 then
    .consume (.settled (.placeholder (bracket.merge t.span))) stack
  else
    let nesting := if t.kind = .leftParen then nesting + 1
      else if t.kind = .rightParen then nesting - 1 else nesting
    .consume (.skip nesting bracket (some t.span)) stack

/-- The decision on a token, in any mode. -/
def react (limits : Limits) (mode : Mode) (stack : List Frame) (complained : Bool) (t : Token) :
    Turn :=
  match mode with
  | .signed =>
    if t.kind = .minus then .consume .primary (.negation t.span :: stack)
    else primaryAt limits t complained stack
  | .primary => primaryAt limits t complained stack
  | .settled n => settle limits t complained n stack
  | .skip nesting bracket last => skipAt limits t complained nesting bracket last stack

/-! ### The end of the text is never taken -/

theorem strength_eof : strength .eof = 0 := by decide

section

variable {t : Token} (h : t.kind = .eof) (limits : Limits)

include h

theorem settle_eof (complained : Bool) (n : Node) (stack : List Frame) :
    (settle limits t complained n stack).Finishes := by
  induction stack generalizing complained n with
  | nil =>
    unfold settle
    simp [h, strength_eof]
  | cons f below ih =>
    cases f with
    | group bracket =>
      unfold settle
      simpa [h, strength_eof] using ih true (n.widen bracket)
    | operand lhs symbol level =>
      unfold settle
      simpa [h, strength_eof, Frame.strength?] using ih complained _
    | negation sign =>
      unfold settle
      simpa [h, strength_eof, Frame.strength?] using ih complained _
    | factor lhs =>
      unfold settle
      simpa [h, strength_eof, Frame.strength?] using ih complained _
    | base lhs =>
      unfold settle
      simpa [h, strength_eof, Frame.strength?] using ih complained _

theorem primaryAt_eof (complained : Bool) (stack : List Frame) :
    (primaryAt limits t complained stack).Finishes := by
  simpa [primaryAt, h, startsOperand] using settle_eof h limits true _ stack

/-- At the end of the text every mode completes the expression. -/
theorem react_eof (mode : Mode) (stack : List Frame) (complained : Bool) :
    (react limits mode stack complained t).Finishes := by
  have hm : t.kind ≠ .minus := by rw [h]; decide
  cases mode with
  | signed => simpa [react, hm] using primaryAt_eof h limits complained stack
  | primary => exact primaryAt_eof h limits complained stack
  | settled n => exact settle_eof h limits complained n stack
  | skip nesting bracket last =>
    simpa [react, skipAt, h] using settle_eof h limits complained _ stack

end

end Expression

end Resilient
