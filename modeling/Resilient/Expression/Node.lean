import Resilient.Scalar
import Resilient.Source.Span
import Resilient.Symbol

/-!
# Trees

A tree is a literal, an identifier, or an operator applied to trees; every node knows its range of
text. The builders `apply`, `applyWithin` and `binary` give an application the least range that
covers its operands.
-/

namespace Resilient

/-- A tree over a source text. -/
inductive Node where
  | literal (value : Scalar) (span : Span)
  | identifier (name : String) (span : Span)
  | call (symbol : Symbol) (operands : List Node) (span : Span)

namespace Node

/-- The range of text of a node. -/
def span : Node → Span
  | literal _ s | identifier _ s | call _ _ s => s

/-- The operands of an application; a leaf has none. -/
def operands : Node → List Node
  | call _ ns _ => ns
  | _ => []

/-- The operator that a node applies, if it is an application. -/
def symbol? : Node → Option Symbol
  | call s _ _ => some s
  | _ => none

/-- An application over a range, widened to cover the operands. -/
def applyWithin (span : Span) (symbol : Symbol) (operands : List Node) : Node :=
  call symbol operands (operands.foldl (fun s n => s.merge n.span) span)

/-- An application over the least range that covers the operands. -/
def apply (symbol : Symbol) : List Node → Node
  | [] => call symbol [] default
  | n :: ns => call symbol (n :: ns) (ns.foldl (fun s n => s.merge n.span) n.span)

/-- An operator between two operands. -/
def binary (symbol : Symbol) (lhs rhs : Node) : Node := apply symbol [lhs, rhs]

/-- What stands for an operand that is missing or was skipped. -/
def placeholder (span : Span) : Node := literal .null span

/-- A placeholder is taken where no tree is named. -/
instance : Inhabited Node := ⟨placeholder default⟩

/-- The same node over a wider range. -/
def widen (span : Span) : Node → Node
  | literal v s => literal v (s.merge span)
  | identifier n s => identifier n (s.merge span)
  | call f ns s => call f ns (s.merge span)

mutual

/-- The height of a tree; a leaf has height 1. -/
def depth : Node → Nat
  | literal _ _ | identifier _ _ => 1
  | call _ ns _ => 1 + depthAll ns

/-- The greatest height of a list of trees. -/
def depthAll : List Node → Nat
  | [] => 0
  | n :: ns => max n.depth (depthAll ns)

end

mutual

/-- The tree behind what is already written; see `toText`. -/
def writeOnto (written : String) : Node → String
  | literal v _ => written ++ v.toText
  | identifier name _ => written ++ name
  | call f ns _ => writeAllOnto (written ++ "(" ++ f.spelling) ns ++ ")"

/-- The trees behind what is already written, each behind a blank. -/
def writeAllOnto (written : String) : List Node → String
  | [] => written
  | n :: ns => writeAllOnto (writeOnto (written ++ " ") n) ns

end

/-- The tree in parentheses with the operator in front: `(* 3 (- x 1))`. -/
def toText (n : Node) : String := writeOnto "" n

@[simp] theorem span_widen (s : Span) (n : Node) : (n.widen s).span = n.span.merge s := by
  cases n <;> rfl

@[simp] theorem operands_widen (s : Span) (n : Node) : (n.widen s).operands = n.operands := by
  cases n <;> rfl

end Node

end Resilient
