/-!
# Operator symbols

The operators that a tree applies, and their spellings.
-/

namespace Resilient

/-- An operator of a tree. -/
inductive Symbol where
  | assign | bitAnd | bitOr | eq | notEq | less | lessEq | greater | greaterEq
  | add | sub | mul | div | rem | shl | shr | pow
  /-- The minus sign before an operand. -/
  | neg
  deriving DecidableEq

namespace Symbol

/-- All operators that a tree can apply, each with a spelling of its own (`spelling_injective`). -/
def all : List Symbol :=
  [assign, bitAnd, bitOr, eq, notEq, less, lessEq, greater, greaterEq, add, sub, mul, div, rem,
    shl, shr, pow, neg]

/-- The spelling of a symbol in a written tree. -/
def spelling : Symbol → String
  | assign => "="
  | bitAnd => "&"
  | bitOr => "|"
  | eq => "=="
  | notEq => "!="
  | less => "<"
  | lessEq => "<="
  | greater => ">"
  | greaterEq => ">="
  | add => "+"
  | sub => "-"
  | mul => "*"
  | div => "/"
  | rem => "%"
  | shl => "<<"
  | shr => ">>"
  | pow => "^"
  | neg => "neg"

theorem mem_all (s : Symbol) : s ∈ all := by cases s <;> decide

/-- The spelling in a written tree singles out the operator. -/
theorem spelling_injective {a b : Symbol} (h : a.spelling = b.spelling) : a = b := by
  have key : ∀ a ∈ all, ∀ b ∈ all, a.spelling = b.spelling → a = b := by decide +kernel
  exact key a (mem_all a) b (mem_all b) h

end Symbol

end Resilient
