import Mathlib.Tactic.SplitIfs
import Resilient.Proofs.Expression.Reading

/-!
# What the automaton of expressions reports

A decision on a token reports at most that something else was wanted, or that the parenthesis, which
is then taken, opens too deep; never both (`tells_react`).
-/

namespace Resilient

namespace Expression

/-- What a decision on a token reports, and whether a token that stays is held to be out of
place. -/
inductive Tells (t : Token) (c : Bool) (turn : Turn) : Prop where
  | once (h : turn.Once t c) (hm : turn.Marks c)
  | tooDeep {max : Nat} {mode : Mode} {st : List Frame} (hk : t.kind = .leftParen)
      (h : turn = ⟨[.of (.maxDepthExceeded max) t.span], .consume mode st⟩)

variable {t : Token} {c : Bool} {turn : Turn}

theorem tells_consume (t : Token) (c : Bool) (mode : Mode) (st : List Frame) :
    Tells t c (.consume mode st) :=
  .once (Turn.once_consume t c mode st) (Turn.marks_consume c mode st)

theorem tells_finish (t : Token) (c : Bool) (n : Node) : Tells t c (.finish n c) :=
  .once (Turn.once_finish t c n c) (Turn.marks_finish c n)

/-- A token that binds nothing opens no parentheses, so nothing else is reported on it. -/
theorem Tells.behind (h : Tells t true turn) (hk : t.kind ≠ .leftParen) (wanted : String)
    (c : Bool) : Tells t c (turn.behind (t.expected wanted c)) := by
  cases h with
  | once h hm => exact .once (h.behind wanted c) (hm.behind wanted c)
  | tooDeep h _ => exact absurd h hk

theorem tells_operandAt (limits : Limits) (h : startsOperand t.kind = true) (c : Bool)
    (st : List Frame) : Tells t c (operandAt limits t st) := by
  rw [operandAt]
  split
  · exact tells_consume t c _ _
  · exact tells_consume t c _ _
  · rename_i hidentifier hnumber
    have hparen : t.kind = .leftParen := by
      unfold startsOperand at h
      split at h
      · rename_i hk
        exact absurd hk hidentifier
      · rename_i hk
        exact absurd hk hnumber
      · assumption
      · cases h
    split
    · exact .tooDeep hparen rfl
    · exact tells_consume t c _ _

theorem tells_shift (limits : Limits) (h : 0 < strength t.kind) (c : Bool) (n : Node)
    (st : List Frame) : Tells t c (shift limits t n st) := by
  unfold shift strength at *
  split_ifs at * with hcaret hstarts
  · exact tells_consume t c _ _
  · exact tells_operandAt limits hstarts c _
  · split at h
    · exact tells_consume t c _ _
    · omega

theorem tells_settle (limits : Limits) (t : Token) (c : Bool) (n : Node) (st : List Frame) :
    Tells t c (settle limits t c n st) := by
  have hparen : strength Kind.leftParen ≠ 0 := by decide
  induction st generalizing c n with
  | nil =>
    unfold settle
    split_ifs with h0
    · exact tells_finish t c n
    · exact tells_shift limits (Nat.pos_of_ne_zero h0) c n _
  | cons f below ih =>
    cases f with
    | group b =>
      unfold settle
      split_ifs with hpos hclose
      · exact tells_shift limits hpos c n _
      · exact tells_consume t c _ _
      · refine (ih true _).behind (fun hk => ?_) _ c
        rw [hk] at hpos
        exact hpos (Nat.pos_of_ne_zero hparen)
    | operand _ _ _ | negation _ | factor _ | base _ =>
      unfold settle
      split_ifs with hle
      · exact ih c _
      · have hpos : 0 < strength t.kind := by
          simp only [Frame.strength?, Option.any_some, decide_eq_true_eq] at hle
          omega
        exact tells_shift limits hpos c n _

theorem tells_primaryAt (limits : Limits) (t : Token) (c : Bool) (st : List Frame) :
    Tells t c (primaryAt limits t c st) := by
  rw [primaryAt]
  split_ifs with hstarts
  · exact tells_operandAt limits hstarts c st
  · refine (tells_settle limits t true _ st).behind (fun hk => ?_) _ c
    rw [hk] at hstarts
    exact hstarts rfl

theorem tells_skipAt (limits : Limits) (t : Token) (c : Bool) (k : Nat) (b : Span)
    (last : Option Span) (st : List Frame) : Tells t c (skipAt limits t c k b last st) := by
  rw [skipAt]
  split_ifs
  · exact tells_settle limits t c _ st
  all_goals exact tells_consume t c _ _

/-- On each token at most one report is made. -/
theorem tells_react (limits : Limits) (mode : Mode) (st : List Frame) (c : Bool) (t : Token) :
    Tells t c (react limits mode st c t) := by
  cases mode with
  | signed =>
    rw [react]
    split_ifs
    · exact tells_consume t c _ _
    · exact tells_primaryAt limits t c st
  | primary => exact tells_primaryAt limits t c st
  | settled n => exact tells_settle limits t c n st
  | skip k b last => exact tells_skipAt limits t c k b last st

end Expression

end Resilient
