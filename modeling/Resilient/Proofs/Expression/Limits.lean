import Mathlib.Tactic.SplitIfs
import Resilient.Proofs.Expression.Acceptance

/-!
# Limits of reading expressions

A limit acts only where it is reported: without such a report the text is read as if there were no
limits (`parse_eq_unlimited`).
-/

namespace Resilient

namespace Expression

/-- No limit is reported. -/
def Unbounded (turn : Turn) : Prop := ∀ d ∈ turn.reports, d.category ≠ .limit

variable {limits : Limits} {t : Token} {st : List Frame} {n : Node} {mode : Mode} {c : Bool}
  {turn : Turn} {source : String} {options : Options}

theorem Unbounded.of_behind {reports : List Diagnostic} (h : Unbounded (turn.behind reports)) :
    Unbounded turn := fun d hd => h d (List.mem_append_right _ hd)

/-! ### Decisions that report no limit are taken as without limits -/

theorem operandAt_eq (h : Unbounded (operandAt limits t st)) :
    operandAt limits t st = operandAt .unlimited t st := by
  unfold operandAt at h ⊢
  split
  · rfl
  · rfl
  · cases hr : limits.reachedDepth fun _ => st.countP Frame.isGroup with
    | some max =>
      simp only [hr] at h
      exact absurd rfl (h (.of (.maxDepthExceeded max) t.span) (List.mem_singleton_self _))
    | none => rfl

theorem shift_eq (h : Unbounded (shift limits t n st)) :
    shift limits t n st = shift .unlimited t n st := by
  by_cases hc : t.kind = .caret
  · rw [shift_of_caret hc, shift_of_caret hc]
  · by_cases ho : startsOperand t.kind = true
    · rw [shift_of_startsOperand ho] at h ⊢
      rw [shift_of_startsOperand ho, operandAt_eq h]
    · rw [shift, shift, if_neg hc, if_neg hc, if_neg ho, if_neg ho]

theorem settle_eq (h : Unbounded (settle limits t c n st)) :
    settle limits t c n st = settle .unlimited t c n st := by
  induction st generalizing c n with
  | nil =>
    unfold settle at h ⊢
    split_ifs at h ⊢
    · rfl
    · exact shift_eq h
  | cons f below ih =>
    cases f with
    | group b =>
      unfold settle at h ⊢
      split_ifs at h ⊢
      · exact shift_eq h
      · rfl
      · rw [ih h.of_behind]
    | operand _ _ _ | negation _ | factor _ | base _ =>
      unfold settle at h ⊢
      split_ifs at h ⊢
      · exact ih h
      · exact shift_eq h

theorem primaryAt_eq (h : Unbounded (primaryAt limits t c st)) :
    primaryAt limits t c st = primaryAt .unlimited t c st := by
  unfold primaryAt at h ⊢
  split_ifs at h ⊢
  · exact operandAt_eq h
  · rw [settle_eq h.of_behind]

theorem react_eq (h : Unbounded (react limits mode st c t)) :
    react limits mode st c t = react .unlimited mode st c t := by
  cases mode with
  | signed =>
    simp only [react] at h ⊢
    split_ifs at h ⊢
    · rfl
    · exact primaryAt_eq h
  | primary => exact primaryAt_eq h
  | settled n => exact settle_eq h
  | skip k b last =>
    simp only [react, skipAt] at h ⊢
    split_ifs at h ⊢
    · exact settle_eq h
    · rfl
    all_goals rfl

/-! ### Whole texts -/

theorem parse_eq_unlimited (h : ∀ d ∈ (parse source options).2, d.category ≠ .limit) :
    parse source options = parse source { options with limits := .unlimited } := by
  cases hsize : options.limits.exceededSize source with
  | some max =>
    rw [parse_of_exceededSize hsize] at h
    exact absurd rfl (h _ (List.mem_singleton_self _))
  | none =>
    have hfree : ({ options with limits := .unlimited } : Options).limits.exceededSize source =
        none := rfl
    rw [parse_of_fits hsize] at h ⊢
    have hrun := Automaton.run_congr (react .unlimited) (fun _ _ _ _ => react_eq)
      fun d hd => h d (List.mem_append_right _ (List.mem_append_left _ hd))
    rw [parse_of_fits hfree, hrun]
    rfl

end Expression

end Resilient
