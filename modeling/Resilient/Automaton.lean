import Resilient.Scan

/-!
# Readers of tokens with a stack

Both languages are read by an automaton with a stack. In each of its modes it decides on one token:
the token is taken, and the next one is met in another mode and with another stack, or it stays,
because the result is complete. `Automaton.run` goes through the scans of a text; `run_consume` and
`run_finish` say what one token adds to the result. A token that is out of place is reported once
only, however many decisions it takes to get past it.
-/

namespace Resilient

/-- What becomes of the token at hand. -/
inductive Move (Mode Frame Result : Type) where
  /-- It is taken, and the next one is met in this mode and with this stack. -/
  | consume (mode : Mode) (stack : List Frame)
  /-- It stays, and the result is complete; `complained` says whether the token was reported to be
  out of place. -/
  | finish (result : Result) (complained : Bool)

/-- What one decision of an automaton reports, and what it does next. -/
structure Turn (Mode Frame Result : Type) where
  reports : List Diagnostic
  move : Move Mode Frame Result

namespace Turn

variable {Mode Frame Result : Type}

/-- The token is taken without a report. -/
def consume (mode : Mode) (stack : List Frame) : Turn Mode Frame Result :=
  ⟨[], .consume mode stack⟩

/-- The token stays without a report. -/
def finish (result : Result) (complained : Bool) : Turn Mode Frame Result :=
  ⟨[], .finish result complained⟩

/-- The same decision behind earlier reports. -/
def behind (reports : List Diagnostic) (turn : Turn Mode Frame Result) : Turn Mode Frame Result :=
  ⟨reports ++ turn.reports, turn.move⟩

/-- The token stays. -/
def Finishes (turn : Turn Mode Frame Result) : Prop :=
  ∃ result complained, turn.move = .finish result complained

@[simp] theorem reports_consume (mode : Mode) (stack : List Frame) :
    (consume mode stack : Turn Mode Frame Result).reports = [] := rfl

@[simp] theorem move_consume (mode : Mode) (stack : List Frame) :
    (consume mode stack : Turn Mode Frame Result).move = .consume mode stack := rfl

@[simp] theorem reports_behind (reports : List Diagnostic) (turn : Turn Mode Frame Result) :
    (turn.behind reports).reports = reports ++ turn.reports := rfl

@[simp] theorem move_behind (reports : List Diagnostic) (turn : Turn Mode Frame Result) :
    (turn.behind reports).move = turn.move := rfl

@[simp] theorem finishes_finish (result : Result) (complained : Bool) :
    (finish result complained : Turn Mode Frame Result).Finishes := ⟨_, _, rfl⟩

@[simp] theorem finishes_behind_iff (reports : List Diagnostic) (turn : Turn Mode Frame Result) :
    (turn.behind reports).Finishes ↔ turn.Finishes := Iff.rfl

end Turn

/-- The report that something else was wanted, unless the token was reported before. -/
def Token.expected (t : Token) (wanted : String) (complained : Bool) : List Diagnostic :=
  if complained then [] else [.of (.expected wanted t.kind.name) t.span]

/-- The result of reading, and what is left. -/
structure Outcome (Result : Type) where
  result : Result
  /-- The reports, in the order in which they were made. -/
  reports : List Diagnostic
  /-- Whether the first token left was reported to be out of place. -/
  complained : Bool
  /-- The scans left; the reports of the first one are made already. -/
  unread : List Scan

namespace Automaton

/-- Reads scans until the result is complete, behind earlier reports, last first. -/
@[specialize] def run {Mode Frame Result : Type} [Inhabited Result]
    (react : Mode → List Frame → Bool → Token → Turn Mode Frame Result) (mode : Mode)
    (stack : List Frame) (complained : Bool) (made : List Diagnostic) :
    List Scan → Outcome Result
  | [] => ⟨default, made.reverse, complained, []⟩
  | s :: scans =>
    let turn := react mode stack complained s.token
    let made := turn.reports.reverse ++ (s.reports.reverse ++ made)
    match turn.move with
    | .consume mode stack => run react mode stack false made scans
    | .finish result complained =>
      ⟨result, made.reverse, complained, { s with reports := [] } :: scans⟩

section

variable {Mode Frame Result : Type} [Inhabited Result]
  {react : Mode → List Frame → Bool → Token → Turn Mode Frame Result}

/-- Earlier reports stand before those of the run and change nothing else. -/
theorem run_made (mode : Mode) (stack : List Frame) (complained : Bool) (made : List Diagnostic)
    (scans : List Scan) :
    run react mode stack complained made scans =
      { run react mode stack complained [] scans with
        reports := made.reverse ++ (run react mode stack complained [] scans).reports } := by
  induction scans generalizing mode stack complained made with
  | nil => simp [run]
  | cons s scans ih =>
    simp only [run]
    split
    · rename_i mode' stack' _
      rw [ih, ih mode' stack' false (_ ++ (_ ++ []))]
      simp
    · simp

theorem run_consume {mode mode' : Mode} {stack stack' : List Frame} {complained : Bool} {s : Scan}
    (h : (react mode stack complained s.token).move = .consume mode' stack') (scans : List Scan) :
    run react mode stack complained [] (s :: scans) =
      { run react mode' stack' false [] scans with
        reports := s.reports ++ (react mode stack complained s.token).reports
          ++ (run react mode' stack' false [] scans).reports } := by
  rw [run]
  simp only [h]
  rw [run_made]
  simp

theorem run_finish {mode : Mode} {stack : List Frame} {complained c : Bool} {s : Scan}
    {result : Result} (h : (react mode stack complained s.token).move = .finish result c)
    (scans : List Scan) :
    run react mode stack complained [] (s :: scans) =
      ⟨result, s.reports ++ (react mode stack complained s.token).reports, c,
        { s with reports := [] } :: scans⟩ := by
  rw [run]
  simp [h]

end

end Automaton

end Resilient
