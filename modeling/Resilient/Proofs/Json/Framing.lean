import Mathlib.Tactic.SplitIfs
import Resilient.Proofs.Json.Reading

/-!
# What waits below is left alone

A token that is taken with some containers on the stack is taken in the same way with more of them
below (`frames_react`). So a run inside a container does not depend on what the container stands in
(`passes_framed`), and the containers that it enters stand inside that one.
-/

namespace Resilient

namespace Json

variable {limits : Limits} {mode : Mode} {t : Token} {st st₁ below : List Frame} {g : Group}
  {turn framed : Turn}

/-- A value that is read, or a container that is entered, stands inside a container on the stack. -/
def Mode.Inner (st : List Frame) : Mode → Prop
  | .value | .opened _ _ => st ≠ []
  | _ => True

/-- If the token is taken, the second decision is the first one with more containers below. -/
def Frames (below : List Frame) (turn framed : Turn) : Prop :=
  ∀ mode st, turn.move = .consume mode st →
    mode.Inner st ∧ framed = ⟨turn.reports, .consume mode (st ++ below)⟩

theorem frames_consume (h : mode.Inner st) :
    Frames below (.consume mode st) (.consume mode (st ++ below)) := by
  rintro _ _ ⟨⟩
  exact ⟨h, rfl⟩

theorem frames_finish (below : List Frame) (v : Value) (c : Bool) (framed : Turn) :
    Frames below (.finish v c) framed := by
  rintro _ _ ⟨⟩

theorem Frames.behind (h : Frames below turn framed) (reports : List Diagnostic) :
    Frames below (turn.behind reports) (framed.behind reports) := by
  intro mode st hm
  obtain ⟨hin, rfl⟩ := h mode st hm
  exact ⟨hin, rfl⟩

theorem frames_separate (t : Token) (c : Bool) (g : Group) (st below : List Frame) :
    Frames below (separate t c g st) (separate t c g (st ++ below)) := by
  induction st generalizing c g with
  | nil =>
    rw [separate.eq_def, separate.eq_def t c g ([] ++ below)]
    split_ifs
    · exact frames_consume trivial
    · exact frames_consume trivial
    · exact (frames_finish below g.value true _).behind _
    · refine Frames.behind ?_ _
      exact frames_consume trivial
  | cons f st ih =>
    rw [separate.eq_def, separate.eq_def t c g (f :: st ++ below)]
    split_ifs
    · exact frames_consume trivial
    · exact frames_consume trivial
    · exact (ih true (f.fill g.value)).behind _
    · refine Frames.behind ?_ _
      exact frames_consume trivial

theorem frames_settle (t : Token) (c : Bool) (v : Value) (st below : List Frame) :
    Frames below (settle t c v st) (settle t c v (st ++ below)) := by
  cases st with
  | nil => exact frames_finish below v c _
  | cons f st => exact frames_separate t c (f.fill v) st below

theorem frames_seekSeparator (t : Token) (c : Bool) (k : Nat) (g : Group)
    (st below : List Frame) :
    Frames below (seekSeparator t c k g st) (seekSeparator t c k g (st ++ below)) := by
  unfold seekSeparator
  split_ifs
  · exact frames_separate t c g st below
  · exact frames_consume trivial

theorem frames_seekValue (t : Token) (c : Bool) (k : Nat) (st below : List Frame) :
    Frames below (seekValue t c k st) (seekValue t c k (st ++ below)) := by
  unfold seekValue
  split_ifs
  · exact frames_settle t c .null st below
  · exact frames_consume trivial

theorem frames_colonAt (t : Token) (c : Bool) (done : Entries Value) (key : Option String)
    (st below : List Frame) :
    Frames below (colonAt t c done key st) (colonAt t c done key (st ++ below)) := by
  unfold colonAt
  split_ifs
  · exact frames_consume (List.cons_ne_nil _ _)
  · exact (frames_seekSeparator t true 0 _ st below).behind _
  · exact frames_seekSeparator t c 0 _ st below

theorem frames_seekColon (t : Token) (c : Bool) (k : Nat) (done : Entries Value)
    (st below : List Frame) :
    Frames below (seekColon t c k done st) (seekColon t c k done (st ++ below)) := by
  unfold seekColon
  split_ifs
  · exact frames_colonAt t c done none st below
  · exact frames_consume trivial

theorem frames_valueAt (t : Token) (c : Bool) {st : List Frame} (h : st ≠ [])
    (below : List Frame) :
    Frames below (valueAt t c st) (valueAt t c (st ++ below)) := by
  unfold valueAt
  split
  case h_1 | h_2 => exact frames_consume h
  case h_9 => exact (frames_seekValue t true 0 st below).behind _
  all_goals exact frames_consume trivial

theorem frames_keyAt (t : Token) (c : Bool) (done : Entries Value) (st below : List Frame) :
    Frames below (keyAt t c done st) (keyAt t c done (st ++ below)) := by
  unfold keyAt
  split
  case h_3 => exact (frames_seekColon t true 0 done st below).behind _
  all_goals exact frames_consume trivial

theorem frames_partAt (t : Token) (c : Bool) (g : Group) (st below : List Frame) :
    Frames below (partAt t c g st) (partAt t c g (st ++ below)) := by
  cases g with
  | array done => exact frames_valueAt t c (List.cons_ne_nil (.item done) st) below
  | object done => exact frames_keyAt t c done st below

theorem frames_skipAt (t : Token) (c : Bool) (k : Nat) (st below : List Frame) :
    Frames below (skipAt t c k st) (skipAt t c k (st ++ below)) := by
  unfold skipAt
  split_ifs
  · exact frames_settle t c .null st below
  · exact frames_consume trivial
  · exact frames_consume trivial

/-- Without a bound on depth a token that is taken is taken in the same way with more containers
below. -/
theorem frames_react (hl : limits.depth = none) (c : Bool) (t : Token)
    (h : mode = .value → st ≠ []) (below : List Frame) :
    Frames below (react limits mode st c t) (react limits mode (st ++ below) c t) := by
  cases mode with
  | value => exact frames_valueAt t c (h rfl) below
  | opened g b =>
    rw [react_opened hl, react_opened hl]
    split_ifs
    · exact frames_consume trivial
    · exact frames_partAt t c g st below
  | key done => exact frames_keyAt t c done st below
  | colon done key => exact frames_colonAt t c done key st below
  | separated g b =>
    simp only [react]
    split_ifs
    · refine Frames.behind ?_ _
      exact frames_consume trivial
    · exact frames_partAt t c g st below
  | seekValue k => exact frames_seekValue t c k st below
  | seekColon k done => exact frames_seekColon t c k done st below
  | seekSeparator k g => exact frames_seekSeparator t c k g st below
  | skip k => exact frames_skipAt t c k st below
  | ended v => exact frames_settle t c v st below

/-! ### Runs -/

/-- A run inside a container is the same whatever the container stands in. -/
theorem passes_framed {x y : State} {ss : List Scan} {r : List Diagnostic}
    (h : Passes limits x ss r y) (hl : limits.depth = none) (hx : x.mode = .value → x.stack ≠ [])
    (below : List Frame) :
    Passes limits ⟨x.mode, x.stack ++ below, x.complained⟩ ss r
      ⟨y.mode, y.stack ++ below, y.complained⟩ := by
  induction h with
  | nil => exact .nil
  | @cons x y s ss reports more mode stack hm _ ih =>
    obtain ⟨hin, hframed⟩ := frames_react hl x.complained s.token hx below mode stack
      (congrArg Turn.move hm)
    have hm : react limits x.mode x.stack x.complained s.token = ⟨reports, .consume mode stack⟩ :=
      hm
    rw [hm] at hframed
    refine .cons hframed (ih fun hmode => ?_)
    have hmode : mode = .value := hmode
    rwa [hmode] at hin

end Json

end Resilient
