import Mathlib.Tactic.SplitIfs
import Resilient.Proofs.Json.Framing
import Resilient.Proofs.Json.Reports

/-!
# What the end of the text makes of a state

The end of the text closes the containers that are still open, one after the other (`close`). So
each state has a value in store (`State.last`), which is the result if the text ends there
(`concludes_react`), and the end is reported at most once (`once_react`).
-/

namespace Resilient

namespace Json

variable {limits : Limits} {mode : Mode} {t : Token} {st : List Frame} {g : Group} {v : Value}
  {turn : Turn} {ss us : List Scan} {part : Part} {x y : State}

/-- The value of the outermost container, if all of them end behind this value. -/
def close (v : Value) (st : List Frame) : Value := st.foldl (fun v f => (f.fill v).value) v

@[simp] theorem close_nil (v : Value) : close v [] = v := rfl

@[simp] theorem close_cons (v : Value) (f : Frame) (st : List Frame) :
    close v (f :: st) = close (f.fill v).value st := rfl

theorem close_append (v : Value) (st below : List Frame) :
    close v (st ++ below) = close (close v st) below := List.foldl_append

/-- The value if the text ends where a part of the container is due: an item is missing, a member
is not. -/
def Group.lastPart (g : Group) (st : List Frame) : Value :=
  match g with
  | .array done => close .null (.item done :: st)
  | .object done => close (.object done) st

/-- The value if the text ends in a mode. -/
def Mode.last (st : List Frame) : Mode → Value
  | .value | .seekValue _ | .skip _ => close .null st
  | .opened g _ | .separated g _ => g.lastPart st
  | .key done | .colon done _ | .seekColon _ done => close (.object done) st
  | .seekSeparator _ g => close g.value st
  | .ended v => close v st

/-- The value if the text ends in a state. -/
def State.last (x : State) : Value := x.mode.last x.stack

/-- More containers below are closed behind the others. -/
theorem Mode.last_append (mode : Mode) (st below : List Frame) :
    mode.last (st ++ below) = close (mode.last st) below := by
  cases mode with
  | opened g _ | separated g _ =>
    cases g with
    | array done => exact close_append .null (.item done :: st) below
    | object done => exact close_append _ st below
  | _ => exact close_append _ st below

theorem Starts.last (h : Starts g st x) : x.last = (g.part st).last := by
  cases h <;> cases g <;> rfl

/-! ### The decision on the end -/

/-- The token stays, and this is the result. -/
def Concludes (v : Value) (turn : Turn) : Prop := ∃ c, turn.move = .finish v c

section

variable (h : t.kind = .eof)

include h

theorem ne_closer_of_eof (g : Group) : t.kind ≠ g.closer := by
  rw [h]
  exact (closer_ne_eof g).symm

theorem concludes_separate (c : Bool) (g : Group) (st : List Frame) :
    Concludes (close g.value st) (separate t c g st) := by
  have hcomma : t.kind ≠ .comma := by rw [h]; decide
  have hstays : (t.kind = .eof || t.kind.closes) = true := by simp [h]
  induction st generalizing c g with
  | nil =>
    rw [separate.eq_def, if_neg hcomma, if_neg (ne_closer_of_eof h g), if_pos hstays]
    exact ⟨true, rfl⟩
  | cons f st ih =>
    rw [separate.eq_def, if_neg hcomma, if_neg (ne_closer_of_eof h g), if_pos hstays]
    exact ih true (f.fill g.value)

theorem concludes_settle (c : Bool) (v : Value) (st : List Frame) :
    Concludes (close v st) (settle t c v st) := by
  cases st with
  | nil => exact ⟨c, rfl⟩
  | cons f st => exact concludes_separate h c (f.fill v) st

theorem concludes_seekSeparator (c : Bool) (n : Nat) (g : Group) (st : List Frame) :
    Concludes (close g.value st) (seekSeparator t c n g st) := by
  rw [seekSeparator, if_pos (stops_eof h n)]
  exact concludes_separate h c g st

theorem concludes_seekValue (c : Bool) (n : Nat) (st : List Frame) :
    Concludes (close .null st) (seekValue t c n st) := by
  rw [seekValue, if_pos (stops_eof h n)]
  exact concludes_settle h c .null st

theorem concludes_colonAt (c : Bool) (done : Entries Value) (key : Option String)
    (st : List Frame) :
    Concludes (close (.object done) st) (colonAt t c done key st) := by
  have hcolon : t.kind ≠ .colon := by rw [h]; decide
  rw [colonAt, if_neg hcolon]
  split_ifs
  · exact concludes_seekSeparator h true 0 _ st
  · exact concludes_seekSeparator h c 0 _ st

theorem concludes_seekColon (c : Bool) (n : Nat) (done : Entries Value) (st : List Frame) :
    Concludes (close (.object done) st) (seekColon t c n done st) := by
  rw [seekColon, stops_eof h, Bool.or_true, if_pos rfl]
  exact concludes_colonAt h c done none st

theorem concludes_valueAt (c : Bool) (st : List Frame) :
    Concludes (close .null st) (valueAt t c st) := by
  rw [valueAt, h]
  exact concludes_seekValue h true 0 st

theorem concludes_keyAt (c : Bool) (done : Entries Value) (st : List Frame) :
    Concludes (close (.object done) st) (keyAt t c done st) := by
  rw [keyAt, h]
  exact concludes_seekColon h true 0 done st

theorem concludes_partAt (c : Bool) (g : Group) (st : List Frame) :
    Concludes (g.lastPart st) (partAt t c g st) := by
  cases g with
  | array done => exact concludes_valueAt h c (.item done :: st)
  | object done => exact concludes_keyAt h c done st

theorem concludes_skipAt (c : Bool) (n : Nat) (st : List Frame) :
    Concludes (close .null st) (skipAt t c n st) := by
  rw [skipAt, if_pos h]
  exact concludes_settle h c .null st

/-- Without a bound on depth the end of the text makes the value in store the result. -/
theorem concludes_react (hl : limits.depth = none) (mode : Mode) (st : List Frame) (c : Bool) :
    Concludes (mode.last st) (react limits mode st c t) := by
  cases mode with
  | value => exact concludes_valueAt h c st
  | opened g b =>
    rw [react_opened hl, if_neg (ne_closer_of_eof h g)]
    exact concludes_partAt h c g st
  | key done => exact concludes_keyAt h c done st
  | colon done key => exact concludes_colonAt h c done key st
  | separated g b =>
    rw [react, if_neg (ne_closer_of_eof h g)]
    exact concludes_partAt h c g st
  | seekValue n => exact concludes_seekValue h c n st
  | seekColon n done => exact concludes_seekColon h c n done st
  | seekSeparator n g => exact concludes_seekSeparator h c n g st
  | skip n => exact concludes_skipAt h c n st
  | ended v => exact concludes_settle h c v st

theorem once_react (hl : limits.depth = none) (mode : Mode) (st : List Frame) (c : Bool) :
    (react limits mode st c t).Once t c := by
  cases mode with
  | value => exact (local_valueAt t c st).once
  | opened g b =>
    rw [react_opened hl, if_neg (ne_closer_of_eof h g)]
    exact (local_partAt t c g st).once
  | key done => exact (local_keyAt t c done st).once
  | colon done key => exact (local_colonAt t c done key st).once
  | separated g b =>
    rw [react, if_neg (ne_closer_of_eof h g)]
    exact (local_partAt t c g st).once
  | seekValue n => exact (local_seekValue t c n st).once
  | seekColon n done => exact (local_seekColon t c n done st).once
  | seekSeparator n g => exact (local_seekSeparator t c n g st).once
  | skip n => exact (local_skipAt t c n st).once
  | ended v => exact (local_settle t c v st).once

end

end Json

end Resilient
