import Mathlib.Tactic.SplitIfs
import Resilient.Proofs.Json.Reading

/-!
# Values cut off at a depth

`Value.truncate n` puts null in the place of each container inside `n` others. The bound on depth
does the same while a text is read: as long as no container beyond the bound is entered, the bounded
automaton decides as the free one does, on what waits there cut off at the bound (`tracks_react`).
-/

namespace Resilient

mutual

/-- The value with null in the place of each container inside `n` others. -/
def Value.truncate : Nat → Value → Value
  | 0, .array _ | 0, .object _ => .null
  | n + 1, .array items => .array (Value.truncateItems n items)
  | n + 1, .object entries => .object (Value.truncateEntries n entries)
  | _, v => v

/-- Items, each truncated. -/
def Value.truncateItems (n : Nat) : List Value → List Value
  | [] => []
  | v :: vs => v.truncate n :: Value.truncateItems n vs

/-- Entries with their values truncated. -/
def Value.truncateEntries (n : Nat) : List (String × Value) → List (String × Value)
  | [] => []
  | (k, v) :: es => (k, v.truncate n) :: Value.truncateEntries n es

end

namespace Value

@[simp] theorem truncate_null (n : Nat) : null.truncate n = null := by cases n <;> rfl

@[simp] theorem truncate_ofScalar (n : Nat) (a : Scalar) :
    (ofScalar a).truncate n = ofScalar a := by
  cases a <;> cases n <;> rfl

@[simp] theorem truncateItems_eq (n : Nat) (vs : List Value) :
    truncateItems n vs = vs.map (truncate n) := by
  induction vs with
  | nil => rfl
  | cons v vs ih => rw [truncateItems, ih, List.map_cons]

theorem truncateEntries_insert (n : Nat) (es : Entries Value) (key : String) (v : Value) :
    truncateEntries n (es.insert key v) =
      Entries.insert (truncateEntries n es) key (v.truncate n) := by
  induction es with
  | nil => rfl
  | cons e es ih =>
    obtain ⟨k, w⟩ := e
    simp only [Entries.insert] at ih
    by_cases h : k = key <;> simp [Entries.insert, Entries.put, truncateEntries, h, ih]

end Value

namespace Json

variable {limits free : Limits} {max n : Nat} {t : Token} {g : Group} {st : List Frame}
  {v : Value} {mode : Mode}

/-! ### What waits, cut off -/

/-- The parts of the container are cut off inside `n` others. -/
def Group.truncate (n : Nat) : Group → Group
  | .array done => .array (done.map (Value.truncate n))
  | .object done => .object (Value.truncateEntries n done)

/-- A frame with the parts it holds truncated. -/
def Frame.truncate (n : Nat) : Frame → Frame
  | .item done => .item (done.map (Value.truncate n))
  | .member done key => .member (Value.truncateEntries n done) key

@[simp] theorem closer_truncate (n : Nat) (g : Group) : (g.truncate n).closer = g.closer := by
  cases g <;> rfl

@[simp] theorem wanted_truncate (n : Nat) (g : Group) : (g.truncate n).wanted = g.wanted := by
  cases g <;> rfl

theorem value_truncate (n : Nat) (g : Group) : (g.truncate n).value = g.value.truncate (n + 1) := by
  cases g with
  | array done => simp [Group.truncate, Group.value, Value.truncate, List.map_reverse]
  | object done => rfl

theorem fill_truncate (n : Nat) (f : Frame) (v : Value) :
    (f.truncate n).fill (v.truncate n) = (f.fill v).truncate n := by
  cases f with
  | item done => rfl
  | member done key =>
    simp [Frame.truncate, Frame.fill, Group.truncate, Value.truncateEntries_insert]

theorem truncate_value_zero (g : Group) : g.value.truncate 0 = .null := by cases g <;> rfl

/-- What waits, each container with its parts cut off at the bound. -/
def truncateStack (max : Nat) : List Frame → List Frame
  | [] => []
  | f :: st => f.truncate (max - (st.length + 1)) :: truncateStack max st

@[simp] theorem length_truncateStack (max : Nat) (st : List Frame) :
    (truncateStack max st).length = st.length := by
  induction st with
  | nil => rfl
  | cons f st ih => simp [truncateStack, ih]

/-- What the mode holds, inside `depth` containers, cut off at the bound. -/
def Mode.truncate (max depth : Nat) : Mode → Mode
  | .value => .value
  | .opened g b => .opened (g.truncate (max - (depth + 1))) b
  | .key done => .key (Value.truncateEntries (max - (depth + 1)) done)
  | .colon done k => .colon (Value.truncateEntries (max - (depth + 1)) done) k
  | .separated g b => .separated (g.truncate (max - (depth + 1))) b
  | .seekValue k => .seekValue k
  | .seekColon k done => .seekColon k (Value.truncateEntries (max - (depth + 1)) done)
  | .seekSeparator k g => .seekSeparator k (g.truncate (max - (depth + 1)))
  | .skip k => .skip k
  | .ended v => .ended (v.truncate (max - depth))

/-- No container beyond the bound is entered, unless the next token is the first one inside. -/
def Mode.Within (max : Nat) (st : List Frame) : Mode → Prop
  | .value | .opened _ _ | .seekValue _ | .skip _ | .ended _ => st.length ≤ max
  | .key _ | .colon _ _ | .separated _ _ | .seekColon _ _ | .seekSeparator _ _ => st.length < max

/-- A move to truncated parts. -/
def truncateMove (max : Nat) : Move Mode Frame Value → Move Mode Frame Value
  | .consume mode st => .consume (mode.truncate max st.length) (truncateStack max st)
  | .finish v c => .finish (v.truncate max) c

/-! ### Decisions -/

/-- Both automata decide alike, and the free one keeps within the bound. -/
structure Tracks (max : Nat) (turn bounded : Turn) : Prop where
  reports : bounded.reports = turn.reports
  move : bounded.move = truncateMove max turn.move
  within : turn.Leaves (fun mode st => mode.Within max st) fun _ => True

theorem tracks_consume (mode : Mode) (st : List Frame) (h : mode.Within max st) :
    Tracks max (.consume mode st)
      (.consume (mode.truncate max st.length) (truncateStack max st)) := ⟨rfl, rfl, h⟩

theorem tracks_finish (max : Nat) (v : Value) (c : Bool) :
    Tracks max (.finish v c) (.finish (v.truncate max) c) := ⟨rfl, rfl, trivial⟩

theorem Tracks.behind {turn bounded : Turn} (h : Tracks max turn bounded)
    (reports : List Diagnostic) : Tracks max (turn.behind reports) (bounded.behind reports) :=
  ⟨congrArg (reports ++ ·) h.reports, h.move, h.within⟩

theorem tracks_ended (g : Group) (h : st.length < max) :
    Tracks max (.consume (.ended g.value) st)
      (.consume (.ended (g.truncate (max - (st.length + 1))).value) (truncateStack max st)) := by
  have hd : max - (st.length + 1) + 1 = max - st.length := by omega
  rw [value_truncate, hd]
  exact tracks_consume (.ended g.value) _ (Nat.le_of_lt h)

theorem tracks_separate (t : Token) (c : Bool) (g : Group) (h : st.length < max) :
    Tracks max (separate t c g st)
      (separate t c (g.truncate (max - (st.length + 1))) (truncateStack max st)) := by
  induction st generalizing c g with
  | nil =>
    rw [separate.eq_def, separate.eq_def t c (g.truncate _), closer_truncate, wanted_truncate]
    split_ifs
    · exact tracks_consume (.separated g t.span) _ h
    · exact tracks_ended g h
    · have hd : max - (0 + 1) + 1 = max := Nat.sub_add_cancel h
      have hv := value_truncate (max - (0 + 1)) g
      rw [hd] at hv
      simp only [truncateStack, List.length_nil, hv]
      exact (tracks_finish max g.value true).behind _
    · exact (tracks_consume (.seekSeparator (nest t 0) g) _ h).behind _
  | cons f st ih =>
    rw [separate.eq_def, separate.eq_def t c (g.truncate _), closer_truncate, wanted_truncate]
    split_ifs
    · exact tracks_consume (.separated g t.span) _ h
    · exact tracks_ended g h
    · rw [List.length_cons] at h
      have hd : max - (st.length + 1 + 1) + 1 = max - (st.length + 1) := by omega
      have hfill := fill_truncate (max - (st.length + 1)) f g.value
      rw [← hd, ← value_truncate, hd] at hfill
      simp only [truncateStack, List.length_cons, hfill]
      exact (ih true (f.fill g.value) (by omega)).behind _
    · exact (tracks_consume (.seekSeparator (nest t 0) g) _ h).behind _

theorem tracks_settle (t : Token) (c : Bool) (v : Value) (h : st.length ≤ max) :
    Tracks max (settle t c v st)
      (settle t c (v.truncate (max - st.length)) (truncateStack max st)) := by
  cases st with
  | nil => exact tracks_finish max v c
  | cons f st =>
    have hfill := fill_truncate (max - (st.length + 1)) f v
    simp only [settle, truncateStack, List.length_cons, hfill]
    exact tracks_separate t c (f.fill v) h

theorem tracks_settle_null (t : Token) (c : Bool) (h : st.length ≤ max) :
    Tracks max (settle t c .null st) (settle t c .null (truncateStack max st)) := by
  simpa using tracks_settle t c .null h

theorem tracks_seekSeparator (t : Token) (c : Bool) (k : Nat) (g : Group) (h : st.length < max) :
    Tracks max (seekSeparator t c k g st)
      (seekSeparator t c k (g.truncate (max - (st.length + 1))) (truncateStack max st)) := by
  unfold seekSeparator
  split_ifs
  · exact tracks_separate t c g h
  · exact tracks_consume (.seekSeparator (nest t k) g) _ h

theorem tracks_seekValue (t : Token) (c : Bool) (k : Nat) (h : st.length ≤ max) :
    Tracks max (seekValue t c k st) (seekValue t c k (truncateStack max st)) := by
  unfold seekValue
  split_ifs
  · exact tracks_settle_null t c h
  · exact tracks_consume (.seekValue (nest t k)) _ h

theorem tracks_colonAt (t : Token) (c : Bool) (done : Entries Value) (key : Option String)
    (h : st.length < max) :
    Tracks max (colonAt t c done key st)
      (colonAt t c (Value.truncateEntries (max - (st.length + 1)) done) key
        (truncateStack max st)) := by
  have hseek := fun c => tracks_seekSeparator t c 0 (.object done) h
  unfold colonAt
  split_ifs
  · exact tracks_consume .value (.member done (key.getD "") :: st) h
  · exact (hseek true).behind _
  · exact hseek c

theorem tracks_seekColon (t : Token) (c : Bool) (k : Nat) (done : Entries Value)
    (h : st.length < max) :
    Tracks max (seekColon t c k done st)
      (seekColon t c k (Value.truncateEntries (max - (st.length + 1)) done)
        (truncateStack max st)) := by
  unfold seekColon
  split_ifs
  · exact tracks_colonAt t c done none h
  · exact tracks_consume (.seekColon (nest t k) done) _ h

theorem tracks_valueAt (t : Token) (c : Bool) (st : List Frame) (h : st.length ≤ max) :
    Tracks max (valueAt t c st) (valueAt t c (truncateStack max st)) := by
  have hscalar : Tracks max (.consume (.ended ((t.payload.map Value.ofScalar).getD .null)) st)
      (.consume (.ended ((t.payload.map Value.ofScalar).getD .null)) (truncateStack max st)) := by
    have hv := tracks_consume (.ended ((t.payload.map Value.ofScalar).getD .null)) st h
    cases hp : t.payload <;> simpa [hp, Mode.truncate] using hv
  unfold valueAt
  split
  case h_1 => exact tracks_consume (.opened (.array []) t.span) _ h
  case h_2 => exact tracks_consume (.opened (.object []) t.span) _ h
  case h_8 => simpa [Mode.truncate] using tracks_consume (.ended .null) _ h
  case h_9 => exact (tracks_seekValue t true 0 h).behind _
  all_goals exact hscalar

theorem tracks_keyAt (t : Token) (c : Bool) (done : Entries Value) (h : st.length < max) :
    Tracks max (keyAt t c done st)
      (keyAt t c (Value.truncateEntries (max - (st.length + 1)) done) (truncateStack max st)) := by
  unfold keyAt
  split
  · exact tracks_consume (.colon done t.text?) _ h
  · exact tracks_consume (.colon done none) _ h
  · exact (tracks_seekColon t true 0 done h).behind _

theorem tracks_partAt (t : Token) (c : Bool) (g : Group) (h : st.length < max) :
    Tracks max (partAt t c g st)
      (partAt t c (g.truncate (max - (st.length + 1))) (truncateStack max st)) := by
  cases g with
  | array done => exact tracks_valueAt t c (.item done :: st) h
  | object done => exact tracks_keyAt t c done h

theorem tracks_skipAt (t : Token) (c : Bool) (k : Nat) (h : st.length ≤ max) :
    Tracks max (skipAt t c k st) (skipAt t c k (truncateStack max st)) := by
  unfold skipAt
  split_ifs
  · exact tracks_settle_null t c h
  · simpa [Mode.truncate] using tracks_consume (.ended .null) _ h
  · exact tracks_consume (.skip (nest t k)) _ h

/-- Unless the token is the first one inside a container beyond the bound, the bounded automaton
decides on it as the free one does. -/
theorem tracks_react (hf : free.depth = none) (hl : limits.depth = some max) (c : Bool) (t : Token)
    (h : mode.Within max st) (hopen : ∀ g b, mode = .opened g b → st.length < max) :
    Tracks max (react free mode st c t)
      (react limits (mode.truncate max st.length) (truncateStack max st) c t) := by
  cases mode with
  | value => exact tracks_valueAt t c st h
  | opened g b =>
    have hlt := hopen g b rfl
    have hr : (limits.reachedDepth fun _ => (truncateStack max st).length) = none := by
      simp [Limits.reachedDepth, hl, hlt]
    rw [react_opened hf]
    simp only [Mode.truncate, react, hr, closer_truncate]
    split_ifs
    · exact tracks_ended g hlt
    · exact tracks_partAt t c g hlt
  | key done => exact tracks_keyAt t c done h
  | colon done key => exact tracks_colonAt t c done key h
  | separated g b =>
    simp only [Mode.truncate, react, closer_truncate]
    split_ifs
    · exact (tracks_ended g h).behind _
    · exact tracks_partAt t c g h
  | seekValue k => exact tracks_seekValue t c k h
  | seekColon k done => exact tracks_seekColon t c k done h
  | seekSeparator k g => exact tracks_seekSeparator t c k g h
  | skip k => exact tracks_skipAt t c k h
  | ended v => exact tracks_settle t c v h

end Json

end Resilient
