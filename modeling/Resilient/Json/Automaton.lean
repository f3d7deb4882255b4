import Resilient.Automaton
import Resilient.Json.Value
import Resilient.Limits

/-!
# Reading JSON from tokens

The stack of the automaton holds the containers that wait for a value, and a `Mode` says what the
next token is taken for. `react` decides on one token; `react_eof` says that the end of the text is
never taken.

No token stops the automaton. Where something is missing it is reported, at most once for each
token, a null or an empty key stands in for it, and reading goes on at the next comma or closing
bracket of the same container.
-/

namespace Resilient

namespace Json

/-- An open container with the parts read so far. -/
inductive Group where
  /-- The items, last first. -/
  | array (done : List Value)
  | object (done : Entries Value)

namespace Group

/-- The container as it is read so far. -/
def value : Group → Value
  | array done => .array done.reverse
  | object done => .object done

/-- The kind of bracket that closes the container. -/
def closer : Group → Kind
  | array _ => .rightBracket
  | object _ => .rightBrace

/-- What may stand behind a part of the container. -/
def wanted : Group → String
  | array _ => "',' or ']'"
  | object _ => "',' or '\x7d'"

end Group

/-- A container that waits for the value of its next part. -/
inductive Frame where
  /-- An array with its items so far, last first. -/
  | item (done : List Value)
  /-- An object with its entries so far and the key of the next one. -/
  | member (done : Entries Value) (key : String)

/-- The container with the value that it waited for. -/
def Frame.fill : Frame → Value → Group
  | item done, v => .array (v :: done)
  | member done key, v => .object (done.insert key v)

/-- What the next token is taken for. -/
inductive Mode where
  | value
  /-- What follows the opening bracket of an empty container. -/
  | opened (g : Group) (bracket : Span)
  | key (done : Entries Value)
  /-- What follows a key; a key that is missing or no string is absent. -/
  | colon (done : Entries Value) (key : Option String)
  | separated (g : Group) (comma : Span)
  /-- Skipped on the way to a delimiter, inside `nesting` brackets; null stands in for a value. -/
  | seekValue (nesting : Nat)
  /-- Skipped on the way to a colon or a delimiter; a key is missing. -/
  | seekColon (nesting : Nat) (done : Entries Value)
  /-- Skipped on the way to a delimiter behind a part of a container. -/
  | seekSeparator (nesting : Nat) (g : Group)
  /-- Skipped inside a container that stands too deep. -/
  | skip (nesting : Nat)
  | ended (v : Value)

/-- A decision of the automaton of JSON. -/
abbrev Turn := Resilient.Turn Mode Frame Value

/-- How many brackets are open behind a token, if `nesting` are in front of it; a closing one too
many does not count. -/
def nest (t : Token) (nesting : Nat) : Nat :=
  if t.kind.opens then nesting + 1 else if t.kind.closes then nesting - 1 else nesting

/-- Does a search for a delimiter end before the token? -/
def stops (t : Token) (nesting : Nat) : Bool :=
  t.kind = .eof || (nesting = 0 && (t.kind = .comma || t.kind.closes))

/-- A token behind a part of a container: a comma, the closing bracket, or something out of place.
A bracket of the other kind, or the end of the text, ends this container and is left to the ones
around it. -/
def separate (t : Token) (complained : Bool) (g : Group) (stack : List Frame) : Turn :=
  if t.kind = .comma then .consume (.separated g t.span) stack
  else if t.kind = g.closer then .consume (.ended g.value) stack
  else if t.kind = .eof || t.kind.closes then
    .behind (t.expected g.wanted complained) <| match stack with
      | [] => .finish g.value true
      | f :: stack => separate t true (f.fill g.value) stack
  else .behind (t.expected g.wanted complained) (.consume (.seekSeparator (nest t 0) g) stack)
termination_by structural stack

/-- A token behind a value. -/
def settle (t : Token) (complained : Bool) (v : Value) : List Frame → Turn
  | [] => .finish v complained
  | f :: stack => separate t complained (f.fill v) stack

/-- A token on the way to a delimiter behind a part. -/
def seekSeparator (t : Token) (complained : Bool) (nesting : Nat) (g : Group)
    (stack : List Frame) : Turn :=
  if stops t nesting then separate t complained g stack
  else .consume (.seekSeparator (nest t nesting) g) stack

/-- A token on the way to a delimiter where a value is missing. -/
def seekValue (t : Token) (complained : Bool) (nesting : Nat) (stack : List Frame) : Turn :=
  if stops t nesting then settle t complained .null stack
  else .consume (.seekValue (nest t nesting)) stack

/-- A token behind a key. A member without a colon is dropped. -/
def colonAt (t : Token) (complained : Bool) (done : Entries Value) (key : Option String)
    (stack : List Frame) : Turn :=
  if t.kind = .colon then .consume .value (.member done (key.getD "") :: stack)
  else if key.isSome then
    .behind (t.expected "':'" complained) (seekSeparator t true 0 (.object done) stack)
  else seekSeparator t complained 0 (.object done) stack

/-- A token on the way to a colon where a key is missing. -/
def seekColon (t : Token) (complained : Bool) (nesting : Nat) (done : Entries Value)
    (stack : List Frame) : Turn :=
  if (nesting = 0 && t.kind = .colon) || stops t nesting then colonAt t complained done none stack
  else .consume (.seekColon (nest t nesting) done) stack

/-- A token where a value begins. -/
def valueAt (t : Token) (complained : Bool) (stack : List Frame) : Turn :=
  match t.kind with
  | .leftBracket => .consume (.opened (.array []) t.span) stack
  | .leftBrace => .consume (.opened (.object []) t.span) stack
  | .number | .string | .trueWord | .falseWord | .nullWord =>
    .consume (.ended ((t.payload.map Value.ofScalar).getD .null)) stack
  | .identifier => .consume (.ended .null) stack
  | _ => .behind (t.expected "a value" complained) (seekValue t true 0 stack)

/-- A token where a member begins. -/
def keyAt (t : Token) (complained : Bool) (done : Entries Value) (stack : List Frame) : Turn :=
  match t.kind with
  | .string => .consume (.colon done t.text?) stack
  | .identifier => .consume (.colon done none) stack
  | _ => .behind (t.expected "a string key" complained) (seekColon t true 0 done stack)

/-- A token where the next part of a container begins. -/
def partAt (t : Token) (complained : Bool) (g : Group) (stack : List Frame) : Turn :=
  match g with
  | .array done => valueAt t complained (.item done :: stack)
  | .object done => keyAt t complained done stack

/-- A token inside a container that stands too deep. -/
def skipAt (t : Token) (complained : Bool) (nesting : Nat) (stack : List Frame) : Turn :=
  if t.kind = .eof then settle t complained .null stack
  else if nest t nesting = 0 then .consume (.ended .null) stack
  else .consume (.skip (nest t nesting)) stack

/-- The decision on a token, in any mode. -/
def react (limits : Limits) (mode : Mode) (stack : List Frame) (complained : Bool) (t : Token) :
    Turn :=
  match mode with
  | .value => valueAt t complained stack
  | .opened g bracket =>
    match limits.reachedDepth fun _ => stack.length with
    | some max => .behind [.of (.maxDepthExceeded max) bracket] (skipAt t complained 1 stack)
    | none =>
      if t.kind = g.closer then .consume (.ended g.value) stack else partAt t complained g stack
  | .key done => keyAt t complained done stack
  | .colon done key => colonAt t complained done key stack
  | .separated g comma =>
    if t.kind = g.closer then .behind [.of .trailingComma comma] (.consume (.ended g.value) stack)
    else partAt t complained g stack
  | .seekValue nesting => seekValue t complained nesting stack
  | .seekColon nesting done => seekColon t complained nesting done stack
  | .seekSeparator nesting g => seekSeparator t complained nesting g stack
  | .skip nesting => skipAt t complained nesting stack
  | .ended v => settle t complained v stack

/-! ### The end of the text is never taken -/

theorem closer_ne_eof (g : Group) : g.closer ≠ .eof := by cases g <;> simp [Group.closer]

section

variable {t : Token} (h : t.kind = .eof)

include h

theorem separate_eof (complained : Bool) (g : Group) (stack : List Frame) :
    (separate t complained g stack).Finishes := by
  induction stack generalizing complained g with
  | nil =>
    have hg := closer_ne_eof g
    unfold separate
    simp [h, hg.symm]
  | cons f stack ih =>
    have hg := closer_ne_eof g
    unfold separate
    simpa [h, hg.symm] using ih true (f.fill g.value)

theorem settle_eof (complained : Bool) (v : Value) (stack : List Frame) :
    (settle t complained v stack).Finishes := by
  cases stack with
  | nil => exact Turn.finishes_finish _ _
  | cons f stack => exact separate_eof h complained (f.fill v) stack

theorem stops_eof (nesting : Nat) : stops t nesting = true := by simp [stops, h]

theorem seekSeparator_eof (complained : Bool) (nesting : Nat) (g : Group) (stack : List Frame) :
    (seekSeparator t complained nesting g stack).Finishes := by
  rw [seekSeparator, if_pos (stops_eof h nesting)]
  exact separate_eof h complained g stack

theorem seekValue_eof (complained : Bool) (nesting : Nat) (stack : List Frame) :
    (seekValue t complained nesting stack).Finishes := by
  rw [seekValue, if_pos (stops_eof h nesting)]
  exact settle_eof h complained .null stack

theorem colonAt_eof (complained : Bool) (done : Entries Value) (key : Option String)
    (stack : List Frame) : (colonAt t complained done key stack).Finishes := by
  have hc : t.kind ≠ .colon := by rw [h]; decide
  rw [colonAt, if_neg hc]
  split
  · exact seekSeparator_eof h true 0 _ stack
  · exact seekSeparator_eof h complained 0 _ stack

theorem seekColon_eof (complained : Bool) (nesting : Nat) (done : Entries Value)
    (stack : List Frame) : (seekColon t complained nesting done stack).Finishes := by
  rw [seekColon, stops_eof h, Bool.or_true, if_pos rfl]
  exact colonAt_eof h complained done none stack

theorem valueAt_eof (complained : Bool) (stack : List Frame) :
    (valueAt t complained stack).Finishes := by
  simpa [valueAt, h] using seekValue_eof h true 0 stack

theorem keyAt_eof (complained : Bool) (done : Entries Value) (stack : List Frame) :
    (keyAt t complained done stack).Finishes := by
  simpa [keyAt, h] using seekColon_eof h true 0 done stack

theorem partAt_eof (complained : Bool) (g : Group) (stack : List Frame) :
    (partAt t complained g stack).Finishes := by
  cases g with
  | array done => exact valueAt_eof h complained _
  | object done => exact keyAt_eof h complained done stack

theorem skipAt_eof (complained : Bool) (nesting : Nat) (stack : List Frame) :
    (skipAt t complained nesting stack).Finishes := by
  rw [skipAt, if_pos h]
  exact settle_eof h complained .null stack

/-- At the end of the text every mode completes the outermost value. -/
theorem react_eof (limits : Limits) (mode : Mode) (stack : List Frame) (complained : Bool) :
    (react limits mode stack complained t).Finishes := by
  cases mode with
  | value => exact valueAt_eof h complained stack
  | opened g bracket =>
    have hg := (closer_ne_eof g).symm
    simp only [react]
    split
    · exact skipAt_eof h complained 1 stack
    · simpa [h, hg] using partAt_eof h complained g stack
  | key done => exact keyAt_eof h complained done stack
  | colon done key => exact colonAt_eof h complained done key stack
  | separated g comma =>
    have hg := (closer_ne_eof g).symm
    simpa [react, h, hg] using partAt_eof h complained g stack
  | seekValue nesting => exact seekValue_eof h complained nesting stack
  | seekColon nesting done => exact seekColon_eof h complained nesting done stack
  | seekSeparator nesting g => exact seekSeparator_eof h complained nesting g stack
  | skip nesting => exact skipAt_eof h complained nesting stack
  | ended v => exact settle_eof h complained v stack

end

end Json

end Resilient
