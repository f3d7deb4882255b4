import Resilient.Source.Span

/-!
# A reading place in a source text

A cursor stands between two characters of a source text and looks ahead as far as asked.
-/

namespace Resilient

/-- A reading place in a source text. -/
structure Cursor where
  source : String
  /-- The place between what was read and what is left. -/
  position : Position
  /-- The characters left to read. -/
  rest : List Char

namespace Cursor

/-- The cursor before the first character of a text. -/
def ofText (source : String) : Cursor := ⟨source, .start, source.toList⟩

/-- The character `ahead` places past the cursor. -/
def peek (c : Cursor) (ahead : Nat) : Option Char := c.rest[ahead]?

/-- The character at the cursor. -/
def current (c : Cursor) : Option Char := c.rest.head?

/-- Nothing is left to read. -/
def atEnd (c : Cursor) : Bool := c.rest.isEmpty

/-- Step over one character; at the end the cursor stays. -/
def advance (c : Cursor) : Cursor :=
  match c.rest with
  | [] => c
  | x :: rest => { c with position := c.position.next x, rest := rest }

/-- Step over as many characters, or up to the end. -/
def advanceBy : Nat → Cursor → Cursor
  | 0, c => c
  | n + 1, c => if c.atEnd then c else advanceBy n c.advance

/-- Step over the character `x` if it is the one at the cursor. -/
def consume? (c : Cursor) (x : Char) : Option Cursor :=
  if c.current = some x then some c.advance else none

/-- Does the text left to read begin with `text`? -/
def startsWith (c : Cursor) (text : String) : Bool := text.toList.isPrefixOf c.rest

/-- The text from byte `first` to the cursor; empty if there is no such range. -/
def textFrom (c : Cursor) (first : Nat) : String :=
  (sliceBytes c.source first c.position.offset).getD ""

/-- The text behind the cursor. -/
def remaining (c : Cursor) : String := String.ofList c.rest

/-- The cursor behind `text`, where `rest` is what follows it. -/
def past (c : Cursor) (text rest : List Char) : Cursor :=
  { c with position := c.position.after text, rest := rest }

end Cursor

end Resilient
