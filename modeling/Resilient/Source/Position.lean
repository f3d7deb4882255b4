/-!
# Places in a source text

A place is given three ways at once: by the bytes before it, and by its line and column. Offsets
count bytes of UTF-8, columns count characters, and only a line feed begins a new line.
`Position.after` carries a place over a text; `after_append` lets texts be walked in pieces.
-/

namespace Resilient

/-- A place in a source text. -/
structure Position where
  /-- Bytes before the place. -/
  offset : Nat
  /-- The line, counted from 1. -/
  line : Nat
  /-- The column in characters, counted from 1. -/
  column : Nat
  deriving DecidableEq, Inhabited, Ord

namespace Position

/-- The place of the first character of any text. -/
def start : Position := ⟨0, 1, 1⟩

/-- The place behind the character `c`. -/
def next (p : Position) (c : Char) : Position :=
  if c = '\n' then ⟨p.offset + c.utf8Size, p.line + 1, 1⟩
  else ⟨p.offset + c.utf8Size, p.line, p.column + 1⟩

/-- The place behind a text that begins at `p`. -/
def after (p : Position) (text : List Char) : Position := text.foldl next p

/-- The written form `line:column`. -/
def toText (p : Position) : String := toString p.line ++ ":" ++ toString p.column

@[simp] theorem after_nil (p : Position) : p.after [] = p := rfl

@[simp] theorem after_cons (p : Position) (c : Char) (text : List Char) :
    p.after (c :: text) = (p.next c).after text := rfl

theorem after_append (p : Position) (s t : List Char) :
    p.after (s ++ t) = (p.after s).after t := List.foldl_append

theorem offset_next (p : Position) (c : Char) : (p.next c).offset = p.offset + c.utf8Size := by
  unfold next
  split <;> rfl

theorem offset_lt_next (p : Position) (c : Char) : p.offset < (p.next c).offset := by
  have := c.utf8Size_pos
  rw [offset_next]
  omega

theorem offset_le_after (p : Position) (text : List Char) : p.offset ≤ (p.after text).offset := by
  induction text generalizing p with
  | nil => exact Nat.le_refl _
  | cons c text ih => exact Nat.le_trans (Nat.le_of_lt (p.offset_lt_next c)) (ih _)

theorem offset_after_eq_iff (p : Position) (text : List Char) :
    (p.after text).offset = p.offset ↔ text = [] := by
  cases text with
  | nil => simp
  | cons c text =>
    have h₁ := p.offset_lt_next c
    have h₂ := (p.next c).offset_le_after text
    simp only [after_cons, reduceCtorEq, iff_false]
    omega

end Position

end Resilient
