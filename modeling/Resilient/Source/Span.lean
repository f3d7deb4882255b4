import Resilient.Source.Position

/-!
# Ranges of a source text

A span is a half-open range between two places. `Span.merge` covers two spans, `Span.contains`
compares them by offsets, and `Span.slice` reads the text that a span covers, which fails when the
range does not lie on characters of the text.
-/

namespace Resilient

/-- The characters from byte `n` on, if a character begins there or the text ends there. -/
def dropBytes : Nat → List Char → Option (List Char)
  | 0, text => some text
  | _ + 1, [] => none
  | n + 1, c :: text => if c.utf8Size ≤ n + 1 then dropBytes (n + 1 - c.utf8Size) text else none

/-- The characters of the first `n` bytes behind `taken`, which holds the ones before, last
first; it fails if byte `n` lies inside a character or beyond the text. -/
def takeBytes : Nat → List Char → List Char → Option (List Char)
  | 0, taken, _ => some taken.reverse
  | _ + 1, _, [] => none
  | n + 1, taken, c :: text =>
    if c.utf8Size ≤ n + 1 then takeBytes (n + 1 - c.utf8Size) (c :: taken) text else none

/-- The text between two byte offsets. -/
def sliceBytes (source : String) (first last : Nat) : Option String :=
  if last < first then none
  else do
    let tail ← dropBytes first source.toList
    let text ← takeBytes (last - first) [] tail
    return String.ofList text

/-- The half-open range between two places. -/
structure Span where
  start : Position
  stop : Position
  deriving DecidableEq, Inhabited

namespace Span

/-- The range without a byte at a place. -/
def point (p : Position) : Span := ⟨p, p⟩

/-- The length in bytes; a range that ends before it starts has none. -/
def length (s : Span) : Nat := s.stop.offset - s.start.offset

/-- A range without a byte. -/
def isEmpty (s : Span) : Bool := s.length = 0

/-- The least range that covers both; on equal offsets the ends of the first stay. -/
def merge (s t : Span) : Span where
  start := if t.start.offset < s.start.offset then t.start else s.start
  stop := if s.stop.offset < t.stop.offset then t.stop else s.stop

/-- Does `t` lie within `s`, by offsets? -/
def contains (s t : Span) : Bool :=
  s.start.offset ≤ t.start.offset && t.stop.offset ≤ s.stop.offset

/-- The text in a range, if the range begins and ends between characters. -/
def slice (s : Span) (source : String) : Option String :=
  sliceBytes source s.start.offset s.stop.offset

theorem start_offset_merge (s t : Span) :
    (s.merge t).start.offset = min s.start.offset t.start.offset := by
  simp only [merge]
  split <;> omega

theorem stop_offset_merge (s t : Span) :
    (s.merge t).stop.offset = max s.stop.offset t.stop.offset := by
  simp only [merge]
  split <;> omega

theorem contains_iff (s t : Span) :
    s.contains t = true ↔ s.start.offset ≤ t.start.offset ∧ t.stop.offset ≤ s.stop.offset := by
  simp [contains]

end Span

end Resilient
