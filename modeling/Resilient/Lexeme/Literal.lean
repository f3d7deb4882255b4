import Resilient.Diagnostic

/-!
# String literals

A literal is read as pieces: plain characters, escapes of one character, and codes of up to four
hexadecimal digits. Reading only finds the closing quote (`Literal.readBody`), and the pieces are
then understood from left to right (`Literal.interpret`): a code of a high surrogate takes the code
of a low surrogate directly behind it into one character.
-/

namespace Resilient

/-- A piece of the body of a literal. -/
inductive Piece where
  /-- A character that stands for itself. -/
  | plain (c : Char)
  /-- A backslash and a character other than `u`. -/
  | escape (c : Char)
  /-- A backslash, `u`, and the hexadecimal digits behind it, at most four. -/
  | code (digits : List Char)
  /-- A backslash at the end of the text. -/
  | dangling
  deriving DecidableEq

/-- The value of a hexadecimal digit, in either case. -/
def hexDigit? (c : Char) : Option Nat :=
  if c.isDigit then some (c.toNat - '0'.toNat)
  else if 'a' ≤ c && c ≤ 'f' then some (c.toNat - 'a'.toNat + 10)
  else if 'A' ≤ c && c ≤ 'F' then some (c.toNat - 'A'.toNat + 10)
  else none

/-- The number that hexadecimal digits stand for. -/
def hexValue (digits : List Char) : Nat :=
  digits.foldl (fun n c => 16 * n + (hexDigit? c).getD 0) 0

/-- The hexadecimal digits that begin a text, four at most. -/
def hexDigits (text : List Char) : List Char := (text.take 4).takeWhile (hexDigit? · |>.isSome)

namespace Piece

/-- A piece as it is written. -/
def text : Piece → List Char
  | plain c => [c]
  | escape c => ['\\', c]
  | code digits => '\\' :: 'u' :: digits
  | dangling => ['\\']

/-- The number of a complete code. -/
def codeUnit? : Piece → Option Nat
  | code digits => if digits.length = 4 then some (hexValue digits) else none
  | _ => none

end Piece

/-- What an escape of one character stands for. -/
def shortEscape? : Char → Option Char
  | '"' => some '"'
  | '\\' => some '\\'
  | '/' => some '/'
  | 'b' => some '\x08'
  | 'f' => some '\x0c'
  | 'n' => some '\n'
  | 'r' => some '\r'
  | 't' => some '\t'
  | _ => none

/-- What stands in for a character that cannot be decoded. -/
def replacement : Char := '\ufffd'

/-- The character of a code point, if it is one. -/
def scalarValue? (n : Nat) : Option Char := if n.isValidChar then some (Char.ofNat n) else none

/-- The numbers that begin a surrogate pair. -/
def isHighSurrogate (n : Nat) : Bool := 0xd800 ≤ n && n ≤ 0xdbff

/-- The numbers that end a surrogate pair. -/
def isLowSurrogate (n : Nat) : Bool := 0xdc00 ≤ n && n ≤ 0xdfff

/-- The character of a surrogate pair. -/
def joinSurrogates (high low : Nat) : Char :=
  Char.ofNat (0x10000 + (high - 0xd800) * 0x400 + (low - 0xdc00))

/-- A stretch of a literal's body that is understood as a whole. -/
structure Reading where
  /-- The stretch as it is written. -/
  text : List Char
  meaning : List Char
  fault : Option Fault
  deriving DecidableEq

/-- The character of two codes that form a pair of surrogates. -/
def surrogatePair? (first second : Piece) : Option Char := do
  let high ← first.codeUnit?
  let low ← second.codeUnit?
  if isHighSurrogate high && isLowSurrogate low then some (joinSurrogates high low) else none

namespace Piece

/-- The meaning of a piece by itself. -/
def reading (p : Piece) : Reading :=
  match p with
  | plain c => ⟨p.text, [c], none⟩
  | escape c =>
    match shortEscape? c with
    | some d => ⟨p.text, [d], none⟩
    | none => ⟨p.text, [c], some .invalidEscapeSequence⟩
  | code _ =>
    match p.codeUnit?.bind scalarValue? with
    | some d => ⟨p.text, [d], none⟩
    | none => ⟨p.text, [replacement], some .invalidUnicodeEscape⟩
  | dangling => ⟨p.text, [], none⟩

end Piece

/-- A string literal as it is written. -/
structure Literal where
  pieces : List Piece
  closed : Bool
  deriving DecidableEq

namespace Literal

/-- A literal as it is written. -/
def text (l : Literal) : List Char :=
  '"' :: (l.pieces.flatMap Piece.text ++ if l.closed then ['"'] else [])

/-- The body that begins a text, behind pieces read before, last first; then whether a quote closes
it, and the rest. -/
def readBody (done : List Piece) (text : List Char) : Literal × List Char :=
  match text with
  | [] => (⟨done.reverse, false⟩, [])
  | '"' :: rest => (⟨done.reverse, true⟩, rest)
  | '\\' :: 'u' :: rest =>
    let digits := hexDigits rest
    readBody (.code digits :: done) (rest.drop digits.length)
  | '\\' :: c :: rest => readBody (.escape c :: done) rest
  | ['\\'] => (⟨(.dangling :: done).reverse, false⟩, [])
  | c :: rest => readBody (.plain c :: done) rest
termination_by text.length
decreasing_by all_goals simp only [List.length_cons, List.length_drop]; omega

/-- The literal whose opening quote stands before the text, and the rest. -/
def read (text : List Char) : Literal × List Char := readBody [] text

/-- The stretches of a body, behind those understood before, last first. -/
def interpretOnto (done : List Reading) : List Piece → List Reading
  | [] => done.reverse
  | [p] => (p.reading :: done).reverse
  | p :: q :: pieces =>
    match surrogatePair? p q with
    | some c => interpretOnto (⟨p.text ++ q.text, [c], none⟩ :: done) pieces
    | none => interpretOnto (p.reading :: done) (q :: pieces)

/-- The stretches of the body, from left to right. -/
def interpret (l : Literal) : List Reading := interpretOnto [] l.pieces

/-- The string that the literal stands for. -/
def value (l : Literal) : String := String.ofList (l.interpret.flatMap Reading.meaning)

/-! ### Reports -/

/-- The reports of control characters among pieces that begin at `p`, behind earlier reports, last
first. -/
def controlReports (p : Position) (found : List Diagnostic) : List Piece → List Diagnostic
  | [] => found.reverse
  | .plain c :: pieces =>
    controlReports (p.next c)
      (if c < ' ' then .atPoint .controlCharacter p :: found else found) pieces
  | piece :: pieces => controlReports (p.after piece.text) found pieces

/-- The reports of faulty stretches that begin at `p`, behind earlier reports, last first. -/
def readingReports (p : Position) (found : List Diagnostic) : List Reading → List Diagnostic
  | [] => found.reverse
  | r :: rs =>
    readingReports (p.after r.text)
      (match r.fault with | some f => .atPoint f p :: found | none => found) rs

/-- The reports on a literal that begins at `p`: control characters, then a missing quote, then
bad escapes. -/
def reports (p : Position) (l : Literal) : List Diagnostic :=
  let body := p.next '"'
  controlReports body [] l.pieces
    ++ (if l.closed then [] else [.atPoint .unterminatedString (p.after l.text)])
    ++ readingReports body [] l.interpret

/-! ### Nothing is lost -/

theorem hexDigits_append (text : List Char) :
    hexDigits text ++ text.drop (hexDigits text).length = text := by
  have h : hexDigits text <+: text :=
    (List.takeWhile_prefix _).trans (List.take_prefix 4 text)
  obtain ⟨rest, hr⟩ := h
  generalize hexDigits text = digits at hr ⊢
  subst hr
  rw [List.drop_left]

theorem readBody_eq (done : List Piece) (text : List Char) :
    (readBody done text).1.text ++ (readBody done text).2
      = '"' :: (done.reverse.flatMap Piece.text ++ text) := by
  fun_induction readBody done text with
  | case1 done => simp [Literal.text]
  | case2 done rest => simp [Literal.text]
  | case3 done rest digits ih =>
    rw [ih]
    have h := hexDigits_append rest
    simp only [List.reverse_cons, List.flatMap_append, List.flatMap_cons, List.flatMap_nil,
      Piece.text, List.append_assoc, List.cons_append, List.nil_append]
    rw [h]
  | case4 done c rest _ ih => rw [ih]; simp [Piece.text]
  | case5 done => simp [Literal.text, Piece.text]
  | case6 done c rest _ _ _ _ ih => rw [ih]; simp [Piece.text]

theorem read_eq (text : List Char) : (read text).1.text ++ (read text).2 = '"' :: text := by
  simpa [read] using readBody_eq [] text

end Literal

end Resilient
