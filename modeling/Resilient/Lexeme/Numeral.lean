import Resilient.Decimal.Rounding
import Resilient.Diagnostic

/-!
# Numerals

A numeral is an optional minus sign, a whole part without needless zeros, and optionally a fraction
and a power of ten. `Numeral.read` takes as much of a text as can be a numeral: a point or a mark
without the digits it needs stays behind. `Numeral.read_eq` says that nothing is lost.
-/

namespace Resilient

/-- The written power of ten of a numeral. -/
structure PowerOfTen where
  /-- `e` or `E`. -/
  mark : Char
  /-- `+` or `-`, if written. -/
  sign : Option Char
  digits : List Char
  deriving DecidableEq

namespace PowerOfTen

/-- A power of ten as it is written. -/
def text (p : PowerOfTen) : List Char := p.mark :: (p.sign.toList ++ p.digits)

/-- The power of ten that begins a text, if there is one, and the rest. -/
def read (text : List Char) : Option PowerOfTen × List Char :=
  match text with
  | [] => (none, [])
  | mark :: rest =>
    if mark = 'e' || mark = 'E' then
      let (sign, digits) := match rest with
        | c :: digits => if c = '+' || c = '-' then (some c, digits) else (none, rest)
        | [] => (none, [])
      match digits.takeWhile (·.isDigit) with
      | [] => (none, text)
      | ds => (some ⟨mark, sign, ds⟩, digits.dropWhile (·.isDigit))
    else (none, text)

end PowerOfTen

/-- A number as it is written. -/
structure Numeral where
  /-- A minus sign stands in front. -/
  negative : Bool
  /-- The digits before the point. -/
  whole : List Char
  /-- The digits behind the point; without a point there are none. -/
  fraction : List Char
  power : Option PowerOfTen
  deriving DecidableEq

namespace Numeral

/-- The written form of a fraction. -/
def fractionText (digits : List Char) : List Char :=
  if digits.isEmpty then [] else '.' :: digits

/-- The written form of an optional power of ten. -/
def powerText : Option PowerOfTen → List Char
  | none => []
  | some p => p.text

/-- A numeral as it is written. -/
def text (n : Numeral) : List Char :=
  (if n.negative then ['-'] else []) ++ n.whole ++ fractionText n.fraction ++ powerText n.power

/-- The number nearest to what is written, zero if it cannot be understood. -/
def value (n : Numeral) : Binary64 := (Binary64.ofText? n.text).getD .zero

/-- The report on a numeral that begins at `p` and cannot be understood. -/
def reports (p : Position) (n : Numeral) : List Diagnostic :=
  if (Binary64.ofText? n.text).isSome then [] else [.of .invalidNumber ⟨p, p.after n.text⟩]

/-- The whole part that begins a text, and the rest; a leading zero stands alone. -/
def readWhole : List Char → List Char × List Char
  | '0' :: rest => (['0'], rest)
  | text => (text.takeWhile (·.isDigit), text.dropWhile (·.isDigit))

/-- The digits of the fraction that begins a text, and the rest. -/
def readFraction : List Char → List Char × List Char
  | '.' :: rest =>
    match rest.takeWhile (·.isDigit) with
    | [] => ([], '.' :: rest)
    | digits => (digits, rest.dropWhile (·.isDigit))
  | text => ([], text)

/-- The sign that begins a text, and the rest. -/
def readSign : List Char → Bool × List Char
  | '-' :: rest => (true, rest)
  | text => (false, text)

/-- The numeral that begins a text, and the rest. -/
def read (text : List Char) : Numeral × List Char :=
  let (negative, text) := readSign text
  let (whole, text) := readWhole text
  let (fraction, text) := readFraction text
  let (power, text) := PowerOfTen.read text
  (⟨negative, whole, fraction, power⟩, text)

/-- Does a numeral begin the text? A minus sign counts only where numbers are signed. -/
def begins (signed : Bool) : List Char → Bool
  | c :: rest => c.isDigit || (signed && c = '-' && rest.head?.any (·.isDigit))
  | [] => false

/-! ### Nothing is lost -/

theorem readSign_eq (text : List Char) :
    (if (readSign text).1 then ['-'] else []) ++ (readSign text).2 = text := by
  fun_cases readSign text <;> simp

theorem readWhole_eq (text : List Char) : (readWhole text).1 ++ (readWhole text).2 = text := by
  fun_cases readWhole text
  · rfl
  · exact List.takeWhile_append_dropWhile

theorem readFraction_eq (text : List Char) :
    fractionText (readFraction text).1 ++ (readFraction text).2 = text := by
  unfold readFraction
  split
  · rename_i rest
    split
    · rfl
    · rename_i h
      have h : rest.takeWhile (·.isDigit) ≠ [] := h
      simp [fractionText, h]
  · rfl

theorem readPower_eq (text : List Char) :
    powerText (PowerOfTen.read text).1 ++ (PowerOfTen.read text).2 = text := by
  unfold PowerOfTen.read
  split
  · rfl
  · rename_i mark rest
    split
    · split
      rename_i sign digits hs
      have hrest : sign.toList ++ digits = rest := by
        split at hs
        · split at hs <;> cases hs <;> rfl
        · cases hs
          rfl
      split
      · rfl
      · simp [powerText, PowerOfTen.text, hrest]
    · rfl

theorem read_eq (text : List Char) : (read text).1.text ++ (read text).2 = text := by
  have h₁ := readSign_eq text
  have h₂ := readWhole_eq (readSign text).2
  have h₃ := readFraction_eq (readWhole (readSign text).2).2
  have h₄ := readPower_eq (readFraction (readWhole (readSign text).2).2).2
  have h := congrArg ((if (readSign text).1 then ['-'] else []) ++ ·) (congrArg
    ((readWhole (readSign text).2).1 ++ ·) (congrArg
      (fractionText (readFraction (readWhole (readSign text).2).2).1 ++ ·) h₄))
  simp only [h₃, h₂, h₁] at h
  rw [Numeral.text, List.append_assoc, List.append_assoc, List.append_assoc]
  exact h

end Numeral

end Resilient
