import Resilient.Decimal.Binary64

/-!
# Rounding to the nearest number

`Binary64.ofRatio` rounds an exact quotient to the nearest word, a tie to the even one, and
`Binary64.ofDecimal` does so for a whole number times a power of ten. What is too large becomes
infinite, what is too small becomes zero. `Binary64.ofText?` reads a decimal text and rounds what
it stands for.
-/

namespace Resilient

/-- The whole number nearest to `n / d`; a tie goes to the even one. -/
def roundHalfEven (n d : Nat) : Nat :=
  let q := n / d
  let twice := 2 * (n % d)
  if twice < d || (twice = d && q % 2 = 0) then q else q + 1

/-- The greatest `e` with `2 ^ e ≤ n / d`, for positive `n` and `d`. -/
def binaryOrder (n d : Nat) : Int :=
  let e : Int := n.log2 - d.log2
  let fits := if 0 ≤ e then d <<< e.toNat ≤ n else d ≤ n <<< (-e).toNat
  if fits then e else e - 1

namespace Binary64

/-- The word nearest to `n / d`, with the given sign. The quotient is rounded once, to a whole
multiple of the unit in the last place, and a carry moves on to the next binade by itself. -/
def ofRatio (negative : Bool) (n d : Nat) : Binary64 :=
  if n = 0 then ofMagnitude negative 0
  else
    let unit := max (binaryOrder n d - 52) (-1074)
    let m := if 0 ≤ unit then roundHalfEven n (d <<< unit.toNat)
      else roundHalfEven (n <<< (-unit).toNat) d
    ofMagnitude negative (min ((unit + 1074).toNat * Nat.pow 2 52 + m) infinityBits)

/-- The word nearest to `digits * 10 ^ exponent`, with the given sign. Exponents so large or so
small that the answer cannot depend on the digits are answered at once. -/
def ofDecimal (negative : Bool) (digits : Nat) (exponent : Int) : Binary64 :=
  if digits = 0 then ofMagnitude negative 0
  else if 309 ≤ exponent then ofMagnitude negative infinityBits
  else if exponent + digits.log2 / 3 + 2 ≤ -324 then ofMagnitude negative 0
  else if 0 ≤ exponent then ofRatio negative (digits * Nat.pow 10 exponent.toNat) 1
  else ofRatio negative digits (Nat.pow 10 (-exponent).toNat)

/-- The number nearest to an integer. -/
def ofInt (i : Int) : Binary64 := ofRatio (i < 0) i.natAbs 1

end Binary64

/-- The number that a run of decimal digits stands for. -/
def decimalValue (digits : List Char) : Nat :=
  digits.foldl (fun n c => 10 * n + (c.toNat - '0'.toNat)) 0

/-! ### Decimal texts -/

/-- The number of a text that holds decimal digits, one at least, and nothing else. -/
def wholeNumber? (text : List Char) : Option Nat :=
  if text ≠ [] ∧ text.all (·.isDigit) then some (decimalValue text) else none

/-- The exponent of the power of ten behind the digits; without a power it is zero. -/
def exponent? : List Char → Option Int
  | [] => some 0
  | mark :: text =>
    if mark = 'e' || mark = 'E' then
      match text with
      | '-' :: digits => (wholeNumber? digits).map fun n => -(n : Int)
      | '+' :: digits => (wholeNumber? digits).map Int.ofNat
      | digits => (wholeNumber? digits).map Int.ofNat
    else none

/-- The digits behind the point that begins a text, and the rest; without a point there are none. -/
def splitFraction : List Char → List Char × List Char
  | '.' :: text => (text.takeWhile (·.isDigit), text.dropWhile (·.isDigit))
  | text => ([], text)

namespace Binary64

/-- The word nearest to what a text without a sign stands for, with the given sign. The point may
stand in front of the digits, among them or behind them. -/
def ofUnsigned? (negative : Bool) (text : List Char) : Option Binary64 :=
  let whole := text.takeWhile (·.isDigit)
  let (fraction, power) := splitFraction (text.dropWhile (·.isDigit))
  if whole ++ fraction = [] then none
  else (exponent? power).map fun e =>
    ofDecimal negative (decimalValue (whole ++ fraction)) (e - fraction.length)

/-- The word nearest to what a decimal text stands for; any other text is refused. -/
def ofText? : List Char → Option Binary64
  | '-' :: text => ofUnsigned? true text
  | '+' :: text => ofUnsigned? false text
  | text => ofUnsigned? false text

end Binary64

end Resilient
