import Resilient.Decimal.Shortest

/-!
# Writing numbers

Numbers are written with the fewest digits that read back. A `NumberLayout` fixes the rest: whether
a whole number shows a fraction, and which numbers are written with a power of ten.
-/

namespace Resilient

/-- The choices left once the digits of a number are known. -/
structure NumberLayout where
  /-- Whole numbers written without a power of ten end in `.0`. -/
  wholeFraction : Bool
  /-- The least and the greatest power of ten of a first digit that is written in its place; with
  `none` every digit is. -/
  inPlace : Option (Int × Int)

namespace NumberLayout

/-- Every digit in its place, and no fraction on whole numbers: `1`, `0.1`, `-0`. -/
def plain : NumberLayout := ⟨false, none⟩

/-- Always marked as a number with a fraction or a power of ten: `1.0`, `1e16`, `1.5e-7`. -/
def marked : NumberLayout := ⟨true, some (-4, 15)⟩

/-- Digits written in their places, where the point stands behind `whole` digits. -/
def placed (layout : NumberLayout) (digits : List Char) (whole : Int) : List Char :=
  if whole ≤ 0 then '0' :: '.' :: (List.replicate (-whole).toNat '0' ++ digits)
  else if whole.toNat < digits.length then
    digits.take whole.toNat ++ '.' :: digits.drop whole.toNat
  else
    digits ++ List.replicate (whole.toNat - digits.length) '0'
      ++ (if layout.wholeFraction then ['.', '0'] else [])

/-- Digits written with the point behind the first one and a power of ten. -/
def scaled (digits : List Char) (power : Int) : List Char :=
  let fraction := digits.drop 1
  digits.take 1 ++ (if fraction.isEmpty then [] else '.' :: fraction)
    ++ 'e' :: (toString power).toList

/-- The text of a finite number without its sign. -/
def finite (layout : NumberLayout) (x : Binary64) : List Char :=
  let spelling := x.shortest
  let digits := Nat.toDigits 10 spelling.digits
  let power := if x.isZero then 0 else spelling.exponent + digits.length - 1
  let here := match layout.inPlace with
    | none => true
    | some (least, greatest) => least ≤ power && power ≤ greatest
  if here then layout.placed digits (power + 1) else scaled digits power

/-- A number in the layout, with `NaN` and `inf` for what is not finite. -/
def write (layout : NumberLayout) (x : Binary64) : String :=
  if x.isNaN then "NaN"
  else
    let sign := if x.isNegative then "-" else ""
    if x.isInfinite then sign ++ "inf" else sign ++ String.ofList (layout.finite x)

end NumberLayout

end Resilient
