import Resilient.Decimal.Rounding

/-!
# The fewest digits that read back

A finite number has many decimal spellings that read back to it. `Binary64.shortest` chooses one
with the fewest digits and among those the nearest; it tries one digit, two digits and so on, each
time with the two neighbours of the number on that decimal grid. Seventeen digits are always
enough.
-/

namespace Resilient

/-- A decimal spelling: the number `digits * 10 ^ exponent`. -/
structure Decimal where
  /-- The digits, as a whole number. -/
  digits : Nat
  /-- The power of ten of the last digit. -/
  exponent : Int
  deriving DecidableEq

/-- The greatest `k` with `10 ^ k ≤ n / d`, for positive `n` and `d`. The estimate from the binary
order is off by at most one. -/
def decimalOrder (n d : Nat) : Int :=
  let reaches (k : Int) : Bool :=
    if 0 ≤ k then d * Nat.pow 10 k.toNat ≤ n else d ≤ n * Nat.pow 10 (-k).toNat
  let k := (binaryOrder n d * 30103).fdiv 100000
  if reaches (k + 1) then k + 1 else if reaches k then k else k - 1

namespace Decimal

/-- The last digit moved off while it is zero, at most `fuel` times. -/
def trim : Nat → Decimal → Decimal
  | 0, x => x
  | fuel + 1, x =>
    if x.digits % 10 = 0 then trim fuel ⟨x.digits / 10, x.exponent + 1⟩ else x

/-- Does the spelling read back to the positive number `x`? -/
def readsAs (s : Decimal) (x : Binary64) : Bool := Binary64.ofDecimal false s.digits s.exponent = x

/-- Of the neighbours of `n / d` on the grid of multiples of `10 ^ exponent`, the one that reads
back to `x`; of two the nearer, and on a tie the greater. -/
def neighbour? (x : Binary64) (n d : Nat) (exponent : Int) : Option Decimal :=
  let num := if 0 ≤ exponent then n else n * Nat.pow 10 (-exponent).toNat
  let den := if 0 ≤ exponent then d * Nat.pow 10 exponent.toNat else d
  let below : Decimal := ⟨num / den, exponent⟩
  let above : Decimal := ⟨num / den + 1, exponent⟩
  match below.readsAs x, above.readsAs x with
  | true, true => some (if 2 * (num % den) < den then below else above)
  | true, false => some below
  | false, true => some above
  | false, false => none

/-- The first spelling found on grids of `count`, `count + 1`, … digits, `fuel` grids at most; the
number's first digit stands at `10 ^ order`. -/
def search (x : Binary64) (n d : Nat) (order : Int) : Nat → Nat → Option Decimal
  | 0, _ => none
  | fuel + 1, count =>
    match neighbour? x n d (order - count + 1) with
    | some s => some s
    | none => search x n d order fuel (count + 1)

end Decimal

namespace Binary64

/-- A finite positive number as a quotient. -/
def toRatio (x : Binary64) : Nat × Nat :=
  if 0 ≤ x.exponent then (x.significand <<< x.exponent.toNat, 1)
  else (x.significand, 1 <<< (-x.exponent).toNat)

/-- A spelling of the finite number's absolute value with the fewest digits that read back. -/
def shortest (x : Binary64) : Decimal :=
  if x.isZero then ⟨0, 0⟩
  else
    let positive := ofMagnitude false x.magnitude
    let (n, d) := positive.toRatio
    match Decimal.search positive n d (decimalOrder n d) 17 1 with
    | some s => s.trim 17
    | none => ⟨0, 0⟩

end Binary64

end Resilient
