/-!
# Numbers in the 64-bit binary format

A `Binary64` is a word of the IEEE 754 binary64 format. A finite word stands for its sign times
`significand * 2 ^ exponent`; `Binary64.equals` is the equality of the format, under which the
two zeros agree and no NaN equals anything.
-/

namespace Resilient

/-- A word of the IEEE 754 binary64 format. -/
structure Binary64 where
  /-- Sign, exponent field and fraction, from the highest bit down. -/
  bits : UInt64
  deriving DecidableEq, Inhabited

namespace Binary64

/-- Zero without a sign. -/
def zero : Binary64 := ⟨0⟩

/-- The word with the given sign and the given bits below the sign. -/
def ofMagnitude (negative : Bool) (magnitude : Nat) : Binary64 :=
  ⟨UInt64.ofNat ((if negative then Nat.pow 2 63 else 0) + magnitude)⟩

/-- Is the sign bit set? That of a zero or a NaN may be. -/
def isNegative (x : Binary64) : Bool := Nat.pow 2 63 ≤ x.bits.toNat

/-- The bits below the sign. -/
def magnitude (x : Binary64) : Nat := x.bits.toNat % Nat.pow 2 63

/-- The magnitude bits of infinity; those of a NaN are greater. -/
def infinityBits : Nat := 2047 * Nat.pow 2 52

/-- Words that stand for no number. -/
def isNaN (x : Binary64) : Bool := infinityBits < x.magnitude

/-- Is it one of the two infinities? -/
def isInfinite (x : Binary64) : Bool := x.magnitude = infinityBits

/-- Is it one of the two zeros? -/
def isZero (x : Binary64) : Bool := x.magnitude = 0

/-- The exponent bits as a number; zero for a subnormal word. -/
def field (x : Binary64) : Nat := x.magnitude / Nat.pow 2 52

/-- The whole number `m` of a finite word `± m * 2 ^ e`. -/
def significand (x : Binary64) : Nat :=
  if x.field = 0 then x.magnitude % Nat.pow 2 52 else Nat.pow 2 52 + x.magnitude % Nat.pow 2 52

/-- The exponent `e` of a finite word `± m * 2 ^ e`. -/
def exponent (x : Binary64) : Int := if x.field = 0 then -1074 else x.field - 1075

/-- Equality of numbers: a NaN equals nothing, and the zeros equal each other. -/
def equals (x y : Binary64) : Bool := !x.isNaN && !y.isNaN && (x = y || (x.isZero && y.isZero))

theorem equals_comm (x y : Binary64) : x.equals y = y.equals x := by
  simp only [equals, eq_comm (a := x) (b := y), Bool.and_comm x.isZero, Bool.and_comm (!x.isNaN)]

theorem equals_self_iff (x : Binary64) : x.equals x = true ↔ x.isNaN = false := by
  simp [equals]

theorem equals_trans {x y z : Binary64} (hxy : x.equals y = true) (hyz : y.equals z = true) :
    x.equals z = true := by
  simp only [equals, Bool.and_eq_true, Bool.not_eq_true', Bool.or_eq_true, decide_eq_true_eq]
    at hxy hyz ⊢
  obtain ⟨⟨hx, hy⟩, h⟩ := hxy
  obtain ⟨⟨-, hz⟩, k⟩ := hyz
  refine ⟨⟨hx, hz⟩, ?_⟩
  rcases h with rfl | ⟨h₁, h₂⟩
  · exact k
  · rcases k with rfl | ⟨-, k₂⟩
    · exact .inr ⟨h₁, h₂⟩
    · exact .inr ⟨h₁, k₂⟩

end Binary64

end Resilient
