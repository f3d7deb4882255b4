/-!
# Limits

How long a text and how deeply nested its parts may be. A limit that is absent holds nothing back.
-/

namespace Resilient

/-- Bounds on what a parser takes on. -/
structure Limits where
  /-- How many containers or parentheses may stand inside each other. -/
  depth : Option Nat
  size : Option Nat
  deriving DecidableEq

namespace Limits

/-- The bounds where none are named. -/
def standard : Limits := ⟨some 128, some (10 * 1024 * 1024)⟩

/-- No bounds. -/
def unlimited : Limits := ⟨none, none⟩

/-- The bound on size that a text exceeds. -/
def exceededSize (l : Limits) (source : String) : Option Nat :=
  l.size.filter (· < source.utf8ByteSize)

/-- The bound on depth that allows nothing inside `depth` parts; the depth is worked out only if
there is a bound. -/
def reachedDepth (l : Limits) (depth : Unit → Nat) : Option Nat :=
  l.depth.filter (· ≤ depth ())

end Limits

end Resilient
