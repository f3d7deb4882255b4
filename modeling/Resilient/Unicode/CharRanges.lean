/-!
# Sets of characters given by ranges

A set of characters is an array of disjoint ranges of code points in increasing order, and
membership is a binary search.
-/

namespace Resilient

/-- A set of code points: inclusive ranges, disjoint and in increasing order. -/
structure CharRanges where
  /-- First and last code point of each range. -/
  ranges : Array (Nat × Nat)

namespace CharRanges

/-- Does a range with an index from `low` to below `high` hold the code point `n`? -/
def search (ranges : Array (Nat × Nat)) (n low high : Nat) : Bool :=
  if low < high then
    let middle := (low + high) / 2
    match ranges[middle]? with
    | none => false
    | some (first, last) =>
      if n < first then search ranges n low middle
      else if last < n then search ranges n (middle + 1) high
      else true
  else false
termination_by high - low

/-- Is the character in one of the ranges? -/
def contains (s : CharRanges) (c : Char) : Bool := search s.ranges c.toNat 0 s.ranges.size

end CharRanges

end Resilient
