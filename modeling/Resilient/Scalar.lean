import Resilient.Decimal.Layout
import Resilient.Text.Quoted

/-!
# Scalars

The values without parts: what a token carries and what a leaf of a tree holds.
-/

namespace Resilient

/-- A value without parts. -/
inductive Scalar where
  | null
  | bool (b : Bool)
  | number (n : Binary64)
  | string (s : String)
  deriving DecidableEq

namespace Scalar

/-- The written form in a tree. -/
def toText : Scalar → String
  | null => "null"
  | bool b => if b then "true" else "false"
  | number n => NumberLayout.plain.write n
  | string s => quotedString s

/-- The string, if it is one. -/
def text? : Scalar → Option String
  | string s => some s
  | _ => none

/-- The number, if it is one. -/
def number? : Scalar → Option Binary64
  | number n => some n
  | _ => none

end Scalar

end Resilient
