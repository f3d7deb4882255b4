import Resilient.Unicode.Visible

/-!
# Quoted text

Text is shown between delimiters with everything invisible spelled out: the delimiter and the
backslash behind a backslash, four controls by a letter or digit, and any other character without
a form of its own by its code point in braces.
-/

namespace Resilient

/-- The spelling of one character between delimiters. -/
def quotedChar (delimiter c : Char) : List Char :=
  if c = delimiter || c = '\\' then ['\\', c]
  else if c = '\x00' then ['\\', '0']
  else if c = '\t' then ['\\', 't']
  else if c = '\n' then ['\\', 'n']
  else if c = '\r' then ['\\', 'r']
  else if isVisible c then [c]
  else ['\\', 'u', '\x7b'] ++ Nat.toDigits 16 c.toNat ++ ['\x7d']

/-- The text between two delimiters. -/
def quoted (delimiter : Char) (text : List Char) : String :=
  String.ofList (delimiter :: (text.flatMap (quotedChar delimiter) ++ [delimiter]))

/-- A string between double quotes. -/
def quotedString (s : String) : String := quoted '"' s.toList

/-- A character between single quotes. -/
def quotedCharacter (c : Char) : String := quoted '\'' [c]

end Resilient
