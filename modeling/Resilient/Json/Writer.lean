import Resilient.Json.Value

/-!
# Writing JSON texts

`Value.write` spells a value without white space. In strings quotes, backslashes and control
characters are escaped, by a letter where there is one and else by the code of the character.
-/

namespace Resilient

namespace Json

/-- The letter that stands for a character behind a backslash. -/
def shortLetter? : Char → Option Char
  | '"' => some '"'
  | '\\' => some '\\'
  | '\x08' => some 'b'
  | '\x0c' => some 'f'
  | '\n' => some 'n'
  | '\r' => some 'r'
  | '\t' => some 't'
  | _ => none

/-- The UTF-16 code units of a character. -/
def codeUnits (c : Char) : List Nat :=
  if c.toNat < 0x10000 then [c.toNat]
  else [0xd800 + (c.toNat - 0x10000) / 0x400, 0xdc00 + (c.toNat - 0x10000) % 0x400]

/-- A code unit in four hexadecimal digits. -/
def codeDigits (n : Nat) : List Char :=
  [n / 0x1000, n / 0x100, n / 0x10, n].map fun k => Nat.digitChar (k % 0x10)

/-- Control characters: those below the blank, and those from delete up to `U+009F`. -/
def isControl (c : Char) : Bool := c.toNat < 0x20 || (0x7f ≤ c.toNat && c.toNat < 0xa0)

/-- A character inside quotes. -/
def escape (c : Char) : List Char :=
  match shortLetter? c with
  | some x => ['\\', x]
  | none =>
    if isControl c then (codeUnits c).flatMap fun n => '\\' :: 'u' :: codeDigits n else [c]

/-- A string between quotes. -/
def stringText (s : String) : List Char := '"' :: (s.toList.flatMap escape ++ ['"'])

/-- Texts with commas between them. -/
def joined : List (List Char) → List Char
  | [] => []
  | t :: ts => t ++ ts.flatMap (',' :: ·)

end Json

open Json

mutual

/-- The characters of a value. -/
def Value.text : Value → List Char
  | .null => ['n', 'u', 'l', 'l']
  | .bool true => ['t', 'r', 'u', 'e']
  | .bool false => ['f', 'a', 'l', 's', 'e']
  | .number n => (NumberLayout.plain.write n).toList
  | .string s => stringText s
  | .array items => '[' :: (joined (Value.textItems items) ++ [']'])
  | .object entries => '\x7b' :: (joined (Value.textEntries entries) ++ ['\x7d'])

/-- The texts of items. -/
def Value.textItems : List Value → List (List Char)
  | [] => []
  | v :: vs => v.text :: Value.textItems vs

/-- The texts of members, each a key, a colon and a value. -/
def Value.textEntries : List (String × Value) → List (List Char)
  | [] => []
  | (k, v) :: es => (stringText k ++ ':' :: v.text) :: Value.textEntries es

end

/-- The text of a value. -/
def Value.write (v : Value) : String := String.ofList v.text

end Resilient
