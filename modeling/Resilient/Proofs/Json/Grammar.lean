import Resilient.Json.Value
import Resilient.Proofs.Json.Entries
import Resilient.Proofs.Lexeme.Gap
import Resilient.Proofs.Lexeme.Literal
import Resilient.Proofs.Lexeme.Numeral

/-!
# The grammar of JSON

`Sentence` is the grammar of RFC 8259 over any terminals: over the characters of a text
(`Terminals.text`) and over its scans (`Terminals.scan`). `Document` says which texts are written
by the rules, and which value they denote.
-/

namespace Resilient

/-- The kind of the token that carries a scalar. -/
def Scalar.kind : Scalar → Kind
  | .null => .nullWord
  | .bool true => .trueWord
  | .bool false => .falseWord
  | .number _ => .number
  | .string _ => .string

namespace Json

/-- A part of a text, and what it denotes. -/
inductive Part where
  | value (v : Value)
  /-- The items of an array that is not empty. -/
  | items (vs : List Value)
  | member (key : String) (v : Value)
  /-- The members of an object that is not empty. -/
  | members (ms : List (String × Value))

/-- How punctuation and scalars are written. -/
structure Terminals (α : Type) where
  /-- The punctuation of a kind. -/
  mark : Kind → List α → Prop
  /-- The spellings of a scalar. -/
  scalar : Scalar → List α → Prop

/-- The grammar. The derivation says how the parts are nested. -/
inductive Sentence {α : Type} (T : Terminals α) : List α → Part → Prop where
  | null {t : List α} (h : T.scalar .null t) : Sentence T t (.value .null)
  | bool {t : List α} {b : Bool} (h : T.scalar (.bool b) t) : Sentence T t (.value (.bool b))
  | number {t : List α} {x : Binary64} (h : T.scalar (.number x) t) :
      Sentence T t (.value (.number x))
  | string {t : List α} {s : String} (h : T.scalar (.string s) t) :
      Sentence T t (.value (.string s))
  | emptyArray {a b : List α} (ha : T.mark .leftBracket a) (hb : T.mark .rightBracket b) :
      Sentence T (a ++ b) (.value (.array []))
  | array {a ts b : List α} {vs : List Value} (ha : T.mark .leftBracket a)
      (h : Sentence T ts (.items vs)) (hb : T.mark .rightBracket b) :
      Sentence T (a ++ (ts ++ b)) (.value (.array vs))
  | emptyObject {a b : List α} (ha : T.mark .leftBrace a) (hb : T.mark .rightBrace b) :
      Sentence T (a ++ b) (.value (.object []))
  | object {a ts b : List α} {ms : List (String × Value)} (ha : T.mark .leftBrace a)
      (h : Sentence T ts (.members ms)) (hb : T.mark .rightBrace b) :
      Sentence T (a ++ (ts ++ b)) (.value (.object (Entries.lastWritten ms)))
  | oneItem {t : List α} {v : Value} (h : Sentence T t (.value v)) : Sentence T t (.items [v])
  | moreItems {ts c t : List α} {vs : List Value} {v : Value} (hs : Sentence T ts (.items vs))
      (hc : T.mark .comma c) (h : Sentence T t (.value v)) :
      Sentence T (ts ++ (c ++ t)) (.items (vs ++ [v]))
  | member {k c t : List α} {key : String} {v : Value} (hk : T.scalar (.string key) k)
      (hc : T.mark .colon c) (h : Sentence T t (.value v)) :
      Sentence T (k ++ (c ++ t)) (.member key v)
  | oneMember {t : List α} {key : String} {v : Value} (h : Sentence T t (.member key v)) :
      Sentence T t (.members [(key, v)])
  | moreMembers {ts c t : List α} {ms : List (String × Value)} {key : String} {v : Value}
      (hs : Sentence T ts (.members ms)) (hc : T.mark .comma c)
      (h : Sentence T t (.member key v)) :
      Sentence T (ts ++ (c ++ t)) (.members (ms ++ [(key, v)]))

/-- A scalar denotes itself as a value. -/
theorem Sentence.scalar {α : Type} {T : Terminals α} {t : List α} {s : Scalar}
    (h : T.scalar s t) : Sentence T t (.value (.ofScalar s)) := by
  cases s with
  | null => exact .null h
  | bool b => exact .bool h
  | number x => exact .number h
  | string s => exact .string h

/-- The characters of the punctuation. -/
def punctuation : List (Kind × Char) :=
  [(.leftBrace, '\x7b'), (.rightBrace, '\x7d'), (.leftBracket, '['), (.rightBracket, ']'),
    (.colon, ':'), (.comma, ',')]

/-- The spellings of a scalar. -/
inductive ScalarText : Scalar → List Char → Prop where
  | null : ScalarText .null ['n', 'u', 'l', 'l']
  | true : ScalarText (.bool .true) ['t', 'r', 'u', 'e']
  | false : ScalarText (.bool .false) ['f', 'a', 'l', 's', 'e']
  | number {t : List Char} {x : Binary64} (h : NumberText t x) : ScalarText (.number x) t
  | string {t : List Char} {s : String} (h : StringText t s) : ScalarText (.string s) t

/-- Punctuation with what separates it from its neighbours, and scalars as they are spelled. -/
def Terminals.text (comments : Bool) : Terminals Char where
  mark kind t := ∃ a c b, (kind, c) ∈ punctuation ∧ GapText comments a ∧ GapText comments b ∧
    t = a ++ c :: b
  scalar := ScalarText

/-- One token for each mark and each scalar. -/
def Terminals.scan : Terminals Scan where
  mark kind ss := ∃ s, ss = [s] ∧ s.token.kind = kind
  scalar v ss := ∃ s, ss = [s] ∧ s.token.kind = v.kind ∧ s.token.payload = some v

/-- A text with one value, and white space or comments around it. -/
def Document (comments : Bool) (text : List Char) (v : Value) : Prop :=
  ∃ before core behind last, text = before ++ (core ++ (behind ++ last)) ∧
    GapText comments before ∧ Sentence (Terminals.text comments) core (.value v) ∧
    GapText comments behind ∧ LastComment comments last

end Json

end Resilient
