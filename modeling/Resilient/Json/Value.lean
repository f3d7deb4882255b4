import Resilient.Json.Entries
import Resilient.Scalar
import Resilient.Text.Outline

/-!
# JSON values

A value is a scalar, an array of values, or an object: values under keys, in order. Looking into a
value never fails, what is not there is null; writing goes through the keys of objects and says
when it does not arrive. `Value.equals` compares numbers as numbers and objects in any order.
-/

namespace Resilient

/-- A JSON value. The entries of an object keep their order. -/
inductive Value where
  | null
  | bool (b : Bool)
  | number (n : Binary64)
  | string (s : String)
  | array (items : List Value)
  | object (entries : List (String × Value))

namespace Value

/-- Null is taken where no value is named. -/
instance : Inhabited Value := ⟨null⟩

/-- A scalar as a value. -/
def ofScalar : Scalar → Value
  | .null => null
  | .bool b => bool b
  | .number n => number n
  | .string s => string s

/-- An integer as a value, rounded to the nearest number. -/
def ofInt (i : Int) : Value := number (.ofInt i)

/-- An object from pairs written one after the other. -/
def ofPairs (pairs : List (String × Value)) : Value := object (Entries.ofPairs pairs)

/-! ### Kinds of values -/

/-- Is it null? Every other value is something. -/
def isNull : Value → Bool
  | null => true
  | _ => false

/-- The truth value, if it is one. -/
def bool? : Value → Option Bool
  | bool b => some b
  | _ => none

/-- The number, if it is one. -/
def number? : Value → Option Binary64
  | number n => some n
  | _ => none

/-- The string, if it is one. -/
def string? : Value → Option String
  | string s => some s
  | _ => none

/-- The items, if it is an array. -/
def items? : Value → Option (List Value)
  | array items => some items
  | _ => none

/-- The entries, if it is an object. -/
def entries? : Value → Option (Entries Value)
  | object entries => some entries
  | _ => none

/-! ### Looking inside -/

/-- A step into a value. -/
inductive Step where
  | key (k : String)
  | index (i : Nat)

/-- The value of a key of an object. -/
def get? (v : Value) (key : String) : Option Value := v.entries?.bind (·.get? key)

/-- The value one step further, null if there is none. -/
def step (v : Value) : Step → Value
  | .key k => (v.get? k).getD null
  | .index i => (v.items?.bind (·[i]?)).getD null

/-- The value at the end of a path. -/
def follow (v : Value) (path : List Step) : Value := path.foldl step v

/-- The value at the end of a path of keys passed through `f`, which may refuse. The answer is
`none` if the path leads nowhere or `f` refuses. -/
def edit {α : Type} (f : Value → Option (α × Value)) : List Step → Value → Option (α × Value)
  | [], v => f v
  | .key k :: path, object entries =>
    (Entries.edit (edit f path) entries k).map fun (a, entries) => (a, object entries)
  | _ :: _, _ => none

/-! ### Edits -/

/-- Another value in the place of this one; the answer is the one displaced. -/
def replaceWith (new : Value) (v : Value) : Option (Value × Value) := some (v, new)

/-- A value under a key; the answer is the one displaced. -/
def insertEntry (key : String) (value : Value) : Value → Option (Option Value × Value)
  | object entries =>
    let (old, entries) := Entries.put entries key value
    some (old, object entries)
  | _ => none

/-- A key removed; the answer is the value displaced. -/
def removeEntry (key : String) : Value → Option (Option Value × Value)
  | object entries =>
    let (old, entries) := Entries.take entries key
    some (old, object entries)
  | _ => none

/-- A value behind the items; the answer is the number of items afterwards. -/
def push (value : Value) : Value → Option (Nat × Value)
  | array items => some (items.length + 1, array (items ++ [value]))
  | _ => none

/-- A container collected again from its parts, which are taken out of it and turned around; entries
are collected as in `ofPairs`. Other values stay. -/
def reverse : Value → Option (Unit × Value)
  | array items => some ((), array items.reverse)
  | object entries => some ((), ofPairs entries.reverse)
  | v => some ((), v)

/-- An object collected again from its entries, which are taken out of it and get keys in ASCII
capitals. Keys that become equal fall together as in `ofPairs`; the answer is the number of entries
left. -/
def capitalizeKeys : Value → Option (Nat × Value)
  | object entries =>
    let entries := Entries.ofPairs (entries.map fun (k, v) => (k.map Char.toUpper, v))
    some (entries.length, object entries)
  | _ => none

/-! ### Equality -/

mutual

/-- Equality of values: numbers as numbers, arrays item by item, objects in any order. -/
def equals : Value → Value → Bool
  | null, null => true
  | bool a, bool b => a = b
  | number a, number b => a.equals b
  | string a, string b => a = b
  | array xs, array ys => equalItems xs ys
  | object es, object fs => es.length = fs.length && equalEntries es fs
  | _, _ => false

/-- Items are compared one by one, and their numbers have to agree. -/
def equalItems : List Value → List Value → Bool
  | [], [] => true
  | x :: xs, y :: ys => equals x y && equalItems xs ys
  | _, _ => false

/-- Every entry is found with an equal value among the others. -/
def equalEntries : List (String × Value) → List (String × Value) → Bool
  | [], _ => true
  | (k, v) :: es, fs =>
    (match Entries.get? fs k with
      | some w => equals v w
      | none => false) && equalEntries es fs

end

/-! ### Written form -/

mutual

/-- The shape of a value with the names of its kinds. -/
def outline : Value → Outline
  | null => .leaf "Null"
  | bool b => .tagged "Bool" (.leaf (if b then "true" else "false"))
  | number n => .tagged "Number" (.leaf (NumberLayout.marked.write n))
  | string s => .tagged "String" (.leaf (quotedString s))
  | array items => .tagged "Array" (.tagged "Array" (.sequence (outlineItems items)))
  | object entries => .tagged "Object" (.tagged "Object" (.mapping (outlineEntries entries)))

/-- The outlines of items. -/
def outlineItems : List Value → List Outline
  | [] => []
  | v :: vs => outline v :: outlineItems vs

/-- The outlines of entries, under their keys in quotes. -/
def outlineEntries : List (String × Value) → List (String × Outline)
  | [] => []
  | (k, v) :: es => (quotedString k, outline v) :: outlineEntries es

end

end Value

end Resilient
