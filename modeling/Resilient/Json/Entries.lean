/-!
# Ordered entries

Keys with values, in an order that insertions and removals keep: a key that is written again keeps
its place, a new key goes to the end, and a removal closes the gap. `put` and `take` answer with
the value that they displace.
-/

namespace Resilient

/-- Keys with values, in order. -/
abbrev Entries (α : Type) := List (String × α)

namespace Entries

variable {α : Type}

/-- The keys, in the order of the entries. -/
def keys (es : Entries α) : List String := List.map Prod.fst es

/-- The values, in the order of the entries. -/
def values (es : Entries α) : List α := List.map Prod.snd es

/-- The value of a key. -/
def get? : Entries α → String → Option α
  | [], _ => none
  | (k, v) :: es, key => if k = key then some v else get? es key

/-- Is there an entry under the key? -/
def contains (es : Entries α) (key : String) : Bool := (es.get? key).isSome

/-- Write a value: the value displaced, and the entries afterwards. -/
def put : Entries α → String → α → Option α × Entries α
  | [], key, value => (none, [(key, value)])
  | (k, v) :: es, key, value =>
    if k = key then (some v, (k, value) :: es)
    else
      let (old, es) := put es key value
      (old, (k, v) :: es)

/-- The entries with a value written under a key. -/
def insert (es : Entries α) (key : String) (value : α) : Entries α := (es.put key value).2

/-- Remove a key: the value displaced, and the entries afterwards. -/
def take : Entries α → String → Option α × Entries α
  | [], _ => (none, [])
  | (k, v) :: es, key =>
    if k = key then (some v, es)
    else
      let (old, es) := take es key
      (old, (k, v) :: es)

/-- The entries without a key. -/
def erase (es : Entries α) (key : String) : Entries α := (es.take key).2

/-- The pairs written one after the other into no entries. -/
def ofPairs (pairs : List (String × α)) : Entries α :=
  pairs.foldl (fun es p => insert es p.1 p.2) []

/-- The value of a key passed through `f`, which may refuse; other keys are left alone. -/
def edit {β : Type} (f : α → Option (β × α)) : Entries α → String → Option (β × Entries α)
  | [], _ => none
  | (k, v) :: es, key =>
    if k = key then (f v).map fun (b, v) => (b, (k, v) :: es)
    else (edit f es key).map fun (b, es) => (b, (k, v) :: es)

/-! ### What each operation does to the value of a key -/

@[simp] theorem get?_nil (key : String) : get? ([] : Entries α) key = none := rfl

theorem put_fst (es : Entries α) (key : String) (value : α) :
    (es.put key value).1 = es.get? key := by
  induction es with
  | nil => rfl
  | cons e es ih =>
    obtain ⟨k, v⟩ := e
    by_cases h : k = key <;> simp [put, get?, h, ih]

theorem get?_insert (es : Entries α) (key other : String) (value : α) :
    (es.insert key value).get? other = if key = other then some value else es.get? other := by
  induction es with
  | nil => by_cases h : key = other <;> simp [insert, put, get?, h]
  | cons e es ih =>
    obtain ⟨k, v⟩ := e
    simp only [insert] at ih
    by_cases h : k = key
    · subst h
      by_cases h' : k = other <;> simp [insert, put, get?, h']
    · by_cases h' : k = other
      · subst h'
        simp [insert, put, get?, h, Ne.symm h]
      · simp [insert, put, get?, h, h', ih]

theorem take_fst (es : Entries α) (key : String) : (es.take key).1 = es.get? key := by
  induction es with
  | nil => rfl
  | cons e es ih =>
    obtain ⟨k, v⟩ := e
    by_cases h : k = key <;> simp [take, get?, h, ih]

theorem keys_insert (es : Entries α) (key : String) (value : α) :
    (es.insert key value).keys = if key ∈ es.keys then es.keys else es.keys ++ [key] := by
  induction es with
  | nil => simp [insert, put, keys]
  | cons e es ih =>
    obtain ⟨k, v⟩ := e
    simp only [insert, keys] at ih ⊢
    by_cases h : k = key
    · simp [put, h]
    · simp only [put, h, if_false, List.map_cons, ih, List.mem_cons, Ne.symm h, false_or]
      split <;> simp [*]

end Entries

end Resilient
