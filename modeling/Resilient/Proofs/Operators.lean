import Mathlib.Data.List.Infix
import Resilient.Lexeme

/-!
# The longest spelling of a table

`Operator.match?` takes the first entry of a table whose spelling begins the text. In a table that
is `LongestFirst`, no spelling begins a longer one behind it, and then the entry taken is one with
the longest spelling (`prefix_of_match?`), whatever the table and the text. The tables of both
languages are such tables. In each of them a kind stands once, and so the kind of a token is enough
to find the entry that was matched for it (`ofKind?_of_nodup`).
-/

namespace Resilient

namespace Operator

/-- No spelling is the beginning of a longer one behind it. -/
def LongestFirst (table : List Operator) : Prop :=
  table.Pairwise fun earlier later =>
    earlier.spelling.toList <+: later.spelling.toList → earlier.spelling = later.spelling

instance (table : List Operator) : Decidable (LongestFirst table) :=
  inferInstanceAs (Decidable (List.Pairwise _ table))

variable {table : List Operator} {text : List Char} {op other : Operator}

theorem begins_iff (op : Operator) (text : List Char) :
    op.begins text = true ↔ op.spelling.toList <+: text := List.isPrefixOf_iff_prefix

/-- The entry matched, and no entry in front of it, has a spelling that begins the text. -/
theorem match?_eq_some_iff :
    match? table text = some op ↔ op.spelling.toList <+: text ∧
      ∃ before behind, table = before ++ op :: behind ∧
        ∀ other ∈ before, ¬ other.spelling.toList <+: text := by
  simp [match?, List.find?_eq_some_iff_append, begins_iff, ← Bool.not_eq_true]

theorem match?_eq_none_iff :
    match? table text = none ↔ ∀ op ∈ table, ¬ op.spelling.toList <+: text := by
  simp only [match?, List.find?_eq_none, begins_iff]

/-- Two spellings that begin one text begin one another, and behind the first entry that fits no
longer one is left. -/
theorem prefix_of_match? (h : LongestFirst table) (hm : match? table text = some op)
    (hother : other ∈ table) (hbegins : other.spelling.toList <+: text) :
    other.spelling.toList <+: op.spelling.toList := by
  obtain ⟨hop, before, behind, rfl, hbefore⟩ := match?_eq_some_iff.1 hm
  rcases List.mem_append.1 hother with hmem | hmem
  · exact absurd hbegins (hbefore other hmem)
  rcases List.mem_cons.1 hmem with rfl | hmem
  · exact List.prefix_rfl
  have hpair := (List.pairwise_cons.1 (List.pairwise_append.1 h).2.1).1 other hmem
  rcases List.prefix_or_prefix_of_prefix hop hbegins with hle | hle
  · exact hpair hle ▸ List.prefix_rfl
  · exact hle

theorem ofKind?_of_nodup (h : (table.map kind).Nodup) (hop : op ∈ table) :
    ofKind? table op.kind = some op := by
  obtain ⟨before, behind, rfl⟩ := List.append_of_mem hop
  rw [List.map_append, List.map_cons, List.nodup_append] at h
  obtain ⟨-, -, hdisjoint⟩ := h
  rw [ofKind?, List.find?_eq_some_iff_append]
  refine ⟨decide_eq_true rfl, before, behind, rfl, fun other hmem => ?_⟩
  have hne : other.kind ≠ op.kind :=
    hdisjoint _ (List.mem_map_of_mem hmem) _ List.mem_cons_self
  simpa using hne

theorem exists_append_of_prefix {a b : String} (h : a.toList <+: b.toList) :
    ∃ rest, b = a ++ rest := by
  obtain ⟨rest, hrest⟩ := h
  exact ⟨String.ofList rest, String.toList_injective (by simp [hrest])⟩

/-- Take a table where no spelling begins a longer one behind it, and any text. The entry matched
is one of the table, its spelling begins the text, and every other spelling of the table that does
is at most as long, in characters and in bytes; nothing is matched if and only if no spelling begins
the text. The tables of both languages are of this sort and hold each kind once, and in them the
kind of the token that a match makes leads back to the entry matched. -/
theorem longest_spelling_matched :
    (∀ table, LongestFirst table → ∀ text,
      (∀ op, match? table text = some op → op ∈ table ∧ op.spelling.toList <+: text ∧
        ∀ other ∈ table, other.spelling.toList <+: text →
          other.spelling.length ≤ op.spelling.length ∧
            other.spelling.utf8ByteSize ≤ op.spelling.utf8ByteSize) ∧
      (match? table text = none ↔ ∀ op ∈ table, ¬ op.spelling.toList <+: text)) ∧
    ∀ table ∈ [json, expression], LongestFirst table ∧ (table.map kind).Nodup ∧
      ∀ text op, match? table text = some op → ∀ d span t,
        (Lexeme.operator op).token? d span = some t → ofKind? table t.kind = some op := by
  refine ⟨fun table h text => ⟨fun op hm => ?_, match?_eq_none_iff⟩, fun table htable => ?_⟩
  · refine ⟨List.mem_of_find?_eq_some hm, (match?_eq_some_iff.1 hm).1, fun other hmem hbegins => ?_⟩
    obtain ⟨rest, hrest⟩ := exists_append_of_prefix (prefix_of_match? h hm hmem hbegins)
    rw [hrest, String.length_append, String.utf8ByteSize_append]
    exact ⟨Nat.le_add_right _ _, Nat.le_add_right _ _⟩
  · have hnodup : (table.map kind).Nodup := by
      revert table
      decide
    refine ⟨?_, hnodup, fun text op hm d span t ht => ?_⟩
    · revert table
      decide
    · cases ht
      exact ofKind?_of_nodup hnodup (List.mem_of_find?_eq_some hm)

theorem longest_spelling_matched_less :
    let table := [punctuation "<=" .lessEq, punctuation "<" .less, punctuation "" .eof]
    (LongestFirst table ∧ match? table "<>".toList = some (punctuation "<" .less) ∧
      ∀ other ∈ table, other.spelling.toList <+: "<>".toList → other.spelling.length ≤ 1) ∧
    match? expression ">>1".toList = some (binary ">>" .shr .shr .multiplicative) ∧
      (Lexeme.operator (binary ">>" .shr .shr .multiplicative)).token? .expression default =
        some (.bare .shr default) ∧
      ofKind? expression .shr = some (binary ">>" .shr .shr .multiplicative) := by
  intro table
  have h : LongestFirst table := by decide
  have hm : match? table "<>".toList = some (punctuation "<" .less) := by decide
  have hshr : match? expression ">>1".toList = some (binary ">>" .shr .shr .multiplicative) := by
    decide
  obtain ⟨htable, hlookup⟩ := longest_spelling_matched
  refine ⟨⟨h, hm, fun other hmem hbegins => ?_⟩, hshr, rfl, ?_⟩
  · exact (((htable table h _).1 _ hm).2.2 other hmem hbegins).1
  · exact (hlookup expression (by simp)).2.2 _ _ hshr .expression default _ rfl

end Operator

end Resilient
