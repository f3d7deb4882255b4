import Mathlib.Data.List.DropRight
import Mathlib.Data.List.Induction
import Resilient.Source.Span

/-!
# Places of a source text

`Position.IsIn` says which places are places of a text: the text before one tells its offset, its
line and its column. `Span.IsIn` says the same of both ends of a range, and that they are in order.
A range of a text can be cut out of it (`Span.IsIn.isSome_slice`), and the least range that covers
two of them is one too (`Span.IsIn.merge`).
-/

namespace Resilient

/-- A place of a text. Line and column are counted from 1, so no place is `0:0`, and both are at
most one more than the number of characters. -/
structure Position.IsIn (source : String) (p : Position) : Prop where
  /-- The offset counts the bytes before the place, the line the line feeds, and the column the
  characters behind the last one. -/
  told : ∃ before behind, source = before ++ behind ∧ p.offset = before.utf8ByteSize ∧
    p.line = 1 + before.toList.count '\n' ∧
    p.column = 1 + (before.toList.rtakeWhile (· ≠ '\n')).length
  line_le : p.line ≤ source.length + 1
  column_le : p.column ≤ source.length + 1

/-- A range of a text. -/
structure Span.IsIn (source : String) (s : Span) : Prop where
  start : s.start.IsIn source
  stop : s.stop.IsIn source
  ordered : s.start.offset ≤ s.stop.offset
  bounded : s.stop.offset ≤ source.utf8ByteSize

variable {source : String} {p : Position} {s t : Span} {before text rest : List Char}

/-! ### The place behind a text -/

theorem utf8ByteSize_ofList_cons (c : Char) (text : List Char) :
    (String.ofList (c :: text)).utf8ByteSize = c.utf8Size + (String.ofList text).utf8ByteSize := by
  rw [← List.singleton_append, String.ofList_append, String.utf8ByteSize_append,
    ← String.singleton_eq_ofList, String.utf8ByteSize_singleton]

theorem Position.after_start (text : List Char) :
    (start.after text).offset = (String.ofList text).utf8ByteSize ∧
      (start.after text).line = 1 + text.count '\n' ∧
      (start.after text).column = 1 + (text.rtakeWhile (· ≠ '\n')).length := by
  induction text using List.reverseRecOn with
  | nil => simp [start]
  | append_singleton text c ih =>
    obtain ⟨hoffset, hline, hcolumn⟩ := ih
    have hbytes : (String.ofList (text ++ [c])).utf8ByteSize =
        (String.ofList text).utf8ByteSize + c.utf8Size := by
      rw [String.ofList_append, String.utf8ByteSize_append, utf8ByteSize_ofList_cons]
      simp
    rw [after_append, after_cons, after_nil, hbytes, List.rtakeWhile_concat, List.count_append,
      List.count_singleton]
    by_cases hc : c = '\n'
    · simp [next, hc, hoffset, hline, Nat.add_assoc]
    · simp [next, hc, hoffset, hline, hcolumn, Nat.add_assoc]

/-- The rest of the source text at a place. -/
def Position.Sees (source : String) (p : Position) (text : List Char) : Prop :=
  ∃ before, source.toList = before ++ text ∧ p = start.after before

namespace Position.Sees

theorem of_source (source : String) : start.Sees source source.toList := ⟨[], rfl, rfl⟩

theorem append {text : List Char} (h : p.Sees source (text ++ rest)) :
    (p.after text).Sees source rest := by
  obtain ⟨before, hs, rfl⟩ := h
  exact ⟨before ++ text, by rw [hs, List.append_assoc], (after_append _ _ _).symm⟩

theorem cons {c : Char} (h : p.Sees source (c :: rest)) : (p.next c).Sees source rest := by
  have hc : p.Sees source ([c] ++ rest) := h
  exact hc.append

theorem isIn (h : p.Sees source text) : p.IsIn source := by
  obtain ⟨before, hs, rfl⟩ := h
  obtain ⟨hoffset, hline, hcolumn⟩ := after_start before
  have hlength : before.length ≤ source.length := by
    have := congrArg List.length hs
    rw [String.length_toList, List.length_append] at this
    omega
  have hcount := List.count_le_length (a := '\n') (l := before)
  have htake := (List.rtakeWhile_suffix (· ≠ '\n') before).length_le
  refine ⟨⟨String.ofList before, String.ofList text, ?_, hoffset, ?_, ?_⟩, by omega, by omega⟩
  · rw [← String.ofList_append, ← hs, String.ofList_toList]
  · rw [hline, String.toList_ofList]
  · rw [hcolumn, String.toList_ofList]

theorem span (h : p.Sees source (text ++ rest)) : Span.IsIn source ⟨p, p.after text⟩ where
  start := h.isIn
  stop := h.append.isIn
  ordered := p.offset_le_after text
  bounded := by
    obtain ⟨⟨before, behind, rfl, hoffset, -⟩, -⟩ := h.append.isIn
    rw [hoffset, String.utf8ByteSize_append]
    exact Nat.le_add_right _ _

end Position.Sees

/-! ### Ranges -/

namespace Span.IsIn

theorem point (h : p.IsIn source) : (Span.point p).IsIn source where
  start := h
  stop := h
  ordered := Nat.le_refl _
  bounded := by
    obtain ⟨before, behind, rfl, hoffset, -⟩ := h.told
    rw [Span.point, hoffset, String.utf8ByteSize_append]
    exact Nat.le_add_right _ _

theorem merge (hs : s.IsIn source) (ht : t.IsIn source) : (s.merge t).IsIn source where
  start := by
    simp only [Span.merge]
    split
    · exact ht.start
    · exact hs.start
  stop := by
    simp only [Span.merge]
    split
    · exact ht.stop
    · exact hs.stop
  ordered := by
    have := hs.ordered
    rw [start_offset_merge, stop_offset_merge]
    omega
  bounded := by
    rw [stop_offset_merge]
    exact Nat.max_le.2 ⟨hs.bounded, ht.bounded⟩

end Span.IsIn

namespace Span

theorem contains_merge_left (h : s.contains t = true) (u : Span) :
    (s.merge u).contains t = true := by
  rw [contains_iff] at h ⊢
  rw [start_offset_merge, stop_offset_merge]
  exact ⟨Nat.le_trans (Nat.min_le_left _ _) h.1, Nat.le_trans h.2 (Nat.le_max_left _ _)⟩

end Span

/-! ### Cutting out a range -/

theorem dropBytes_append (text rest : List Char) :
    dropBytes (String.ofList text).utf8ByteSize (text ++ rest) = some rest := by
  induction text with
  | nil => simp [dropBytes]
  | cons c text ih =>
    have hbytes := utf8ByteSize_ofList_cons c text
    have hpos := c.utf8Size_pos
    obtain ⟨n, hn⟩ := Nat.exists_eq_succ_of_ne_zero (n := (String.ofList (c :: text)).utf8ByteSize)
      (by omega)
    have hrest : n + 1 - c.utf8Size = (String.ofList text).utf8ByteSize := by omega
    rw [hn, List.cons_append, dropBytes, if_pos (by omega), hrest, ih]

theorem takeBytes_append (taken text rest : List Char) :
    takeBytes (String.ofList text).utf8ByteSize taken (text ++ rest) =
      some (taken.reverse ++ text) := by
  induction text generalizing taken with
  | nil => simp [takeBytes]
  | cons c text ih =>
    have hbytes := utf8ByteSize_ofList_cons c text
    have hpos := c.utf8Size_pos
    obtain ⟨n, hn⟩ := Nat.exists_eq_succ_of_ne_zero (n := (String.ofList (c :: text)).utf8ByteSize)
      (by omega)
    have hrest : n + 1 - c.utf8Size = (String.ofList text).utf8ByteSize := by omega
    rw [hn, List.cons_append, takeBytes, if_pos (by omega), hrest, ih]
    simp

theorem Position.Sees.slice (h : p.Sees source (text ++ rest)) :
    Span.slice ⟨p, p.after text⟩ source = some (String.ofList text) := by
  obtain ⟨before, hs, rfl⟩ := h
  have hstart := (after_start before).1
  have hstop := (after_start (before ++ text)).1
  rw [String.ofList_append, String.utf8ByteSize_append, after_append] at hstop
  have hlength : ((start.after before).after text).offset - (start.after before).offset =
      (String.ofList text).utf8ByteSize := by omega
  rw [Span.slice, sliceBytes, if_neg (Nat.not_lt.2 (offset_le_after _ _)), hs, hlength, hstart,
    dropBytes_append]
  simp [takeBytes_append]

/-- Of two texts that a text begins with, the one of fewer bytes begins the other. -/
theorem prefix_of_utf8ByteSize_le {a b x y : String} (h : a ++ x = b ++ y)
    (hle : a.utf8ByteSize ≤ b.utf8ByteSize) : ∃ middle, b = a ++ middle := by
  have hlist := congrArg String.toList h
  rw [String.toList_append, String.toList_append] at hlist
  rcases List.append_eq_append_iff.1 hlist with ⟨us, hb, -⟩ | ⟨us, ha, -⟩
  · exact ⟨String.ofList us, String.toList_injective (by simpa using hb)⟩
  · have ha : a = b ++ String.ofList us := String.toList_injective (by simpa using ha)
    have hus : (String.ofList us).utf8ByteSize = 0 := by
      rw [ha, String.utf8ByteSize_append] at hle
      omega
    rw [String.utf8ByteSize_eq_zero_iff] at hus
    exact ⟨"", by rw [ha, hus]; simp⟩

theorem Span.IsIn.isSome_slice (h : s.IsIn source) : (s.slice source).isSome = true := by
  obtain ⟨a, x, ha, hstart, -⟩ := h.start.told
  obtain ⟨b, y, hb, hstop, -⟩ := h.stop.told
  have hle := h.ordered
  obtain ⟨middle, rfl⟩ := prefix_of_utf8ByteSize_le (ha.symm.trans hb) (by omega)
  have hlist : source.toList = a.toList ++ (middle.toList ++ y.toList) := by
    rw [hb, String.toList_append, String.toList_append, List.append_assoc]
  have hdrop := dropBytes_append a.toList (middle.toList ++ y.toList)
  have htake := takeBytes_append [] middle.toList y.toList
  rw [String.ofList_toList] at hdrop htake
  have hlength : s.stop.offset - s.start.offset = middle.utf8ByteSize := by
    rw [hstart, hstop, String.utf8ByteSize_append]
    omega
  rw [Span.slice, sliceBytes, if_neg (by omega), hlist, hlength, hstart, hdrop]
  simp [htake]

end Resilient
