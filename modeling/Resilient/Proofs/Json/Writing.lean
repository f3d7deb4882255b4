import Resilient.Json.Writer
import Resilient.Proofs.Decimal.Layout
import Resilient.Proofs.Json.Acceptance

/-!
# What is written is read back

Each character, string and value is written as the grammar spells it (`sentence_text`), so the text
of a value is a document, and reading it gives the value again (`parse_write`).
-/

namespace Resilient

/-- All numbers are finite, and no object has a key twice. -/
inductive Value.Regular : Value → Prop where
  | null : Regular .null
  | bool (b : Bool) : Regular (.bool b)
  | number {x : Binary64} (h : x.magnitude < Binary64.infinityBits) : Regular (.number x)
  | string (s : String) : Regular (.string s)
  | array {items : List Value} (h : ∀ v ∈ items, Regular v) : Regular (.array items)
  | object {entries : List (String × Value)} (hk : (Entries.keys entries).Nodup)
      (h : ∀ e ∈ entries, Regular e.2) : Regular (.object entries)

namespace Json

/-! ### Strings -/

theorem hexDigit_digitChar (n : Nat) : HexDigit (Nat.digitChar (n % 0x10)) (n % 0x10) := by
  have key : ∀ k : Fin 16, "0123456789abcdef".toList[k.val]? = some (Nat.digitChar k.val) := by
    decide
  exact .inl (key ⟨n % 0x10, Nat.mod_lt n (by decide)⟩)

theorem codeText_codeDigits {n : Nat} (h : n < 0x10000) : CodeText (codeDigits n) n := by
  have hcode := CodeText.intro (hexDigit_digitChar (n / 0x1000)) (hexDigit_digitChar (n / 0x100))
    (hexDigit_digitChar (n / 0x10)) (hexDigit_digitChar n)
  have hvalue : n / 0x1000 % 0x10 * 0x1000 + n / 0x100 % 0x10 * 0x100 + n / 0x10 % 0x10 * 0x10 +
      n % 0x10 = n := by omega
  rwa [hvalue] at hcode

theorem charText_codeUnits (c : Char) :
    CharText ((codeUnits c).flatMap fun n => '\\' :: 'u' :: codeDigits n) c := by
  have hc : c.toNat < 0x110000 := by
    have := c.valid
    rcases this with h | h
    · exact Nat.lt_trans h (by decide)
    · exact h.2
  unfold codeUnits
  split
  · rename_i h
    simpa using CharText.code (codeText_codeDigits h)
  · rename_i h
    have hm := codeText_codeDigits (n := 0xd800 + (c.toNat - 0x10000) / 0x400) (by omega)
    have hn := codeText_codeDigits (n := 0xdc00 + (c.toNat - 0x10000) % 0x400) (by omega)
    simpa using CharText.pair hm hn (by omega) (by omega) (by omega)

theorem shortEscapes_of_shortLetter? {c x : Char} (h : shortLetter? c = some x) :
    (x, c) ∈ shortEscapes := by
  unfold shortLetter? at h
  split at h <;> cases h <;> decide

theorem charText_escape (c : Char) : CharText (escape c) c := by
  unfold escape
  split
  · rename_i x hx
    exact .escape (shortEscapes_of_shortLetter? hx)
  · rename_i hnone
    split
    · exact charText_codeUnits c
    · rename_i hc
      refine .plain ?_ ?_ ?_
      · simp only [isControl, Bool.or_eq_true, decide_eq_true_eq, not_or] at hc
        rw [Char.le_def, UInt32.le_iff_toNat_le]
        exact Nat.le_of_not_lt hc.1
      · rintro rfl
        cases hnone
      · rintro rfl
        cases hnone

theorem stringText_stringText (s : String) : StringText (stringText s) s := by
  have key : ∀ cs : List Char, CharsText (cs.flatMap escape) cs := by
    intro cs
    induction cs with
    | nil => exact .nil
    | cons c cs ih => exact .cons (charText_escape c) ih
  have h := StringText.intro (key s.toList)
  rwa [String.ofList_toList] at h

/-! ### Values -/

theorem mark_of_mem {k : Kind} {c : Char} (h : (k, c) ∈ punctuation) :
    (Terminals.text false).mark k [c] := ⟨[], c, [], h, .nil, .nil, rfl⟩

theorem sentence_moreItems {t : List Char} {done vs : List Value}
    (h : Sentence (Terminals.text false) t (.items done))
    (hs : ∀ v ∈ vs, Sentence (Terminals.text false) v.text (.value v)) :
    Sentence (Terminals.text false) (t ++ (Value.textItems vs).flatMap (',' :: ·))
      (.items (done ++ vs)) := by
  induction vs generalizing t done with
  | nil => simpa [Value.textItems] using h
  | cons v vs ih =>
    obtain ⟨hv, hvs⟩ := List.forall_mem_cons.1 hs
    have hcomma : (Terminals.text false).mark .comma [','] := mark_of_mem (by decide)
    have hmore := ih (.moreItems h hcomma hv) hvs
    simpa [Value.textItems] using hmore

theorem sentence_moreMembers {t : List Char} {done es : List (String × Value)}
    (h : Sentence (Terminals.text false) t (.members done))
    (hs : ∀ e ∈ es, Sentence (Terminals.text false) (stringText e.1 ++ ':' :: e.2.text)
      (.member e.1 e.2)) :
    Sentence (Terminals.text false) (t ++ (Value.textEntries es).flatMap (',' :: ·))
      (.members (done ++ es)) := by
  induction es generalizing t done with
  | nil => simpa [Value.textEntries] using h
  | cons e es ih =>
    obtain ⟨he, hes⟩ := List.forall_mem_cons.1 hs
    have hcomma : (Terminals.text false).mark .comma [','] := mark_of_mem (by decide)
    have hmore := ih (.moreMembers h hcomma he) hes
    simpa [Value.textEntries] using hmore

theorem sentence_array {vs : List Value}
    (hs : ∀ v ∈ vs, Sentence (Terminals.text false) v.text (.value v)) :
    Sentence (Terminals.text false) (Value.array vs).text (.value (.array vs)) := by
  have ha : (Terminals.text false).mark .leftBracket ['['] := mark_of_mem (by decide)
  have hb : (Terminals.text false).mark .rightBracket [']'] := mark_of_mem (by decide)
  cases vs with
  | nil => exact .emptyArray ha hb
  | cons v vs =>
    obtain ⟨hv, hvs⟩ := List.forall_mem_cons.1 hs
    exact .array ha (sentence_moreItems (.oneItem hv) hvs) hb

theorem sentence_object {es : List (String × Value)} (hk : (Entries.keys es).Nodup)
    (hs : ∀ e ∈ es, Sentence (Terminals.text false) e.2.text (.value e.2)) :
    Sentence (Terminals.text false) (Value.object es).text (.value (.object es)) := by
  have ha : (Terminals.text false).mark .leftBrace ['\x7b'] := mark_of_mem (by decide)
  have hb : (Terminals.text false).mark .rightBrace ['\x7d'] := mark_of_mem (by decide)
  have hmember : ∀ e ∈ es, Sentence (Terminals.text false)
      (stringText e.1 ++ ':' :: e.2.text) (.member e.1 e.2) := by
    intro e he
    have hkey : (Terminals.text false).scalar (.string e.1) (stringText e.1) :=
      ScalarText.string (stringText_stringText e.1)
    have hcolon : (Terminals.text false).mark .colon [':'] := mark_of_mem (by decide)
    exact .member hkey hcolon (hs e he)
  cases es with
  | nil => exact .emptyObject ha hb
  | cons e es =>
    obtain ⟨he, hes⟩ := List.forall_mem_cons.1 hmember
    have h := Sentence.object ha (sentence_moreMembers (.oneMember he) hes) hb
    have hes : [(e.1, e.2)] ++ es = e :: es := rfl
    rwa [hes, Entries.lastWritten_of_nodup hk] at h

/-- A value is written as the grammar spells it. -/
theorem sentence_text {v : Value} (h : v.Regular) :
    Sentence (Terminals.text false) v.text (.value v) := by
  induction h with
  | null => exact .null ScalarText.null
  | bool b =>
    cases b
    · exact .bool ScalarText.false
    · exact .bool ScalarText.true
  | number hx =>
    exact .number (ScalarText.number (NumberLayout.numberText_write hx))
  | string s => exact .string (ScalarText.string (stringText_stringText s))
  | array h ih => exact sentence_array ih
  | object hk h ih => exact sentence_object hk ih

/-- A written value is read without a report, as itself. -/
theorem parse_write {v : Value} (h : v.Regular) : parse v.write .unlimited = (v, []) := by
  have hdocument : Document false v.write.toList v :=
    ⟨[], v.text, [], [], by simp [Value.write], .nil, sentence_text h, .nil, .nil⟩
  exact parse_of_document hdocument

theorem parse_write_object :
    parse (Value.object [("\x85", .array [.number ⟨0x3fb999999999999a⟩, .object []]),
        ("", .string "\"\n😀")]).write .unlimited =
      (.object [("\x85", .array [.number ⟨0x3fb999999999999a⟩, .object []]),
        ("", .string "\"\n😀")], []) := by
  refine parse_write (.object (by decide) ?_)
  simp only [List.forall_mem_cons]
  refine ⟨.array ?_, .string _, nofun⟩
  simp only [List.forall_mem_cons]
  exact ⟨.number (by decide), .object (by decide) nofun, nofun⟩

end Json

end Resilient
