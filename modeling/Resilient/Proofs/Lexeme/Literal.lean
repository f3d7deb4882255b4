import Mathlib.Data.List.TakeWhile
import Mathlib.Tactic.ByContra
import Resilient.Lexeme.Literal

/-!
# The spellings of strings

`StringText` says how JSON spells a string. `read_of_charsText` says that such a spelling is read
as a whole and without a report, `stringText_of_reports` that nothing else is.
-/

namespace Resilient

/-- A hexadecimal digit, in either case, and its value. -/
def HexDigit (c : Char) (n : Nat) : Prop :=
  "0123456789abcdef".toList[n]? = some c ∨ "0123456789ABCDEF".toList[n]? = some c

/-- Four hexadecimal digits, and the number that they stand for. -/
inductive CodeText : List Char → Nat → Prop where
  | intro {a b c d : Char} {w x y z : Nat} (ha : HexDigit a w) (hb : HexDigit b x)
      (hc : HexDigit c y) (hd : HexDigit d z) :
      CodeText [a, b, c, d] (w * 0x1000 + x * 0x100 + y * 0x10 + z)

/-- The letters of the short escapes, and the characters that they stand for. -/
def shortEscapes : List (Char × Char) :=
  [('"', '"'), ('\\', '\\'), ('/', '/'), ('b', '\x08'), ('f', '\x0c'), ('n', '\n'), ('r', '\r'),
    ('t', '\t')]

/-- The spellings of a character: itself, a short escape, the code of its number, or beyond
`U+FFFF` the codes of a high and of a low surrogate. -/
inductive CharText : List Char → Char → Prop where
  | plain {c : Char} (hs : ' ' ≤ c) (hq : c ≠ '"') (hb : c ≠ '\\') : CharText [c] c
  | escape {x c : Char} (h : (x, c) ∈ shortEscapes) : CharText ['\\', x] c
  | code {ds : List Char} {c : Char} (h : CodeText ds c.toNat) : CharText ('\\' :: 'u' :: ds) c
  | pair {ds es : List Char} {m n : Nat} {c : Char} (hm : CodeText ds m) (hn : CodeText es n)
      (high : 0xd800 ≤ m ∧ m < 0xdc00) (low : 0xdc00 ≤ n ∧ n < 0xe000)
      (hc : c.toNat = 0x10000 + (m - 0xd800) * 0x400 + (n - 0xdc00)) :
      CharText ('\\' :: 'u' :: (ds ++ '\\' :: 'u' :: es)) c

/-- The spellings of characters, one after the other. -/
inductive CharsText : List Char → List Char → Prop where
  | nil : CharsText [] []
  | cons {t ts : List Char} {c : Char} {cs : List Char} (h : CharText t c) (hs : CharsText ts cs) :
      CharsText (t ++ ts) (c :: cs)

/-- The spellings of a string, between quotes. -/
inductive StringText : List Char → String → Prop where
  | intro {t cs : List Char} (h : CharsText t cs) :
      StringText ('"' :: (t ++ ['"'])) (String.ofList cs)

/-! ### Hexadecimal digits -/

theorem HexDigit.lt {c : Char} {n : Nat} (h : HexDigit c n) : n < 16 := by
  rcases h with h | h <;> exact (List.getElem?_eq_some_iff.1 h).1

theorem hexDigit?_of_hexDigit {c : Char} {n : Nat} (h : HexDigit c n) : hexDigit? c = some n := by
  have key : ∀ k : Fin 16, ∀ digits ∈ ["0123456789abcdef", "0123456789ABCDEF"],
      digits.toList[k.val]?.bind hexDigit? = some k.val := by decide
  have hn := h.lt
  rcases h with h | h
  · have hk := key ⟨n, hn⟩ "0123456789abcdef" (by simp)
    rwa [h] at hk
  · have hk := key ⟨n, hn⟩ "0123456789ABCDEF" (by simp)
    rwa [h] at hk

theorem toNat_lt_of_hexDigit? {c : Char} {n : Nat} (h : hexDigit? c = some n) :
    c.toNat < 128 := by
  unfold hexDigit? at h
  by_contra hc
  have h₁ : ¬ c.isDigit = true := by
    simp only [Char.isDigit, Bool.and_eq_true, decide_eq_true_eq, ge_iff_le,
      UInt32.le_iff_toNat_le]
    change ¬ (48 ≤ c.toNat ∧ c.toNat ≤ 57)
    omega
  have h₂ (x y : Char) (hy : y.toNat < 128) : ¬ (decide (x ≤ c) && decide (c ≤ y)) = true := by
    simp only [Bool.and_eq_true, decide_eq_true_eq, Char.le_def, UInt32.le_iff_toNat_le]
    change ¬ (x.toNat ≤ c.toNat ∧ c.toNat ≤ y.toNat)
    omega
  rw [if_neg h₁, if_neg (h₂ _ _ (by decide)), if_neg (h₂ _ _ (by decide))] at h
  cases h

theorem hexDigit_of_hexDigit? {c : Char} {n : Nat} (h : hexDigit? c = some n) : HexDigit c n := by
  have key : ∀ k : Fin 128, (hexDigit? (Char.ofNat k)).all fun n =>
      "0123456789abcdef".toList[n]? = some (Char.ofNat k) ∨
        "0123456789ABCDEF".toList[n]? = some (Char.ofNat k) := by decide
  have hk := key ⟨c.toNat, toNat_lt_of_hexDigit? h⟩
  simp only [Char.ofNat_toNat, h, Option.all_some, decide_eq_true_eq] at hk
  exact hk

theorem isSome_of_mem_hexDigits (text : List Char) :
    ∀ c ∈ hexDigits text, (hexDigit? c).isSome = true := by
  intro c hc
  have hc : c ∈ (text.take 4).takeWhile fun c => (hexDigit? c).isSome := hc
  exact (List.mem_takeWhile_imp hc :)

theorem length_hexDigits_le (text : List Char) : (hexDigits text).length ≤ 4 :=
  (List.takeWhile_prefix _).length_le.trans (List.length_take_le 4 text)

theorem exists_four {ds : List Char} (h : ds.length = 4) : ∃ a b c d, ds = [a, b, c, d] := by
  match ds, h with
  | [a, b, c, d], _ => exact ⟨a, b, c, d, rfl⟩

namespace CodeText

variable {ds : List Char} {n : Nat}

theorem length (h : CodeText ds n) : ds.length = 4 := by
  cases h
  rfl

theorem hexValue (h : CodeText ds n) : hexValue ds = n := by
  cases h with
  | intro ha hb hc hd =>
    simp only [Resilient.hexValue, List.foldl_cons, List.foldl_nil, hexDigit?_of_hexDigit ha,
      hexDigit?_of_hexDigit hb, hexDigit?_of_hexDigit hc, hexDigit?_of_hexDigit hd,
      Option.getD_some]
    omega

theorem hexDigits_append (h : CodeText ds n) (rest : List Char) : hexDigits (ds ++ rest) = ds := by
  cases h with
  | intro ha hb hc hd =>
    simp [hexDigits, hexDigit?_of_hexDigit ha, hexDigit?_of_hexDigit hb, hexDigit?_of_hexDigit hc,
      hexDigit?_of_hexDigit hd]

theorem codeUnit? (h : CodeText ds n) : (Piece.code ds).codeUnit? = some n := by
  simp [Piece.codeUnit?, h.length, h.hexValue]

end CodeText

theorem codeText_of_codeUnit? {ds : List Char} {n : Nat}
    (hex : ∀ c ∈ ds, (hexDigit? c).isSome = true) (h : (Piece.code ds).codeUnit? = some n) :
    CodeText ds n := by
  simp only [Piece.codeUnit?, Option.ite_none_right_eq_some, Option.some.injEq] at h
  obtain ⟨hl, rfl⟩ := h
  obtain ⟨a, b, c, d, rfl⟩ := exists_four hl
  obtain ⟨w, hw⟩ := Option.isSome_iff_exists.1 (hex a (by simp))
  obtain ⟨x, hx⟩ := Option.isSome_iff_exists.1 (hex b (by simp))
  obtain ⟨y, hy⟩ := Option.isSome_iff_exists.1 (hex c (by simp))
  obtain ⟨z, hz⟩ := Option.isSome_iff_exists.1 (hex d (by simp))
  have hcode := CodeText.intro (hexDigit_of_hexDigit? hw) (hexDigit_of_hexDigit? hx)
    (hexDigit_of_hexDigit? hy) (hexDigit_of_hexDigit? hz)
  rwa [hcode.hexValue]

theorem shortEscape?_of_mem {x c : Char} (h : (x, c) ∈ shortEscapes) :
    shortEscape? x = some c ∧ x ≠ 'u' := by
  have key : ∀ e ∈ shortEscapes, shortEscape? e.1 = some e.2 ∧ e.1 ≠ 'u' := by decide
  exact key _ h

theorem mem_of_shortEscape? {x c : Char} (h : shortEscape? x = some c) :
    (x, c) ∈ shortEscapes := by
  unfold shortEscape? at h
  split at h <;> cases h <;> decide

theorem toNat_ofNat_of_valid {n : Nat} (h : n.isValidChar) : (Char.ofNat n).toNat = n := by
  rw [Char.ofNat, dif_pos h]
  rfl

/-- The pieces of a closed body. -/
def Piece.IsWritten : Piece → Prop
  | .plain c => c ≠ '"' ∧ c ≠ '\\'
  | .escape _ => True
  | .code ds => ∀ c ∈ ds, (hexDigit? c).isSome = true
  | .dangling => False

namespace Literal

/-! ### One piece at a time -/

/-- The report on a piece that begins at `p`: a control character that is not escaped. -/
def controlReport? (p : Position) : Piece → Option Diagnostic
  | .plain c => if c < ' ' then some (.atPoint .controlCharacter p) else none
  | _ => none

theorem controlReports_onto (p : Position) (found : List Diagnostic) (pieces : List Piece) :
    controlReports p found pieces = found.reverse ++ controlReports p [] pieces := by
  induction pieces generalizing p found with
  | nil => simp [controlReports]
  | cons piece pieces ih =>
    cases piece with
    | plain c =>
      rw [controlReports, controlReports, ih, ih _ (if c < ' ' then _ else _)]
      split <;> simp
    | escape c | code digits | dangling => exact ih _ found

theorem controlReports_cons (p : Position) (piece : Piece) (pieces : List Piece) :
    controlReports p [] (piece :: pieces) =
      (controlReport? p piece).toList ++ controlReports (p.after piece.text) [] pieces := by
  cases piece with
  | plain c =>
    rw [controlReports, controlReports_onto, controlReport?]
    split <;> simp [Piece.text]
  | escape c | code digits | dangling => rfl

theorem readingReports_onto (p : Position) (found : List Diagnostic) (rs : List Reading) :
    readingReports p found rs = found.reverse ++ readingReports p [] rs := by
  induction rs generalizing p found with
  | nil => simp [readingReports]
  | cons r rs ih =>
    cases hf : r.fault with
    | none => simpa only [readingReports, hf] using ih _ found
    | some f =>
      simp only [readingReports, hf]
      rw [ih, ih _ [_]]
      simp

theorem readingReports_cons (p : Position) (r : Reading) (rs : List Reading) :
    readingReports p [] (r :: rs) =
      (r.fault.map (.atPoint · p)).toList ++ readingReports (p.after r.text) [] rs := by
  rw [readingReports, readingReports_onto]
  cases r.fault <;> simp

theorem interpretOnto_onto (done : List Reading) (pieces : List Piece) :
    interpretOnto done pieces = done.reverse ++ interpretOnto [] pieces := by
  obtain ⟨n, hn⟩ : ∃ n, pieces.length = n := ⟨_, rfl⟩
  induction n using Nat.strongRecOn generalizing done pieces with
  | ind n ih =>
    subst hn
    match pieces with
    | [] => simp [interpretOnto]
    | [p] => simp [interpretOnto]
    | p :: q :: pieces =>
      have hlt : pieces.length < (p :: q :: pieces).length := by
        simp only [List.length_cons]
        omega
      have hlt' : (q :: pieces).length < (p :: q :: pieces).length := Nat.lt_succ_self _
      simp only [interpretOnto]
      split
      · rw [ih _ hlt _ _ rfl, ih _ hlt [_] _ rfl]
        simp
      · rw [ih _ hlt' _ _ rfl, ih _ hlt' [_] _ rfl]
        simp

/-! ### What is spelled is read -/

theorem interpretOnto_cons (done : List Reading) {p : Piece} (pieces : List Piece)
    (h : ∀ q, pieces.head? = some q → surrogatePair? p q = none) :
    interpretOnto done (p :: pieces) = interpretOnto (p.reading :: done) pieces := by
  cases pieces with
  | nil => rfl
  | cons q pieces => simp [interpretOnto, h q rfl]

/-- The pieces of one spelled character are read together, understood together and in order. -/
structure Reads (t : List Char) (c : Char) (pieces : List Piece) : Prop where
  readBody : ∀ done rest, readBody done (t ++ rest) = readBody (pieces.reverse ++ done) rest
  interpret : ∀ done more,
    interpretOnto done (pieces ++ more) = interpretOnto (⟨t, [c], none⟩ :: done) more
  control : ∀ p more, controlReports p [] (pieces ++ more) = controlReports (p.after t) [] more

theorem reads_single {t : List Char} {c : Char} {p : Piece}
    (hb : ∀ done rest, Literal.readBody done (t ++ rest) = Literal.readBody (p :: done) rest)
    (hs : ∀ q, surrogatePair? p q = none) (hr : p.reading = ⟨t, [c], none⟩)
    (hc : ∀ q more, controlReports q [] (p :: more) = controlReports (q.after t) [] more) :
    Reads t c [p] where
  readBody done rest := by simpa using hb done rest
  interpret done more := by
    rw [List.singleton_append, interpretOnto_cons done more fun q _ => hs q, hr]
  control q more := by simpa using hc q more

theorem surrogatePair?_eq_none {p : Piece}
    (h : ∀ n, p.codeUnit? = some n → isHighSurrogate n = false) (q : Piece) :
    surrogatePair? p q = none := by
  unfold surrogatePair?
  cases hp : p.codeUnit? with
  | none => rfl
  | some n =>
    cases q.codeUnit? with
    | none => rfl
    | some m => simp [h n hp]

theorem readBody_code {ds : List Char} {n : Nat} (h : CodeText ds n) (done : List Piece)
    (rest : List Char) :
    readBody done ('\\' :: 'u' :: (ds ++ rest)) = readBody (.code ds :: done) rest := by
  rw [readBody]
  simp [h.hexDigits_append]

theorem exists_reads {t : List Char} {c : Char} (h : CharText t c) :
    ∃ pieces, Reads t c pieces := by
  cases h with
  | plain hs hq hb =>
    refine ⟨[.plain c], reads_single ?_ ?_ rfl ?_⟩
    · intro done rest
      rw [List.singleton_append, readBody]
      all_goals simp_all
    · exact surrogatePair?_eq_none (by simp [Piece.codeUnit?])
    · intro q more
      have hlt : ¬ c < ' ' := Char.not_lt.2 hs
      simp [controlReports, hlt]
  | @escape x c h =>
    obtain ⟨hx, hu⟩ := shortEscape?_of_mem h
    refine ⟨[.escape x], reads_single ?_ ?_ ?_ fun q more => rfl⟩
    · intro done rest
      rw [List.cons_append, List.singleton_append, readBody]
      simpa using hu
    · exact surrogatePair?_eq_none (by simp [Piece.codeUnit?])
    · simp [Piece.reading, hx, Piece.text]
  | @code ds c h =>
    have hvalid : c.toNat.isValidChar := c.valid
    have hlow : isHighSurrogate c.toNat = false := by
      simp only [isHighSurrogate, Bool.and_eq_false_iff, decide_eq_false_iff_not]
      rcases hvalid with h | h <;> omega
    refine ⟨[.code ds], reads_single ?_ ?_ ?_ fun q more => rfl⟩
    · intro done rest
      exact readBody_code h done rest
    · refine surrogatePair?_eq_none fun n hn => ?_
      rw [h.codeUnit?] at hn
      cases hn
      exact hlow
    · simp [Piece.reading, h.codeUnit?, scalarValue?, hvalid, Piece.text]
  | @pair ds es m n c hm hn high low hc =>
    have hjoin : surrogatePair? (.code ds) (.code es) = some c := by
      have hh : isHighSurrogate m = true := by
        simp only [isHighSurrogate, Bool.and_eq_true, decide_eq_true_eq]
        omega
      have hl : isLowSurrogate n = true := by
        simp only [isLowSurrogate, Bool.and_eq_true, decide_eq_true_eq]
        omega
      simp only [surrogatePair?, hm.codeUnit?, hn.codeUnit?, Option.bind_eq_bind, Option.bind_some,
        hh, hl, Bool.and_self, if_true, joinSurrogates, ← hc, Char.ofNat_toNat]
    refine ⟨[.code ds, .code es], fun done rest => ?_, fun done more => ?_, fun q more => ?_⟩
    · have hassoc : '\\' :: 'u' :: (ds ++ '\\' :: 'u' :: es) ++ rest =
          '\\' :: 'u' :: (ds ++ '\\' :: 'u' :: (es ++ rest)) := by simp
      rw [hassoc, readBody_code hm, readBody_code hn]
      rfl
    · simp [interpretOnto, hjoin, Piece.text]
    · simp [controlReports, Piece.text, Position.after_append]

/-- The spelling of a string's characters is read up to the quote behind it, and it is understood
without a fault. -/
theorem readBody_of_charsText {t cs : List Char} (h : CharsText t cs) (done : List Piece)
    (rest : List Char) :
    ∃ pieces, readBody done (t ++ '"' :: rest) = (⟨done.reverse ++ pieces, true⟩, rest) ∧
      (∀ found, ∃ rs, interpretOnto found pieces = found.reverse ++ rs ∧
        rs.flatMap Reading.meaning = cs ∧ ∀ r ∈ rs, r.fault = none) ∧
      ∀ p, controlReports p [] pieces = [] := by
  induction h generalizing done with
  | nil =>
    refine ⟨[], by simp [readBody], fun found => ⟨[], by simp [interpretOnto], rfl, by simp⟩, ?_⟩
    intro p
    rfl
  | @cons t ts c cs h hs ih =>
    obtain ⟨ps, hps⟩ := exists_reads h
    obtain ⟨pieces, hread, hinterpret, hcontrol⟩ := ih (ps.reverse ++ done)
    refine ⟨ps ++ pieces, ?_, fun found => ?_, fun p => ?_⟩
    · rw [List.append_assoc, hps.readBody, hread]
      simp
    · obtain ⟨rs, hrs, hmeaning, hfault⟩ := hinterpret (⟨t, [c], none⟩ :: found)
      refine ⟨⟨t, [c], none⟩ :: rs, ?_, by simp [hmeaning], by simpa using hfault⟩
      rw [hps.interpret, hrs]
      simp
    · rw [hps.control, hcontrol]

theorem readingReports_eq_nil_iff (p : Position) (rs : List Reading) :
    readingReports p [] rs = [] ↔ ∀ r ∈ rs, r.fault = none := by
  have key : ∀ p found, readingReports p found rs = [] ↔
      found = [] ∧ ∀ r ∈ rs, r.fault = none := by
    induction rs with
    | nil => simp [readingReports]
    | cons r rs ih =>
      intro p found
      rw [readingReports, ih]
      cases hf : r.fault <;> simp [hf]
  simpa using key p []

theorem read_of_charsText {t cs : List Char} (h : CharsText t cs) (rest : List Char) :
    ∃ l, read (t ++ '"' :: rest) = (l, rest) ∧ l.text = '"' :: (t ++ ['"']) ∧
      l.value = String.ofList cs ∧ ∀ p, l.reports p = [] := by
  obtain ⟨pieces, hread, hinterpret, hcontrol⟩ := readBody_of_charsText h [] rest
  obtain ⟨rs, hrs, hmeaning, hfault⟩ := hinterpret []
  have heq := read_eq (t ++ '"' :: rest)
  have hl : read (t ++ '"' :: rest) = (⟨pieces, true⟩, rest) := by simpa [read] using hread
  have hi : interpret ⟨pieces, true⟩ = rs := by simpa [interpret] using hrs
  rw [hl] at heq
  refine ⟨_, hl, ?_, ?_, fun p => ?_⟩
  · refine List.append_cancel_right (heq.trans ?_)
    simp
  · rw [value, hi, hmeaning]
  · rw [reports, hcontrol, hi, (readingReports_eq_nil_iff _ rs).2 hfault]
    rfl

/-! ### What is read without a report is spelled -/

/-- A backslash is always read with what stands behind it, or as the end of the text. -/
theorem ne_backslash {c : Char} {text : List Char} (hlast : c = '\\' → text = [] → False)
    (hpair : ∀ x rest, c = '\\' → text = x :: rest → False) : c ≠ '\\' := by
  rintro rfl
  cases text with
  | nil => exact hlast rfl rfl
  | cons x rest => exact hpair x rest rfl rfl

theorem isWritten_readBody (done : List Piece) (text : List Char)
    (hd : ∀ p ∈ done, p.IsWritten) (hc : (readBody done text).1.closed = true) :
    ∀ p ∈ (readBody done text).1.pieces, p.IsWritten := by
  fun_induction readBody done text with
  | case1 done => cases hc
  | case2 done rest => simpa using hd
  | case3 done rest digits ih =>
    refine ih (fun p hp => ?_) hc
    rcases List.mem_cons.1 hp with rfl | hp
    · exact isSome_of_mem_hexDigits rest
    · exact hd p hp
  | case4 done c rest hu ih =>
    refine ih (fun p hp => ?_) hc
    rcases List.mem_cons.1 hp with rfl | hp
    · trivial
    · exact hd p hp
  | case5 done => cases hc
  | case6 done c rest hq hu hb hl ih =>
    refine ih (fun p hp => ?_) hc
    rcases List.mem_cons.1 hp with rfl | hp
    · exact ⟨hq, ne_backslash hl hb⟩
    · exact hd p hp

theorem controlReports_eq_nil_iff (p : Position) (pieces : List Piece) :
    controlReports p [] pieces = [] ↔ ∀ c, .plain c ∈ pieces → ' ' ≤ c := by
  have key : ∀ p found, controlReports p found pieces = [] ↔
      found = [] ∧ ∀ c, .plain c ∈ pieces → ' ' ≤ c := by
    induction pieces with
    | nil => simp [controlReports]
    | cons piece pieces ih =>
      intro p found
      cases piece with
      | plain c =>
        rw [controlReports, ih]
        by_cases hc : c < ' '
        · simp [hc, Char.not_le.2 hc]
        · simp [hc, Char.not_lt.1 hc]
      | escape c | code ds | dangling => simp [controlReports, ih]
  simpa using key p []

theorem charText_of_reading {p : Piece} (hw : p.IsWritten) (hc : ∀ c, p = .plain c → ' ' ≤ c)
    (hf : p.reading.fault = none) : ∃ c, p.reading.meaning = [c] ∧ CharText p.text c := by
  cases p with
  | plain c => exact ⟨c, rfl, .plain (hc c rfl) hw.1 hw.2⟩
  | escape x =>
    simp only [Piece.reading] at hf ⊢
    split at hf
    · rename_i c hx
      exact ⟨c, rfl, .escape (mem_of_shortEscape? hx)⟩
    · cases hf
  | code ds =>
    simp only [Piece.reading] at hf ⊢
    split at hf
    · rename_i c hx
      obtain ⟨n, hn, hv⟩ := Option.bind_eq_some_iff.1 hx
      simp only [scalarValue?, Option.ite_none_right_eq_some, Option.some.injEq] at hv
      obtain ⟨hv, rfl⟩ := hv
      have hcode := codeText_of_codeUnit? hw hn
      refine ⟨Char.ofNat n, rfl, .code ?_⟩
      rwa [toNat_ofNat_of_valid hv]
    · cases hf
  | dangling => cases hw

theorem surrogatePair?_eq_some_iff {p q : Piece} {c : Char} :
    surrogatePair? p q = some c ↔ ∃ m n, p.codeUnit? = some m ∧ q.codeUnit? = some n ∧
      (0xd800 ≤ m ∧ m < 0xdc00) ∧ (0xdc00 ≤ n ∧ n < 0xe000) ∧
      c = Char.ofNat (0x10000 + (m - 0xd800) * 0x400 + (n - 0xdc00)) := by
  simp only [surrogatePair?, Option.bind_eq_bind, Option.bind_eq_some_iff,
    Option.ite_none_right_eq_some, Option.some.injEq, Bool.and_eq_true, isHighSurrogate,
    isLowSurrogate, decide_eq_true_eq, joinSurrogates]
  constructor
  · rintro ⟨m, hm, n, hn, ⟨hhigh, hlow⟩, rfl⟩
    have high : 0xd800 ≤ m ∧ m < 0xdc00 := ⟨hhigh.1, Nat.lt_succ_of_le hhigh.2⟩
    have low : 0xdc00 ≤ n ∧ n < 0xe000 := ⟨hlow.1, Nat.lt_succ_of_le hlow.2⟩
    exact ⟨m, n, hm, hn, high, low, rfl⟩
  · rintro ⟨m, n, hm, hn, hhigh, hlow, hc⟩
    have high : 0xd800 ≤ m ∧ m ≤ 0xdbff := ⟨hhigh.1, Nat.le_of_lt_succ hhigh.2⟩
    have low : 0xdc00 ≤ n ∧ n ≤ 0xdfff := ⟨hlow.1, Nat.le_of_lt_succ hlow.2⟩
    exact ⟨m, hm, n, hn, ⟨high, low⟩, hc.symm⟩

theorem charText_of_surrogatePair? {p q : Piece} {c : Char} (hp : p.IsWritten) (hq : q.IsWritten)
    (h : surrogatePair? p q = some c) : CharText (p.text ++ q.text) c := by
  obtain ⟨m, n, hm, hn, hhigh, hlow, hc⟩ := surrogatePair?_eq_some_iff.1 h
  cases p with
  | plain _ | escape _ | dangling => cases hm
  | code ds =>
    cases q with
    | plain _ | escape _ | dangling => cases hn
    | code es =>
      have hvalid : (0x10000 + (m - 0xd800) * 0x400 + (n - 0xdc00)).isValidChar := by
        right
        omega
      have hnum := hc ▸ toNat_ofNat_of_valid hvalid
      exact .pair (codeText_of_codeUnit? hp hm) (codeText_of_codeUnit? hq hn) hhigh hlow hnum

/-- A body that is understood without a fault spells what it is understood as. -/
theorem charsText_of_interpretOnto (done : List Reading) (pieces : List Piece)
    (hw : ∀ p ∈ pieces, p.IsWritten) (hc : ∀ c, .plain c ∈ pieces → ' ' ≤ c)
    (hf : ∀ r ∈ interpretOnto done pieces, r.fault = none) :
    ∃ rs, interpretOnto done pieces = done.reverse ++ rs ∧
      CharsText (pieces.flatMap Piece.text) (rs.flatMap Reading.meaning) := by
  fun_induction interpretOnto done pieces with
  | case1 done => exact ⟨[], by simp, .nil⟩
  | case2 done p =>
    obtain ⟨c, hm, ht⟩ := charText_of_reading (hw p (by simp)) (fun c hp => hc c (by simp [hp]))
      (hf p.reading (by simp))
    exact ⟨[p.reading], by simp, by simpa [hm] using CharsText.cons ht .nil⟩
  | case3 done p q pieces c hs ih =>
    obtain ⟨rs, hrs, ht⟩ :=
      ih (fun p hp => hw p (by simp [hp])) (fun c hp => hc c (by simp [hp])) hf
    have hpair := charText_of_surrogatePair? (hw p (by simp)) (hw q (by simp)) hs
    refine ⟨⟨p.text ++ q.text, [c], none⟩ :: rs, by simp [hrs], ?_⟩
    simpa using CharsText.cons hpair ht
  | case4 done p q pieces hs ih =>
    obtain ⟨rs, hrs, ht⟩ := ih (fun p hp => hw p (by simp_all)) (fun c hp => hc c (by simp_all)) hf
    have hp : p.reading ∈ interpretOnto (p.reading :: done) (q :: pieces) := by simp [hrs]
    obtain ⟨c, hm, hpt⟩ := charText_of_reading (hw p (by simp)) (fun c hp => hc c (by simp [hp]))
      (hf _ hp)
    refine ⟨p.reading :: rs, by simp [hrs], ?_⟩
    simpa [hm] using CharsText.cons hpt ht

/-- What is read without a report is the spelling of the string that it is read as. -/
theorem stringText_of_reports {p : Position} (text : List Char)
    (h : (read text).1.reports p = []) :
    StringText (read text).1.text (read text).1.value := by
  rw [reports] at h
  obtain ⟨h, hr⟩ := List.append_eq_nil_iff.1 h
  obtain ⟨hc, hclosed⟩ := List.append_eq_nil_iff.1 h
  have hclosed : (read text).1.closed = true := by
    by_contra hn
    simp [hn] at hclosed
  have hw := isWritten_readBody [] text (by simp) hclosed
  obtain ⟨rs, hrs, ht⟩ := charsText_of_interpretOnto [] (read text).1.pieces hw
    ((controlReports_eq_nil_iff _ _).1 hc) ((readingReports_eq_nil_iff _ _).1 hr)
  have hs := StringText.intro ht
  rw [value, interpret, hrs]
  simpa [Literal.text, hclosed] using hs

end Literal

end Resilient
