import Mathlib.Data.List.Basic
import Resilient.Proofs.Lexeme.Strings

/-!
# Bad escapes

The body of a literal is written in parts: plain characters, and backslashes each with the character
behind it. What a part contributes to the string, and whether it is reported, is said of the part
where it stands, with the parts on both sides of it (`Spot.meaning`, `Spot.fault?`). A literal,
closed or not, is fetched as its spots say, from left to right (`escapes_reported_in_place`).
-/

namespace Resilient

namespace Literal

/-- A part of the body of a literal as it is written. -/
inductive Part where
  | plain (c : Char)
  /-- A backslash and the character behind it. -/
  | pair (c : Char)
  deriving DecidableEq

/-- A part as it is written. -/
def Part.text : Part → List Char
  | plain c => [c]
  | pair c => ['\\', c]

/-- The parts of the body that begins a text, and the rest: nothing, a backslash that ends the text,
or the closing quote with what follows it. -/
def split : List Char → List Part × List Char
  | [] => ([], [])
  | '"' :: text => ([], '"' :: text)
  | ['\\'] => ([], ['\\'])
  | '\\' :: c :: text => (.pair c :: (split text).1, (split text).2)
  | c :: text => (.plain c :: (split text).1, (split text).2)

/-- The number of four hexadecimal digits. -/
def number? : List Char → Option Nat
  | [a, b, c, d] => do
    let w ← hexDigit? a
    let x ← hexDigit? b
    let y ← hexDigit? c
    let z ← hexDigit? d
    some (w * 0x1000 + x * 0x100 + y * 0x10 + z)
  | _ => none

/-- The number that begins the parts behind a `\u`. -/
def numberBehind? : List Part → Option Nat
  | .plain a :: .plain b :: .plain c :: .plain d :: _ => number? [a, b, c, d]
  | _ => none

/-- The number of a `\u` that begins the parts. -/
def codeAhead? : List Part → Option Nat
  | .pair c :: behind => if c = 'u' then numberBehind? behind else none
  | _ => none

/-- The digits, four at most, if the parts, last first, end with a `\u` and its digits. -/
def digitsBefore? : List Part → Option (List Char)
  | [] => none
  | .pair c :: _ => if c = 'u' then some [] else none
  | .plain c :: before => do
    let digits ← digitsBefore? before
    if digits.length < 4 ∧ (hexDigit? c).isSome then some (digits ++ [c]) else none

/-- What a `\u` between parts contributes, if it can be decoded: the character of its number, for
the first half of a pair of surrogates the character of both, and for the second half nothing. -/
def decode? (before behind : List Part) : Option (List Char) := do
  let m ← numberBehind? behind
  if 0xd800 ≤ m ∧ m < 0xdc00 then
    let n ← codeAhead? (behind.drop 4)
    if 0xdc00 ≤ n ∧ n < 0xe000 then
      some [Char.ofNat (0x10000 + (m - 0xd800) * 0x400 + (n - 0xdc00))]
    else none
  else if 0xdc00 ≤ m ∧ m < 0xe000 then
    let first ← (digitsBefore? before).bind number?
    if 0xd800 ≤ first ∧ first < 0xdc00 then some [] else none
  else some [Char.ofNat m]

/-- A part of a body where it stands. -/
structure Spot where
  place : Position
  /-- The parts before it, last first. -/
  before : List Part
  part : Part
  behind : List Part

/-- The spots of parts that begin at a place, behind other parts, last first. -/
def spots (p : Position) (before : List Part) : List Part → List Spot
  | [] => []
  | part :: behind => ⟨p, before, part, behind⟩ :: spots (p.after part.text) (part :: before) behind

namespace Spot

/-- What the part contributes to the string. A plain character that is a digit of a `\u` contributes
nothing by itself. -/
def meaning (s : Spot) : List Char :=
  match s.part with
  | .plain c => if (digitsBefore? (.plain c :: s.before)).isSome then [] else [c]
  | .pair 'u' => (decode? s.before s.behind).getD ['\ufffd']
  | .pair c => [(shortEscapes.lookup c).getD c]

/-- What is wrong with a part at its place, if something is. -/
def fault? (s : Spot) : Option Fault :=
  match s.part with
  | .plain _ => none
  | .pair 'u' => if (decode? s.before s.behind).isSome then none else some .invalidUnicodeEscape
  | .pair c => if (shortEscapes.lookup c).isSome then none else some .invalidEscapeSequence

/-- The report on a bad escape, at its backslash. -/
def escapeReport? (s : Spot) : Option Diagnostic := s.fault?.map (.atPoint · s.place)

/-- The report on a control character that is not escaped. -/
def controlReport? (s : Spot) : Option Diagnostic :=
  match s.part with
  | .plain c => if c < ' ' then some (.atPoint .controlCharacter s.place) else none
  | .pair _ => none

end Spot

theorem split_eq (text : List Char) :
    (split text).1.flatMap Part.text ++ (split text).2 = text := by
  fun_induction split text with
  | case1 | case2 | case3 => rfl
  | case4 c text ih => simp [Part.text, ih]
  | case5 c text _ _ _ ih => simp [Part.text, ih]

/-! ### Pieces in parts -/

theorem hexDigits_ends {text more : List Char} {c : Char} (h : (hexDigits text).length < 4)
    (hrest : text.drop (hexDigits text).length = c :: more) : hexDigit? c = none := by
  have htext := hexDigits_append text
  rw [hrest] at htext
  generalize hds : hexDigits text = ds at h htext hrest
  subst htext
  by_contra hc
  have hhex : (hexDigit? c).isSome := Option.isSome_iff_ne_none.2 hc
  have hall : ∀ x ∈ ds, (hexDigit? x).isSome := hds ▸ isSome_of_mem_hexDigits _
  have htake : (ds ++ c :: more).take 4 = ds ++ c :: more.take (3 - ds.length) := by
    rw [List.take_append, List.take_of_length_le (by omega)]
    obtain ⟨n, hn⟩ : ∃ n, 4 - ds.length = n + 1 := ⟨3 - ds.length, by omega⟩
    rw [hn, List.take_succ_cons, show 3 - ds.length = n by omega]
  have hlen := congrArg List.length hds
  rw [hexDigits, htake, List.takeWhile_append_of_pos hall] at hlen
  simp [hhex] at hlen

/-- The parts that a piece is written with. A backslash that ends the text is no part. -/
def parts : Piece → List Part
  | .plain c => [.plain c]
  | .escape c => [.pair c]
  | .code digits => .pair 'u' :: digits.map .plain
  | .dangling => []

/-- Pieces as they are read: a code takes all digits that it can, and a backslash alone is last. -/
inductive Munched : List Piece → Prop where
  | nil : Munched []
  | dangling : Munched [.dangling]
  | plain (c : Char) {pieces : List Piece} (h : Munched pieces) : Munched (.plain c :: pieces)
  | escape {c : Char} {pieces : List Piece} (hu : c ≠ 'u') (h : Munched pieces) :
      Munched (.escape c :: pieces)
  | code {digits : List Char} {pieces : List Piece} (hex : ∀ c ∈ digits, (hexDigit? c).isSome)
      (hle : digits.length ≤ 4)
      (ends : digits.length < 4 → ∀ c, pieces.head? = some (.plain c) → hexDigit? c = none)
      (h : Munched pieces) : Munched (.code digits :: pieces)

theorem Munched.tail {p : Piece} {pieces : List Piece} (h : Munched (p :: pieces)) :
    Munched pieces := by
  cases h with
  | dangling => exact .nil
  | plain c h | escape hu h | code hex hle ends h => exact h

theorem Munched.hex {digits : List Char} {pieces : List Piece}
    (h : Munched (.code digits :: pieces)) : ∀ c ∈ digits, (hexDigit? c).isSome := by
  cases h with
  | code hex hle ends h => exact hex

theorem Munched.length_le {digits : List Char} {pieces : List Piece}
    (h : Munched (.code digits :: pieces)) : digits.length ≤ 4 := by
  cases h with
  | code hex hle ends h => exact hle

theorem split_cons {c : Char} (hq : c ≠ '"') (hb : c ≠ '\\') (text : List Char) :
    split (c :: text) = (.plain c :: (split text).1, (split text).2) := by
  rw [split]
  · exact hq
  · simp [hb]
  · simp [hb]

theorem ne_of_hex {c : Char} (h : (hexDigit? c).isSome) : c ≠ '"' ∧ c ≠ '\\' := by
  constructor
  · rintro rfl
    exact absurd h (by decide)
  · rintro rfl
    exact absurd h (by decide)

theorem split_digits {digits : List Char} (hex : ∀ c ∈ digits, (hexDigit? c).isSome)
    (text : List Char) :
    split (digits ++ text) = (digits.map .plain ++ (split text).1, (split text).2) := by
  induction digits with
  | nil => rfl
  | cons c digits ih =>
    obtain ⟨hq, hb⟩ := ne_of_hex (hex c List.mem_cons_self)
    rw [List.cons_append, split_cons hq hb, ih fun x hx => hex x (List.mem_cons_of_mem _ hx)]
    rfl

/-- What is read of a body are the parts of the body, taken together as far as a code reaches. -/
theorem readBody_eq_split (done : List Piece) (text : List Char) :
    ∃ pieces, Munched pieces ∧ (split text).1 = pieces.flatMap parts ∧
      (∀ c, pieces.head? = some (.plain c) → text.head? = some c) ∧
      readBody done text =
        (⟨done.reverse ++ pieces, (split text).2.head? = some '"'⟩, (split text).2.drop 1) := by
  fun_induction readBody done text with
  | case1 done => exact ⟨[], .nil, rfl, by simp, by simp [split]⟩
  | case2 done rest => exact ⟨[], .nil, rfl, by simp, by simp [split]⟩
  | case3 done rest digits ih =>
    obtain ⟨pieces, hm, hparts, hhead, hread⟩ := ih
    have hrest : digits ++ rest.drop digits.length = rest := hexDigits_append rest
    have hsplit : split rest = (digits.map .plain ++ (split (rest.drop digits.length)).1,
        (split (rest.drop digits.length)).2) := by
      rw [← split_digits (isSome_of_mem_hexDigits rest), hrest]
    have hcode : split ('\\' :: 'u' :: rest) = (.pair 'u' :: (split rest).1, (split rest).2) := by
      rw [split]
    refine ⟨.code digits :: pieces,
      .code (isSome_of_mem_hexDigits rest) (length_hexDigits_le rest) ?_ hm, ?_, by simp, ?_⟩
    · intro hlt c hc
      obtain ⟨tail, htail⟩ := List.head?_eq_some_iff.1 (hhead c hc)
      exact hexDigits_ends hlt htail
    · rw [hcode, hsplit, hparts]
      rfl
    · rw [hread, hcode, hsplit]
      simp
  | case4 done c rest hu ih =>
    obtain ⟨pieces, hm, hparts, -, hread⟩ := ih
    have hpair : split ('\\' :: c :: rest) = (.pair c :: (split rest).1, (split rest).2) := by
      rw [split]
    refine ⟨.escape c :: pieces, .escape (by simpa using hu) hm, ?_, by simp, ?_⟩
    · rw [hpair, hparts]
      rfl
    · rw [hread, hpair]
      simp
  | case5 done => exact ⟨[.dangling], .dangling, rfl, by simp, by simp [split]⟩
  | case6 done c rest hq hu hb hl ih =>
    obtain ⟨pieces, hm, hparts, -, hread⟩ := ih
    have hb := ne_backslash hl hb
    refine ⟨.plain c :: pieces, .plain c hm, ?_, by simp, ?_⟩
    · rw [split_cons hq hb, hparts]
      rfl
    · rw [hread, split_cons hq hb]
      simp

/-! ### The numbers of codes -/

theorem number?_of_codeText {digits : List Char} {n : Nat} (h : CodeText digits n) :
    number? digits = some n := by
  cases h with
  | intro ha hb hc hd =>
    simp [number?, hexDigit?_of_hexDigit ha, hexDigit?_of_hexDigit hb, hexDigit?_of_hexDigit hc,
      hexDigit?_of_hexDigit hd]

theorem hex_of_number? {digits : List Char} {n : Nat} (h : number? digits = some n) :
    digits.length = 4 ∧ ∀ c ∈ digits, (hexDigit? c).isSome := by
  unfold number? at h
  split at h
  · rename_i a b c d
    simp only [Option.bind_eq_bind, Option.bind_eq_some_iff] at h
    obtain ⟨w, hw, x, hx, y, hy, z, hz, -⟩ := h
    simp [hw, hx, hy, hz]
  · cases h

/-- Four digits have a number, fewer have none. -/
theorem number?_of_hex {digits : List Char} (hex : ∀ c ∈ digits, (hexDigit? c).isSome) :
    number? digits = (Piece.code digits).codeUnit? := by
  by_cases hl : digits.length = 4
  · have hu : (Piece.code digits).codeUnit? = some (hexValue digits) := by
      simp [Piece.codeUnit?, hl]
    rw [hu, number?_of_codeText (codeText_of_codeUnit? hex hu)]
  · have hnone : number? digits = none :=
      Option.eq_none_iff_forall_ne_some.2 fun n hn => hl (hex_of_number? hn).1
    simp [hnone, Piece.codeUnit?, hl]

theorem exists_hex_of_numberBehind? {behind : List Part} {n : Nat}
    (h : numberBehind? behind = some n) {i : Nat} (hi : i < 4) :
    ∃ c, behind[i]? = some (.plain c) ∧ (hexDigit? c).isSome := by
  unfold numberBehind? at h
  split at h
  · rename_i a b c d more
    have hex := (hex_of_number? h).2
    have hlt : i < [a, b, c, d].length := hi
    refine ⟨[a, b, c, d][i], ?_, hex _ (List.getElem_mem hlt)⟩
    change ([a, b, c, d].map Part.plain ++ more)[i]? = _
    rw [List.getElem?_append_left (by simpa using hlt), List.getElem?_map,
      List.getElem?_eq_getElem hlt]
    rfl
  · cases h

theorem head?_of_head?_parts {pieces : List Piece} (h : Munched pieces) {c : Char}
    (hc : (pieces.flatMap parts).head? = some (.plain c)) : pieces.head? = some (.plain c) := by
  cases h with
  | nil | dangling => cases hc
  | plain x h =>
    cases hc
    rfl
  | escape hu h | code hex hle ends h => cases hc

theorem numberBehind?_code {digits : List Char} {pieces : List Piece}
    (h : Munched (.code digits :: pieces)) :
    numberBehind? (digits.map .plain ++ pieces.flatMap parts) = (Piece.code digits).codeUnit? := by
  cases h with
  | code hex hle ends h =>
    rcases Nat.lt_or_ge digits.length 4 with hlt | hge
    · have hnone : (Piece.code digits).codeUnit? = none := by
        simp [Piece.codeUnit?, Nat.ne_of_lt hlt]
      rw [hnone, Option.eq_none_iff_forall_ne_some]
      intro n hn
      obtain ⟨c, hc, hhex⟩ := exists_hex_of_numberBehind? hn hlt
      rw [List.getElem?_append_right (by simp), List.length_map, Nat.sub_self,
        ← List.head?_eq_getElem?] at hc
      rw [ends hlt c (head?_of_head?_parts h hc)] at hhex
      cases hhex
    · obtain ⟨a, b, c, d, rfl⟩ := exists_four (Nat.le_antisymm hle hge)
      exact number?_of_hex hex

theorem codeAhead?_parts {pieces : List Piece} (h : Munched pieces) :
    codeAhead? (pieces.flatMap parts) = pieces.head?.bind Piece.codeUnit? := by
  cases h with
  | nil | dangling | plain c h => rfl
  | escape hu h => simp [codeAhead?, parts, hu, Piece.codeUnit?]
  | code hex hle ends h =>
    rw [List.head?_cons, Option.bind_some, ← numberBehind?_code (.code hex hle ends h)]
    rfl

theorem digitsBefore?_start (before : List Part) :
    digitsBefore? (.pair 'u' :: before) = some [] := rfl

theorem digitsBefore?_plain {found : List Char} {before : List Part} {c : Char}
    (hb : digitsBefore? before = some found) (hlt : found.length < 4)
    (hc : (hexDigit? c).isSome) : digitsBefore? (.plain c :: before) = some (found ++ [c]) := by
  simp [digitsBefore?, hb, hlt, hc]

theorem digitsBefore?_digits {digits found : List Char} {before : List Part}
    (hex : ∀ c ∈ digits, (hexDigit? c).isSome) (hb : digitsBefore? before = some found)
    (hle : found.length + digits.length ≤ 4) :
    digitsBefore? ((digits.map .plain).reverse ++ before) = some (found ++ digits) := by
  induction digits generalizing found before with
  | nil => simpa using hb
  | cons c digits ih =>
    rw [List.length_cons] at hle
    have hc := digitsBefore?_plain hb (by omega) (hex c List.mem_cons_self)
    have hlen : (found ++ [c]).length + digits.length ≤ 4 := by
      rw [List.length_append, List.length_singleton]
      omega
    simpa using ih (fun x hx => hex x (List.mem_cons_of_mem _ hx)) hc hlen

theorem digitsBefore?_code {digits : List Char} (hex : ∀ c ∈ digits, (hexDigit? c).isSome)
    (hle : digits.length ≤ 4) (before : List Part) :
    digitsBefore? ((digits.map .plain).reverse ++ .pair 'u' :: before) = some digits :=
  digitsBefore?_digits hex (digitsBefore?_start before) (by simpa using hle)

theorem hex_of_digitsBefore? {before : List Part} {digits : List Char}
    (h : digitsBefore? before = some digits) : ∀ c ∈ digits, (hexDigit? c).isSome := by
  induction before generalizing digits with
  | nil => cases h
  | cons part before ih =>
    cases part with
    | pair c =>
      simp only [digitsBefore?, Option.ite_none_right_eq_some, Option.some.injEq] at h
      simp [← h.2]
    | plain c =>
      simp only [digitsBefore?, Option.bind_eq_bind, Option.bind_eq_some_iff,
        Option.ite_none_right_eq_some, Option.some.injEq] at h
      obtain ⟨found, hfound, ⟨-, hc⟩, rfl⟩ := h
      intro x hx
      rcases List.mem_append.1 hx with hx | hx
      · exact ih hfound x hx
      · rwa [List.mem_singleton.1 hx]

/-! ### What a code contributes -/

/-- Between the parts before it and the pieces behind them nothing is open: no digit of a `\u` is
left, and no second half of a pair. -/
structure Free (before : List Part) (pieces : List Piece) : Prop where
  digit : ∀ c, pieces.head? = some (.plain c) → digitsBefore? (.plain c :: before) = none
  half : ∀ found q, digitsBefore? before = some found → pieces.head? = some q →
    surrogatePair? (.code found) q = none

theorem codeUnit?_lt {digits : List Char} {n : Nat} (hex : ∀ c ∈ digits, (hexDigit? c).isSome)
    (h : (Piece.code digits).codeUnit? = some n) : n < 0x10000 := by
  cases codeText_of_codeUnit? hex h with
  | intro ha hb hc hd =>
    have := ha.lt
    have := hb.lt
    have := hc.lt
    have := hd.lt
    omega

theorem isValidChar_iff {n : Nat} (h : n < 0x10000) :
    n.isValidChar ↔ ¬ (0xd800 ≤ n ∧ n < 0xdc00) ∧ ¬ (0xdc00 ≤ n ∧ n < 0xe000) := by
  unfold Nat.isValidChar
  omega

theorem drop_four_code {digits : List Char} {n : Nat} (h : (Piece.code digits).codeUnit? = some n)
    (rest : List Part) : (digits.map Part.plain ++ rest).drop 4 = rest := by
  have hl : digits.length = 4 := by
    simp only [Piece.codeUnit?, Option.ite_none_right_eq_some] at h
    exact h.1
  rw [List.drop_left']
  simp [hl]

theorem exists_code_of_surrogatePair? {p q : Piece} {c : Char} (h : surrogatePair? p q = some c) :
    ∃ digits, q = .code digits := by
  obtain ⟨m, n, -, hn, -⟩ := surrogatePair?_eq_some_iff.1 h
  cases q with
  | plain _ | escape _ | dangling => cases hn
  | code digits => exact ⟨digits, rfl⟩

theorem surrogatePair?_second {p q : Piece} {c : Char} (h : surrogatePair? p q = some c)
    (x : Piece) : surrogatePair? q x = none := by
  obtain ⟨m, n, -, hn, -, low, -⟩ := surrogatePair?_eq_some_iff.1 h
  refine Option.eq_none_iff_forall_ne_some.2 fun d hd => ?_
  obtain ⟨m', n', hm', -, high, -⟩ := surrogatePair?_eq_some_iff.1 hd
  obtain rfl : n = m' := Option.some.inj (hn.symm.trans hm')
  omega

/-- The first code of a pair contributes the character of both. -/
theorem decode?_first {digits : List Char} {q : Piece} {pieces : List Piece} {c : Char}
    (h : Munched (.code digits :: q :: pieces)) (hc : surrogatePair? (.code digits) q = some c)
    (before : List Part) :
    decode? before (digits.map .plain ++ (q :: pieces).flatMap parts) = some [c] := by
  obtain ⟨m, n, hm, hn, high, low, hjoined⟩ := surrogatePair?_eq_some_iff.1 hc
  have hahead : codeAhead? ((q :: pieces).flatMap parts) = some n := by
    rw [codeAhead?_parts h.tail]
    exact hn
  rw [decode?, numberBehind?_code h, hm]
  simp only [Option.bind_eq_bind, Option.bind_some, high, and_self, if_true, drop_four_code hm,
    hahead, low, hjoined]

/-- The second code of a pair contributes nothing. -/
theorem decode?_second {digits found : List Char} {pieces : List Piece} {c : Char}
    {before : List Part} (h : Munched (.code digits :: pieces))
    (hb : digitsBefore? before = some found)
    (hc : surrogatePair? (.code found) (.code digits) = some c) :
    decode? before (digits.map .plain ++ pieces.flatMap parts) = some [] := by
  obtain ⟨m, n, hm, hn, high, low, -⟩ := surrogatePair?_eq_some_iff.1 hc
  have hfirst : number? found = some m := by rw [number?_of_hex (hex_of_digitsBefore? hb), hm]
  have hhigh : ¬ (0xd800 ≤ n ∧ n < 0xdc00) := by omega
  rw [decode?, numberBehind?_code h, hn]
  simp only [Option.bind_eq_bind, Option.bind_some, hhigh, if_false, low, and_self, if_true, hb,
    hfirst, high]

/-- A code that is no half of a pair contributes the character of its number, if there is one. -/
theorem decode?_alone {digits : List Char} {pieces : List Piece} {before : List Part}
    (h : Munched (.code digits :: pieces)) (free : Free before (.code digits :: pieces))
    (hnext : ∀ q, pieces.head? = some q → surrogatePair? (.code digits) q = none) :
    decode? before (digits.map .plain ++ pieces.flatMap parts) =
      ((Piece.code digits).codeUnit?.bind scalarValue?).map fun c => [c] := by
  rw [decode?, numberBehind?_code h]
  cases hm : (Piece.code digits).codeUnit? with
  | none => rfl
  | some m =>
    have hahead := codeAhead?_parts h.tail
    have hvalid := isValidChar_iff (codeUnit?_lt h.hex hm)
    by_cases high : 0xd800 ≤ m ∧ m < 0xdc00
    · have hscalar : scalarValue? m = none := if_neg fun hv => (hvalid.1 hv).1 high
      simp only [Option.bind_eq_bind, Option.bind_some, high, and_self, if_true, hscalar,
        drop_four_code hm, Option.map_none, hahead, Option.bind_eq_none_iff, ite_eq_right_iff,
        reduceCtorEq]
      intro n hn low
      obtain ⟨q, hq, hn⟩ := Option.bind_eq_some_iff.1 hn
      have hpair := surrogatePair?_eq_some_iff.2 ⟨m, n, hm, hn, high, low, rfl⟩
      rw [hnext q hq] at hpair
      cases hpair
    · by_cases low : 0xdc00 ≤ m ∧ m < 0xe000
      · have hscalar : scalarValue? m = none := if_neg fun hv => (hvalid.1 hv).2 low
        simp only [Option.bind_eq_bind, Option.bind_some, high, if_false, low, and_self, if_true,
          hscalar, Option.map_none, Option.bind_eq_none_iff, ite_eq_right_iff, reduceCtorEq]
        intro first hfirst hhigh
        obtain ⟨found, hfound, hnumber⟩ := Option.bind_eq_some_iff.1 hfirst
        rw [number?_of_hex (hex_of_digitsBefore? hfound)] at hnumber
        have hpair := surrogatePair?_eq_some_iff.2 ⟨first, m, hnumber, hm, hhigh, low, rfl⟩
        rw [free.half found _ hfound rfl] at hpair
        cases hpair
      · have hscalar : scalarValue? m = some (Char.ofNat m) := if_pos (hvalid.2 ⟨high, low⟩)
        simp only [Option.bind_eq_bind, Option.bind_some, high, if_false, low, hscalar,
          Option.map_some]

theorem Free.of_none {before : List Part} (h : digitsBefore? before = none)
    (pieces : List Piece) : Free before pieces where
  digit c _ := by simp [digitsBefore?, h]
  half found q hfound _ := by simp [h] at hfound

/-- Behind a code nothing is open, unless it is the first half of a pair. -/
theorem Free.code {digits : List Char} {pieces : List Piece} (h : Munched (.code digits :: pieces))
    (before : List Part)
    (hnext : ∀ q, pieces.head? = some q → surrogatePair? (.code digits) q = none) :
    Free ((digits.map .plain).reverse ++ .pair 'u' :: before) pieces := by
  cases h with
  | code hex hle ends h =>
    have hdigits := digitsBefore?_code hex hle before
    constructor
    · intro c hc
      have hnot : ¬ (digits.length < 4 ∧ (hexDigit? c).isSome) := by
        rintro ⟨hlt, hhex⟩
        rw [ends hlt c hc] at hhex
        cases hhex
      simp [digitsBefore?, hdigits, hnot]
    · intro found q hfound hq
      rw [hdigits] at hfound
      cases hfound
      exact hnext q hq

/-! ### A body as its spots say -/

theorem flatMap_spots_digits {β : Type} {f : Spot → List β} {digits found : List Char}
    {before behind : List Part} (hex : ∀ c ∈ digits, (hexDigit? c).isSome)
    (hb : digitsBefore? before = some found) (hle : found.length + digits.length ≤ 4)
    (hf : ∀ s : Spot, ∀ c ∈ digits, s.part = .plain c →
      (digitsBefore? (.plain c :: s.before)).isSome → f s = []) (p : Position) :
    (spots p before (digits.map .plain ++ behind)).flatMap f =
      (spots (p.after digits) ((digits.map .plain).reverse ++ before) behind).flatMap f := by
  induction digits generalizing found before p with
  | nil => rfl
  | cons c digits ih =>
    rw [List.length_cons] at hle
    have hc := digitsBefore?_plain hb (by omega) (hex c List.mem_cons_self)
    have hlen : (found ++ [c]).length + digits.length ≤ 4 := by
      rw [List.length_append, List.length_singleton]
      omega
    have hrest := ih (fun x hx => hex x (List.mem_cons_of_mem _ hx)) hc hlen
      (fun s x hx => hf s x (List.mem_cons_of_mem _ hx)) (p.next c)
    have hhead := hf ⟨p, before, .plain c, digits.map .plain ++ behind⟩ c List.mem_cons_self rfl
      (Option.isSome_iff_exists.2 ⟨_, hc⟩)
    simp only [List.map_cons, List.cons_append, spots, List.flatMap_cons, hhead, List.nil_append,
      List.reverse_cons, List.append_assoc]
    exact hrest

/-- What stretches of a body mean, and the reports on them, are as the spots of its parts say. -/
structure Agrees (p : Position) (before : List Part) (rs : List Reading) (ps : List Part) :
    Prop where
  meaning : rs.flatMap Reading.meaning = (spots p before ps).flatMap Spot.meaning
  reports : readingReports p [] rs =
    (spots p before ps).flatMap fun s => s.escapeReport?.toList

variable {p : Position} {before ps : List Part} {r : Reading} {rs : List Reading}

theorem Agrees.cons {x : Part} (text : r.text = x.text)
    (meaning : r.meaning = Spot.meaning ⟨p, before, x, ps⟩)
    (fault : r.fault = Spot.fault? ⟨p, before, x, ps⟩)
    (rest : Agrees (p.after x.text) (x :: before) rs ps) : Agrees p before (r :: rs) (x :: ps) where
  meaning := by rw [List.flatMap_cons, meaning, rest.meaning, spots, List.flatMap_cons]
  reports := by
    rw [readingReports_cons, fault, text, rest.reports, spots, List.flatMap_cons]
    rfl

theorem Agrees.code {digits : List Char} {d : Option (List Char)}
    (hex : ∀ c ∈ digits, (hexDigit? c).isSome) (hle : digits.length ≤ 4)
    (hd : decode? before (digits.map .plain ++ ps) = d) (text : r.text = '\\' :: 'u' :: digits)
    (meaning : r.meaning = d.getD ['\ufffd'])
    (fault : r.fault = if d.isSome then none else some .invalidUnicodeEscape)
    (rest : Agrees (p.after r.text) ((digits.map .plain).reverse ++ .pair 'u' :: before) rs ps) :
    Agrees p before (r :: rs) (.pair 'u' :: (digits.map .plain ++ ps)) := by
  have hplace : ((p.next '\\').next 'u').after digits = p.after r.text := by rw [text]; rfl
  have hstart := digitsBefore?_start before
  have hlen : ([] : List Char).length + digits.length ≤ 4 := by simpa using hle
  constructor
  · rw [List.flatMap_cons, meaning, rest.meaning, spots, List.flatMap_cons]
    refine congrArg₂ (· ++ ·) (by simp [Spot.meaning, hd]) ?_
    rw [← hplace]
    refine (flatMap_spots_digits hex hstart hlen ?_ _).symm
    rintro ⟨p, before, part, behind⟩ c - rfl hsome
    simp [Spot.meaning, hsome]
  · rw [readingReports_cons, fault, rest.reports, spots, List.flatMap_cons]
    refine congrArg₂ (· ++ ·) (by simp [Spot.escapeReport?, Spot.fault?, hd]) ?_
    rw [← hplace]
    refine (flatMap_spots_digits hex hstart hlen ?_ _).symm
    rintro ⟨p, before, part, behind⟩ c - rfl -
    rfl

/-- Two stretches of which the second is silent are as good as one. -/
theorem Agrees.merge {s t m : List Char}
    (h : Agrees p before (⟨s, m, none⟩ :: ⟨t, [], none⟩ :: rs) ps) :
    Agrees p before (⟨s ++ t, m, none⟩ :: rs) ps where
  meaning := by simpa using h.meaning
  reports := by
    have hreports := h.reports
    rw [readingReports_cons, readingReports_cons] at hreports
    rw [readingReports_cons, Position.after_append]
    exact hreports

theorem interpretOnto_cons_alone {q : Piece} {pieces : List Piece}
    (h : ∀ x, pieces.head? = some x → surrogatePair? q x = none) :
    interpretOnto [] (q :: pieces) = q.reading :: interpretOnto [] pieces := by
  rw [interpretOnto_cons [] pieces h, interpretOnto_onto]
  rfl

theorem interpretOnto_cons_pair {q x : Piece} {c : Char} (h : surrogatePair? q x = some c)
    (pieces : List Piece) :
    interpretOnto [] (q :: x :: pieces) =
      ⟨q.text ++ x.text, [c], none⟩ :: interpretOnto [] pieces := by
  simp only [interpretOnto, h]
  rw [interpretOnto_onto]
  rfl

theorem lookup_shortEscapes (c : Char) : shortEscapes.lookup c = shortEscape? c := by
  have key : ∀ e ∈ shortEscapes, shortEscapes.lookup e.1 = some e.2 := by decide
  cases h : shortEscape? c with
  | some d => exact key _ (mem_of_shortEscape? h)
  | none =>
    refine Option.eq_none_iff_forall_ne_some.2 fun d hd => ?_
    obtain ⟨l, m, hl, -⟩ := List.lookup_eq_some_iff.1 hd
    have hmem : (c, d) ∈ shortEscapes := by simp [hl]
    rw [(shortEscape?_of_mem hmem).1] at h
    cases h

theorem reading_escape {c : Char} (hu : c ≠ 'u') (p : Position) (before behind : List Part) :
    (Piece.escape c).reading.text = ['\\', c] ∧
      (Piece.escape c).reading.meaning = Spot.meaning ⟨p, before, .pair c, behind⟩ ∧
      (Piece.escape c).reading.fault = Spot.fault? ⟨p, before, .pair c, behind⟩ := by
  simp only [Spot.meaning, Spot.fault?, lookup_shortEscapes, Piece.reading]
  cases shortEscape? c with
  | none => exact ⟨rfl, rfl, rfl⟩
  | some d => exact ⟨rfl, rfl, rfl⟩

theorem reading_code (digits : List Char) :
    (Piece.code digits).reading.text = '\\' :: 'u' :: digits ∧
      (Piece.code digits).reading.meaning =
        (((Piece.code digits).codeUnit?.bind scalarValue?).map fun c => [c]).getD ['\ufffd'] ∧
      (Piece.code digits).reading.fault =
        if (((Piece.code digits).codeUnit?.bind scalarValue?).map fun c => [c]).isSome then none
        else some .invalidUnicodeEscape := by
  unfold Piece.reading
  cases (Piece.code digits).codeUnit?.bind scalarValue? with
  | none => exact ⟨rfl, rfl, rfl⟩
  | some c => exact ⟨rfl, rfl, rfl⟩

/-- The stretches that pieces are understood as agree with the spots of their parts. -/
theorem agrees_interpretOnto (p : Position) {before : List Part} {pieces : List Piece}
    (h : Munched pieces) (free : Free before pieces) :
    Agrees p before (interpretOnto [] pieces) (pieces.flatMap parts) := by
  obtain ⟨n, hn⟩ : ∃ n, pieces.length = n := ⟨_, rfl⟩
  induction n using Nat.strongRecOn generalizing p before pieces with
  | ind n ih =>
    subst hn
    cases h with
    | nil | dangling => exact ⟨rfl, rfl⟩
    | @plain c pieces h =>
      have hnone := free.digit c rfl
      rw [interpretOnto_cons_alone fun x _ => surrogatePair?_eq_none (by simp [Piece.codeUnit?]) x]
      refine Agrees.cons rfl ?_ rfl (ih _ (Nat.lt_succ_self _) _ h (.of_none hnone _) rfl)
      simp [Spot.meaning, hnone, Piece.reading]
    | @escape c pieces hu h =>
      have hnone : digitsBefore? (.pair c :: before) = none := by simp [digitsBefore?, hu]
      rw [interpretOnto_cons_alone fun x _ => surrogatePair?_eq_none (by simp [Piece.codeUnit?]) x]
      obtain ⟨text, meaning, fault⟩ := reading_escape hu p before (pieces.flatMap parts)
      exact Agrees.cons text meaning fault (ih _ (Nat.lt_succ_self _) _ h (.of_none hnone _) rfl)
    | @code digits pieces hex hle ends htail =>
      have h : Munched (.code digits :: pieces) := .code hex hle ends htail
      by_cases hnext : ∀ q, pieces.head? = some q → surrogatePair? (.code digits) q = none
      · obtain ⟨text, meaning, fault⟩ := reading_code digits
        have hrest := ih _ (Nat.lt_succ_self _) (p.after (Piece.code digits).reading.text) htail
          (Free.code h before hnext) rfl
        rw [interpretOnto_cons_alone hnext]
        exact Agrees.code hex hle (decode?_alone h free hnext) text meaning fault hrest
      · simp only [not_forall] at hnext
        obtain ⟨q, hq, hpair⟩ := hnext
        obtain ⟨c, hc⟩ := Option.ne_none_iff_exists'.1 hpair
        obtain ⟨more, rfl⟩ := List.head?_eq_some_iff.1 hq
        obtain ⟨es, rfl⟩ := exists_code_of_surrogatePair? hc
        have hes : ∀ x, more.head? = some x → surrogatePair? (.code es) x = none :=
          fun x _ => surrogatePair?_second hc x
        have hdigits := digitsBefore?_code hex hle before
        have hlt : more.length < (Piece.code digits :: Piece.code es :: more).length := by
          simp only [List.length_cons]
          omega
        rw [interpretOnto_cons_pair hc]
        refine Agrees.merge ?_
        refine Agrees.code hex hle (decode?_first h hc before) rfl rfl rfl ?_
        refine Agrees.code htail.hex htail.length_le (decode?_second htail hdigits hc)
          rfl rfl rfl ?_
        exact ih _ hlt _ htail.tail (Free.code htail _ hes) rfl

theorem not_lt_of_hex {c : Char} (h : (hexDigit? c).isSome) : ¬ c < ' ' := by
  intro hc
  have key : ∀ k : Fin 32, hexDigit? (Char.ofNat k) = none := by decide
  have hlt : c.toNat < 32 := hc
  have hnone := key ⟨c.toNat, hlt⟩
  rw [Char.ofNat_toNat] at hnone
  rw [hnone] at h
  cases h

theorem controlReports_spots (p : Position) (before : List Part) {pieces : List Piece}
    (h : Munched pieces) :
    controlReports p [] pieces =
      (spots p before (pieces.flatMap parts)).flatMap fun s => s.controlReport?.toList := by
  induction h generalizing p before with
  | nil | dangling => rfl
  | plain c h ih | escape hu h ih =>
    rw [controlReports_cons, ih _ (_ :: before)]
    rfl
  | @code digits pieces hex hle ends h ih =>
    rw [controlReports_cons, ih _ ((digits.map .plain).reverse ++ .pair 'u' :: before)]
    refine (flatMap_spots_digits hex (digitsBefore?_start before) (by simpa using hle) ?_ _).symm
    rintro ⟨p, before, part, behind⟩ c hc rfl -
    simp [Spot.controlReport?, not_lt_of_hex (hex c hc)]

end Literal

/-- A literal, be it closed or not, is fetched as the spots of its body say: first the reports of
control characters, then of a missing quote, then of each bad escape at its backslash, from left to
right, and a string of what each part contributes. -/
theorem Scan.escapes_reported_in_place (d : Dialect) (c : Cursor) {body rest : List Char}
    {parts : List Literal.Part} (hc : c.rest = '"' :: body)
    (hs : Literal.split body = (parts, rest)) :
    let text := '"' :: (parts.flatMap Literal.Part.text ++ rest.take 1)
    let spots := Literal.spots (c.position.next '"') [] parts
    next d c =
      (⟨spots.filterMap Literal.Spot.controlReport? ++
          (if rest.head? = some '"' then []
            else [.atPoint .unterminatedString (c.position.after text)]) ++
          spots.filterMap Literal.Spot.escapeReport?,
        ⟨.string, ⟨c.position, c.position.after text⟩,
          some (.string (String.ofList (spots.flatMap Literal.Spot.meaning)))⟩⟩,
        c.past text (rest.drop 1)) := by
  intro text spots
  obtain ⟨pieces, hm, hparts, -, hread⟩ := Literal.readBody_eq_split [] body
  rw [hs] at hparts hread
  obtain rfl : parts = pieces.flatMap Literal.parts := hparts
  have hread : Literal.read body = (⟨pieces, rest.head? = some '"'⟩, rest.drop 1) := hread
  have htext : Literal.text ⟨pieces, rest.head? = some '"'⟩ = text := by
    have heq := Literal.read_eq body
    have hbody := Literal.split_eq body
    rw [hread] at heq
    rw [hs] at hbody
    refine List.append_cancel_right (heq.trans ?_)
    rw [← hbody, List.cons_append, List.append_assoc, List.take_append_drop]
  have hnone : Literal.digitsBefore? [] = none := rfl
  have hagrees := Literal.agrees_interpretOnto (c.position.next '"') hm (.of_none hnone pieces)
  have hvalue : Literal.value ⟨pieces, rest.head? = some '"'⟩ =
      String.ofList (spots.flatMap Literal.Spot.meaning) := by
    rw [Literal.value, Literal.interpret, hagrees.meaning]
  have hreports : Literal.reports c.position ⟨pieces, rest.head? = some '"'⟩ =
      spots.filterMap Literal.Spot.controlReport? ++
        (if rest.head? = some '"' then []
          else [.atPoint .unterminatedString (c.position.after text)]) ++
        spots.filterMap Literal.Spot.escapeReport? := by
    rw [Literal.reports, htext, Literal.interpret, hagrees.reports,
      Literal.controlReports_spots _ [] hm, List.filterMap_eq_flatMap_toList,
      List.filterMap_eq_flatMap_toList]
    simp only [decide_eq_true_eq]
    rfl
  rw [next_quote d hc hread, htext, hvalue, hreports]

/-- A control character, a bad short escape, a code of two digits, a first half behind which a pair
stands, and a code that the text breaks off. -/
theorem Scan.escapes_reported_in_place_unclosed :
    next .json (.ofText "\"a\n\\q\\u00G\\uD83D\\uD83d\\uDe00\\u123") =
      (⟨[.atPoint .controlCharacter ⟨2, 1, 3⟩, .atPoint .unterminatedString ⟨33, 2, 31⟩,
          .atPoint .invalidEscapeSequence ⟨3, 2, 1⟩, .atPoint .invalidUnicodeEscape ⟨5, 2, 3⟩,
          .atPoint .invalidUnicodeEscape ⟨10, 2, 8⟩, .atPoint .invalidUnicodeEscape ⟨28, 2, 26⟩],
        ⟨.string, ⟨⟨0, 1, 1⟩, ⟨33, 2, 31⟩⟩, some (.string
          (.ofList ['a', '\n', 'q', '\ufffd', 'G', '\ufffd', '😀', '\ufffd']))⟩⟩,
        ⟨"\"a\n\\q\\u00G\\uD83D\\uD83d\\uDe00\\u123", ⟨33, 2, 31⟩, []⟩) := by
  have hc : (Cursor.ofText "\"a\n\\q\\u00G\\uD83D\\uD83d\\uDe00\\u123").rest =
      '"' :: "a\n\\q\\u00G\\uD83D\\uD83d\\uDe00\\u123".toList := by decide +kernel
  refine (escapes_reported_in_place .json _ hc (Prod.eta _).symm).trans ?_
  rfl

end Resilient
