import Mathlib.Data.List.TakeWhile
import Resilient.Lexeme
import Resilient.Proofs.Decimal.Rounding

/-!
# The spellings of numbers

`NumberText` says how JSON spells a number, and which number that is. `read_of_numberText` says
that such a spelling is read as a whole if nothing behind it continues it, `numberText_of_begins`
that nothing else is read.
-/

namespace Resilient

/-- Decimal digits. -/
def AllDigits (ds : List Char) : Prop := ∀ c ∈ ds, c.isDigit = true

/-- A whole number without needless zeros. -/
inductive WholeText : List Char → Prop where
  | zero : WholeText ['0']
  | digits {c : Char} {ds : List Char} (hc : c.isDigit = true) (h0 : c ≠ '0')
      (hds : AllDigits ds) : WholeText (c :: ds)

/-- An optional fraction, and its digits. -/
inductive FractionText : List Char → List Char → Prop where
  | absent : FractionText [] []
  | digits {ds : List Char} (hne : ds ≠ []) (hds : AllDigits ds) : FractionText ('.' :: ds) ds

/-- An optional power of ten, and the exponent that is meant. -/
inductive ExponentText : List Char → Int → Prop where
  | absent : ExponentText [] 0
  | digits {mark : Char} {sign ds : List Char} (hm : mark ∈ ['e', 'E'])
      (hs : sign ∈ [[], ['+'], ['-']]) (hne : ds ≠ []) (hds : AllDigits ds) :
      ExponentText (mark :: (sign ++ ds))
        (if sign = ['-'] then -(Nat.ofDigitChars 10 ds 0 : Int) else Nat.ofDigitChars 10 ds 0)

/-- The spelling of a number, and the number nearest to it by its sign bit and the bits below; see
`Binary64.nearest`. -/
inductive NumberText : List Char → Binary64 → Prop where
  | intro {sign whole fraction power ds : List Char} {e : Int} {x : Binary64}
      (hs : sign ∈ [[], ['-']]) (hw : WholeText whole) (hf : FractionText fraction ds)
      (he : ExponentText power e)
      (hx : x.bits.toNat = (if sign = ['-'] then 2 ^ 63 else 0) +
        Binary64.nearest (Nat.ofDigitChars 10 (whole ++ ds) 0 * 10 ^ (e - ds.length))) :
      NumberText (sign ++ (whole ++ (fraction ++ power))) x

/-- The text does not go on with what could belong to a number or a word. -/
def Ends (rest : List Char) : Prop := ∀ c ∈ rest.head?, isWordChar c = false ∧ c ≠ '.'

/-- The text does not go on with a digit. -/
def NoDigit (rest : List Char) : Prop := ∀ c ∈ rest.head?, c.isDigit = false

theorem isWordChar_of_isDigit {c : Char} (h : c.isDigit = true) : isWordChar c = true := by
  simp [isWordChar, isNumeric, h]

theorem noDigit_of_ends {rest : List Char} (h : Ends rest) : NoDigit rest := by
  intro c hc
  by_contra hd
  have hw := isWordChar_of_isDigit (by simpa using hd)
  simp [(h c hc).1] at hw

namespace AllDigits

variable {ds rest : List Char}

theorem takeWhile_append (hds : AllDigits ds) (hr : NoDigit rest) :
    (ds ++ rest).takeWhile (·.isDigit) = ds := by
  rw [List.takeWhile_append_of_pos hds]
  cases rest with
  | nil => simp
  | cons c rest =>
    have hc : c.isDigit = false := hr c (by simp)
    simp [hc]

theorem dropWhile_append (hds : AllDigits ds) (hr : NoDigit rest) :
    (ds ++ rest).dropWhile (·.isDigit) = rest := by
  rw [List.dropWhile_append_of_pos hds]
  cases rest with
  | nil => rfl
  | cons c rest =>
    have hc : c.isDigit = false := hr c (by simp)
    simp [hc]

theorem takeWhile (text : List Char) : AllDigits (text.takeWhile (·.isDigit)) :=
  fun _ hc => List.mem_takeWhile_imp hc

end AllDigits

theorem WholeText.allDigits {whole : List Char} (h : WholeText whole) : AllDigits whole := by
  cases h with
  | zero => exact List.forall_mem_singleton.2 rfl
  | digits hc h0 hds => exact List.forall_mem_cons.2 ⟨hc, hds⟩

theorem WholeText.exists_cons {whole : List Char} (h : WholeText whole) :
    ∃ c ds, whole = c :: ds ∧ c.isDigit = true := by
  cases h with
  | zero => exact ⟨'0', [], rfl, rfl⟩
  | digits hc h0 hds => exact ⟨_, _, rfl, hc⟩

theorem ExponentText.noDigit {power : List Char} {e : Int} (h : ExponentText power e)
    (hne : power ≠ []) (rest : List Char) : NoDigit (power ++ rest) := by
  cases h with
  | absent => exact absurd rfl hne
  | digits hm hs hne hds =>
    intro c hc
    simp only [List.cons_append, List.head?_cons, Option.mem_def, Option.some.injEq] at hc
    subst hc
    simp only [List.mem_cons, List.not_mem_nil, or_false] at hm
    rcases hm with rfl | rfl <;> rfl

theorem FractionText.noDigit {fraction ds : List Char} (h : FractionText fraction ds)
    (hne : fraction ≠ []) (rest : List Char) : NoDigit (fraction ++ rest) := by
  cases h with
  | absent => exact absurd rfl hne
  | digits _ _ =>
    intro c hc
    simp only [List.cons_append, List.head?_cons, Option.mem_def, Option.some.injEq] at hc
    subst hc
    rfl

theorem noDigit_exponent {power rest : List Char} {e : Int} (he : ExponentText power e)
    (hr : Ends rest) : NoDigit (power ++ rest) := by
  by_cases hne : power = []
  · rw [hne]
    exact noDigit_of_ends hr
  · exact he.noDigit hne rest

theorem noDigit_fraction {fraction ds power rest : List Char} {e : Int}
    (hf : FractionText fraction ds) (he : ExponentText power e) (hr : Ends rest) :
    NoDigit (fraction ++ (power ++ rest)) := by
  by_cases hne : fraction = []
  · rw [hne, List.nil_append]
    exact noDigit_exponent he hr
  · exact hf.noDigit hne _

/-! ### What is spelled is understood -/

theorem ends_nil : Ends [] := nofun

theorem decimalValue_eq (ds : List Char) : decimalValue ds = Nat.ofDigitChars 10 ds 0 := rfl

theorem wholeNumber?_of_allDigits {ds : List Char} (hne : ds ≠ []) (hds : AllDigits ds) :
    wholeNumber? ds = some (Nat.ofDigitChars 10 ds 0) := by
  rw [← decimalValue_eq]
  exact if_pos ⟨hne, List.all_eq_true.2 hds⟩

theorem exponent?_of_exponentText {power : List Char} {e : Int} (h : ExponentText power e) :
    exponent? power = some e := by
  cases h with
  | absent => rfl
  | @digits mark sign ds hm hs hne hds =>
    have hmark : (decide (mark = 'e') || decide (mark = 'E')) = true := by simpa using hm
    have hn := wholeNumber?_of_allDigits hne hds
    simp only [List.mem_cons, List.not_mem_nil, or_false] at hs
    rcases hs with rfl | rfl | rfl
    · obtain ⟨c, ds, rfl⟩ := List.exists_cons_of_ne_nil hne
      have hc : c.isDigit = true := hds c (by simp)
      have hp : c ≠ '+' := by rintro rfl; cases hc
      have hm : c ≠ '-' := by rintro rfl; cases hc
      simp [exponent?, hmark, hp, hm, hn]
    · simp [exponent?, hmark, hn]
    · simp [exponent?, hmark, hn]

theorem splitFraction_append {fraction ds power : List Char} {e : Int}
    (hf : FractionText fraction ds) (he : ExponentText power e) :
    splitFraction (fraction ++ power) = (ds, power) := by
  cases hf with
  | absent =>
    unfold splitFraction
    split
    · rename_i text h
      cases he with
      | absent => cases h
      | digits hm hs hne hds =>
        simp only [List.nil_append, List.cons.injEq] at h
        rw [h.1] at hm
        simp at hm
    · rfl
  | digits hne hds =>
    have hn : NoDigit power := by simpa using noDigit_exponent he ends_nil
    simp only [List.cons_append, splitFraction, hds.takeWhile_append hn, hds.dropWhile_append hn]

/-- The spelling of a number is understood as the number that it spells. -/
theorem Binary64.ofText?_of_numberText {text : List Char} {x : Binary64} (h : NumberText text x) :
    ofText? text = some x := by
  cases h with
  | @intro sign whole fraction power ds e _ hs hw hf he hx =>
    obtain ⟨c, tail, hc, hdigit⟩ := hw.exists_cons
    have hn : NoDigit (fraction ++ power) := by simpa using noDigit_fraction hf he ends_nil
    have hunsigned (negative : Bool) : ofUnsigned? negative (whole ++ (fraction ++ power)) =
        some (.ofMagnitude negative
          (nearest (Nat.ofDigitChars 10 (whole ++ ds) 0 * 10 ^ (e - ds.length)))) := by
      rw [← decimalValue_eq, ← ofDecimal_eq]
      simp only [ofUnsigned?, hw.allDigits.takeWhile_append hn, hw.allDigits.dropWhile_append hn,
        splitFraction_append hf he, exponent?_of_exponentText he, Option.map_some]
      simp [hc]
    have hx := eq_ofMagnitude (sign = ['-']) (by simpa using hx)
    simp only [List.mem_cons, List.not_mem_nil, or_false] at hs
    rcases hs with rfl | rfl
    · have hp : c ≠ '+' := by rintro rfl; cases hdigit
      have hm : c ≠ '-' := by rintro rfl; cases hdigit
      have hplain : ofText? (whole ++ (fraction ++ power)) =
          ofUnsigned? false (whole ++ (fraction ++ power)) := by
        rw [hc]
        simp [ofText?, hp, hm]
      rw [hx]
      exact hplain.trans (hunsigned false)
    · rw [hx]
      exact hunsigned true

theorem exists_numberText {sign whole fraction power ds : List Char} {e : Int}
    (hs : sign ∈ [[], ['-']]) (hw : WholeText whole) (hf : FractionText fraction ds)
    (he : ExponentText power e) : ∃ x, NumberText (sign ++ (whole ++ (fraction ++ power))) x := by
  have hlt (q : ℚ) : Binary64.nearest q < 2 ^ 63 :=
    (Binary64.nearest_le q).trans_lt (by decide)
  exact ⟨.ofMagnitude (sign = ['-']) _, .intro hs hw hf he
    (by simpa using Binary64.bits_ofMagnitude (sign = ['-']) (hlt _))⟩

namespace Numeral

/-! ### What is spelled is read -/

theorem readSign_append {sign whole rest : List Char} (hs : sign ∈ [[], ['-']])
    (hw : WholeText whole) :
    readSign (sign ++ (whole ++ rest)) = (decide (sign = ['-']), whole ++ rest) := by
  simp only [List.mem_cons, List.not_mem_nil, or_false] at hs
  rcases hs with rfl | rfl
  · have hm : ∀ tail, whole ++ rest ≠ '-' :: tail := by
      intro tail h
      cases hw with
      | zero => simp at h
      | digits hc h0 hds =>
        simp only [List.cons_append, List.cons.injEq] at h
        rw [h.1] at hc
        cases hc
    unfold readSign
    split
    · rename_i tail h
      exact absurd h (hm tail)
    · rfl
  · rfl

theorem readWhole_append {whole rest : List Char} (hw : WholeText whole) (hr : NoDigit rest) :
    readWhole (whole ++ rest) = (whole, rest) := by
  cases hw with
  | zero => rfl
  | @digits c ds hc h0 hds =>
    have hall : AllDigits (c :: ds) := (WholeText.digits hc h0 hds).allDigits
    unfold readWhole
    split
    · rename_i tail h
      simp only [List.cons_append, List.cons.injEq] at h
      exact absurd h.1 h0
    · rw [hall.takeWhile_append hr, hall.dropWhile_append hr]

theorem readFraction_append {fraction ds power rest : List Char} {e : Int}
    (hf : FractionText fraction ds) (he : ExponentText power e) (hr : Ends rest) :
    readFraction (fraction ++ (power ++ rest)) = (ds, power ++ rest) := by
  have hn := noDigit_exponent he hr
  cases hf with
  | absent =>
    unfold readFraction
    split
    · rename_i tail h
      cases he with
      | absent => exact absurd rfl (hr '.' (by simpa using congrArg List.head? h)).2
      | digits hm hs hne hds =>
        simp only [List.nil_append, List.cons_append, List.cons.injEq] at h
        rw [h.1] at hm
        simp at hm
    · rfl
  | digits hne hds =>
    simp only [List.cons_append, readFraction, hds.takeWhile_append hn, hds.dropWhile_append hn]

theorem readPower_digits {mark : Char} {sign ds : List Char} (hm : mark ∈ ['e', 'E'])
    (hs : sign ∈ [[], ['+'], ['-']]) (hne : ds ≠ []) (hds : AllDigits ds) (rest : List Char) :
    ∃ q, PowerOfTen.read (mark :: (sign ++ ds) ++ rest) =
        (some q, (ds ++ rest).dropWhile (·.isDigit)) ∧
      q.text = mark :: (sign ++ (ds ++ rest).takeWhile (·.isDigit)) := by
  have hmark : (decide (mark = 'e') || decide (mark = 'E')) = true := by simpa using hm
  obtain ⟨c, ds, rfl⟩ := List.exists_cons_of_ne_nil hne
  have hc : c.isDigit = true := hds c (by simp)
  have htake : (c :: ds ++ rest).takeWhile (·.isDigit) =
      c :: (ds ++ rest).takeWhile (·.isDigit) := by
    simp [hc]
  simp only [List.mem_cons, List.not_mem_nil, or_false] at hs
  rcases hs with rfl | rfl | rfl
  · have hp : c ≠ '+' := by rintro rfl; cases hc
    have hm : c ≠ '-' := by rintro rfl; cases hc
    refine ⟨⟨mark, none, c :: (ds ++ rest).takeWhile (·.isDigit)⟩, ?_, by rw [htake]; rfl⟩
    simp [PowerOfTen.read, hmark, hp, hm, hc]
  · refine ⟨⟨mark, some '+', c :: (ds ++ rest).takeWhile (·.isDigit)⟩, ?_, by rw [htake]; rfl⟩
    simp [PowerOfTen.read, hmark, hc]
  · refine ⟨⟨mark, some '-', c :: (ds ++ rest).takeWhile (·.isDigit)⟩, ?_, by rw [htake]; rfl⟩
    simp [PowerOfTen.read, hmark, hc]

theorem readPower_append {power rest : List Char} {e : Int} (he : ExponentText power e)
    (hr : Ends rest) :
    ∃ q, PowerOfTen.read (power ++ rest) = (q, rest) := by
  cases he with
  | absent =>
    refine ⟨none, ?_⟩
    cases rest with
    | nil => rfl
    | cons mark rest =>
      have hw := (hr mark rfl).1
      have he : mark ≠ 'e' := by rintro rfl; cases hw
      have hE : mark ≠ 'E' := by rintro rfl; cases hw
      simp [PowerOfTen.read, he, hE]
  | digits hm hs hne hds =>
    obtain ⟨q, hq, -⟩ := readPower_digits hm hs hne hds rest
    rw [hds.dropWhile_append (noDigit_of_ends hr)] at hq
    exact ⟨some q, hq⟩

theorem read_of_numberText {text rest : List Char} {x : Binary64} (h : NumberText text x)
    (hr : Ends rest) :
    ∃ n, read (text ++ rest) = (n, rest) ∧ n.text = text ∧ n.value = x := by
  have heq := read_eq (text ++ rest)
  have hvalue := Binary64.ofText?_of_numberText h
  cases h with
  | @intro sign whole fraction power ds e _ hs hw hf he _ =>
    obtain ⟨q, hq⟩ := readPower_append he hr
    have hread : read (sign ++ (whole ++ (fraction ++ power)) ++ rest) =
        (⟨decide (sign = ['-']), whole, ds, q⟩, rest) := by
      have hassoc : sign ++ (whole ++ (fraction ++ power)) ++ rest =
          sign ++ (whole ++ (fraction ++ (power ++ rest))) := by simp
      simp only [read, hassoc, readSign_append hs hw,
        readWhole_append hw (noDigit_fraction hf he hr), readFraction_append hf he hr, hq]
    rw [hread] at heq
    have htext := List.append_cancel_right heq
    refine ⟨_, hread, htext, ?_⟩
    rw [value, htext, hvalue]
    rfl

theorem begins_of_numberText {text : List Char} {x : Binary64} (h : NumberText text x)
    (rest : List Char) :
    begins true (text ++ rest) = true := by
  cases h with
  | intro hs hw _ _ _ =>
    simp only [List.mem_cons, List.not_mem_nil, or_false] at hs
    rcases hs with rfl | rfl <;> cases hw <;> simp [begins, *]

/-! ### What is read is spelled -/

theorem wholeText_readWhole {c : Char} {text : List Char} (hc : c.isDigit = true) :
    WholeText (readWhole (c :: text)).1 := by
  unfold readWhole
  split
  · exact .zero
  · rename_i h
    have h0 : c ≠ '0' := fun e => h text (by rw [e])
    simpa [hc] using WholeText.digits hc h0 (.takeWhile text)

theorem fractionText_readFraction (text : List Char) :
    FractionText (fractionText (readFraction text).1) (readFraction text).1 := by
  unfold readFraction
  split
  · rename_i rest
    split
    · exact .absent
    · rename_i h
      have hne : rest.takeWhile (·.isDigit) ≠ [] := h
      simpa [fractionText, hne] using FractionText.digits hne (.takeWhile rest)
  · exact .absent

theorem exists_exponentText_read (text : List Char) :
    ∃ e, ExponentText (powerText (PowerOfTen.read text).1) e := by
  unfold PowerOfTen.read
  split
  · exact ⟨0, .absent⟩
  · rename_i mark rest
    split
    · rename_i hm
      have hm : mark ∈ ['e', 'E'] := by simpa using hm
      split
      rename_i sign digits hs
      have hsign : sign.toList ∈ [[], ['+'], ['-']] := by
        split at hs
        · split at hs
          · rename_i c _ hc
            cases hs
            have hc : c = '+' ∨ c = '-' := by simpa using hc
            rcases hc with rfl | rfl <;> simp
          · cases hs
            simp
        · cases hs
          simp
      split
      · exact ⟨0, .absent⟩
      · rename_i h
        have hne : digits.takeWhile (·.isDigit) ≠ [] := h
        exact ⟨_, .digits hm hsign hne (.takeWhile digits)⟩
    · exact ⟨0, .absent⟩

theorem text_read (text : List Char) :
    (read text).1.text = (if (readSign text).1 then ['-'] else []) ++
      ((readWhole (readSign text).2).1 ++
        (fractionText (readFraction (readWhole (readSign text).2).2).1 ++
          powerText (PowerOfTen.read (readFraction (readWhole (readSign text).2).2).2).1)) := by
  rw [Numeral.text, List.append_assoc, List.append_assoc]
  rfl

/-- Where a number begins, a spelling is read, and the number that it spells. -/
theorem numberText_of_begins {text : List Char} (h : begins true text = true) :
    NumberText (read text).1.text (read text).1.value := by
  have hsign : (if (readSign text).1 then ['-'] else []) ∈ [[], ['-']] := by
    split <;> simp
  obtain ⟨c, tail, htail, hc⟩ : ∃ c tail, (readSign text).2 = c :: tail ∧ c.isDigit = true := by
    cases text with
    | nil => cases h
    | cons c text =>
      simp only [begins, Bool.true_and, Bool.or_eq_true, Bool.and_eq_true, decide_eq_true_eq] at h
      rcases h with hc | ⟨rfl, hd⟩
      · refine ⟨c, text, ?_, hc⟩
        unfold readSign
        split
        · rename_i e
          cases e
          cases hc
        · rfl
      · cases text with
        | nil => cases hd
        | cons x text => exact ⟨x, text, rfl, by simpa using hd⟩
  have hw : WholeText (readWhole (readSign text).2).1 := by
    rw [htail]
    exact wholeText_readWhole hc
  have hf := fractionText_readFraction (readWhole (readSign text).2).2
  obtain ⟨e, he⟩ := exists_exponentText_read (readFraction (readWhole (readSign text).2).2).2
  obtain ⟨x, hn⟩ := exists_numberText hsign hw hf he
  rw [value, text_read, Binary64.ofText?_of_numberText hn]
  exact hn

theorem reports_of_numberText {n : Numeral} {x : Binary64} (h : NumberText n.text x)
    (p : Position) : n.reports p = [] := by
  rw [reports, Binary64.ofText?_of_numberText h]
  rfl

end Numeral

end Resilient
