import Resilient.Proofs.Lexeme.Numeral

/-!
# The longest spelling of a number

A number is read part by part, and no part is given back. Still the spelling read is the longest one
that the text begins with (`Numeral.length_le_of_isPrefix`): a spelling that ends inside a run of
digits has no part behind that run, and any other part begins where the reader goes on.
-/

namespace Resilient

variable {sign whole fraction power ds rest : List Char} {e : Int}

theorem AllDigits.length_le_takeWhile (h : AllDigits ds) (rest : List Char) :
    ds.length ≤ ((ds ++ rest).takeWhile (·.isDigit)).length := by
  rw [List.takeWhile_append_of_pos h, List.length_append]
  exact Nat.le_add_right _ _

namespace Numeral

/-- What is read where a power of ten may begin. -/
def powerPart (text : List Char) : List Char := powerText (PowerOfTen.read text).1

/-- What is read where a fraction may begin. -/
def fractionPart (text : List Char) : List Char :=
  fractionText (readFraction text).1 ++ powerPart (readFraction text).2

/-- What is read where the digits begin. -/
def wholePart (text : List Char) : List Char :=
  (readWhole text).1 ++ fractionPart (readWhole text).2

theorem length_power_le (h : ExponentText power e) (rest : List Char) :
    power.length ≤ (powerPart (power ++ rest)).length := by
  cases h with
  | absent => exact Nat.zero_le _
  | digits hm hs hne hds =>
    obtain ⟨q, hq, htext⟩ := readPower_digits hm hs hne hds rest
    have hle := hds.length_le_takeWhile rest
    rw [powerPart, hq, powerText, htext]
    simp only [List.length_cons, List.length_append]
    omega

theorem readFraction_of_head {c : Char} (hc : c ≠ '.') (text : List Char) :
    readFraction (c :: text) = ([], c :: text) := by
  unfold readFraction
  split
  · rename_i heq
    exact absurd (List.cons.inj heq).1 hc
  · rfl

theorem readFraction_digits (hne : ds ≠ []) (hds : AllDigits ds) (rest : List Char) :
    readFraction ('.' :: ds ++ rest) =
      ((ds ++ rest).takeWhile (·.isDigit), (ds ++ rest).dropWhile (·.isDigit)) := by
  obtain ⟨c, ds, rfl⟩ := List.exists_cons_of_ne_nil hne
  have hc : c.isDigit = true := hds c (by simp)
  simp [readFraction, hc]

theorem length_fraction_le (hf : FractionText fraction ds) (he : ExponentText power e)
    (rest : List Char) :
    fraction.length + power.length ≤ (fractionPart (fraction ++ (power ++ rest))).length := by
  have hpower := length_power_le he rest
  cases hf with
  | absent =>
    cases he with
    | absent => exact Nat.zero_le _
    | @digits mark sign ds hm hs hne hds =>
      have hpoint : mark ≠ '.' := by
        rintro rfl
        simp at hm
      have hread := readFraction_of_head hpoint (sign ++ ds ++ rest)
      rw [List.nil_append, List.cons_append, fractionPart, hread, List.length_append]
      exact Nat.add_le_add (Nat.zero_le _) hpower
  | digits hne hds =>
    have htake := hds.length_le_takeWhile (power ++ rest)
    have hdigits : (ds ++ (power ++ rest)).takeWhile (·.isDigit) ≠ [] := by
      refine List.ne_nil_of_length_pos (Nat.lt_of_lt_of_le ?_ htake)
      exact List.length_pos_iff.2 hne
    rw [fractionPart, readFraction_digits hne hds]
    simp only [fractionText, List.isEmpty_iff, hdigits, if_false, List.cons_append,
      List.length_cons, List.length_append]
    by_cases hp : power = []
    · -- The reader may go on in the run of digits.
      have hlength : power.length = 0 := by rw [hp, List.length_nil]
      omega
    · rw [hds.dropWhile_append (he.noDigit hp rest)]
      omega

theorem readWhole_digits {c : Char} (hc : c.isDigit = true) (h0 : c ≠ '0') (text : List Char) :
    (readWhole (c :: text)).1 = c :: text.takeWhile (·.isDigit) := by
  unfold readWhole
  split
  · rename_i heq
    exact absurd (List.cons.inj heq).1 h0
  · simp [hc]

theorem length_whole_le (hw : WholeText whole) (hf : FractionText fraction ds)
    (he : ExponentText power e) (rest : List Char) :
    whole.length + (fraction.length + power.length) ≤
      (wholePart (whole ++ (fraction ++ (power ++ rest)))).length := by
  have hbehind := length_fraction_le hf he rest
  by_cases hn : NoDigit (fraction ++ (power ++ rest))
  · rw [wholePart, readWhole_append hw hn, List.length_append]
    exact Nat.add_le_add_left hbehind _
  · -- The reader goes on in a run of digits, so nothing else is spelled behind it.
    have hfraction : fraction = [] := by
      by_contra hne
      exact hn (hf.noDigit hne _)
    subst hfraction
    have hpower : power = [] := by
      by_contra hne
      exact hn (he.noDigit hne rest)
    subst hpower
    rw [wholePart, List.length_append]
    cases hw with
    | zero => exact Nat.le_add_right _ _
    | digits hc h0 hds =>
      have hle := hds.length_le_takeWhile rest
      rw [List.cons_append, readWhole_digits hc h0]
      simp only [List.nil_append, List.length_cons, List.length_nil] at hle ⊢
      omega

/-- No longer spelling of a number begins the text than the one that is read. -/
theorem length_le_of_isPrefix {t text : List Char} {x : Binary64} (h : NumberText t x)
    (hp : t <+: text) : t.length ≤ (read text).1.text.length := by
  obtain ⟨rest, rfl⟩ := hp
  cases h with
  | @intro sign whole fraction power ds e _ hs hw hf he _ =>
    have hassoc : sign ++ (whole ++ (fraction ++ power)) ++ rest =
        sign ++ (whole ++ (fraction ++ (power ++ rest))) := by simp
    have hsign : (if decide (sign = ['-']) then ['-'] else []) = sign := by
      simp only [List.mem_cons, List.not_mem_nil, or_false] at hs
      rcases hs with rfl | rfl <;> rfl
    have hle := length_whole_le hw hf he rest
    rw [hassoc, text_read, readSign_append hs hw, hsign]
    simp only [List.length_append, wholePart, fractionPart, powerPart] at hle ⊢
    omega

end Numeral

end Resilient
