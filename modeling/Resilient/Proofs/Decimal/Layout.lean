import Resilient.Decimal.Layout
import Resilient.Proofs.Decimal.Shortest
import Resilient.Proofs.Lexeme.Numeral

/-!
# Written numbers are numerals

Every finite number, written with its digits in their places, is the spelling of a number, and the
number it spells is the one written (`numberText_write`).
-/

namespace Resilient

/-! ### Digits -/

theorem decimalValue_append (ds es : List Char) :
    decimalValue (ds ++ es) = Nat.ofDigitChars 10 es (decimalValue ds) :=
  Nat.ofDigitChars_append 0

theorem decimalValue_zeros_append (n : Nat) (ds : List Char) :
    decimalValue (List.replicate n '0' ++ ds) = decimalValue ds := by
  rw [decimalValue_append, decimalValue, ← Nat.ofDigitChars_eq_foldl,
    Nat.ofDigitChars_replicate_zero]
  rfl

theorem decimalValue_append_zeros (n : Nat) (ds : List Char) :
    decimalValue (ds ++ List.replicate n '0') = 10 ^ n * decimalValue ds := by
  rw [decimalValue_append, Nat.ofDigitChars_replicate_zero]

theorem decimalValue_toDigits (n : Nat) : decimalValue (Nat.toDigits 10 n) = n :=
  Nat.ofDigitChars_toDigits (by decide) (by decide)

theorem AllDigits.append {ds es : List Char} (hd : AllDigits ds) (he : AllDigits es) :
    AllDigits (ds ++ es) := by
  intro c hc
  rcases List.mem_append.1 hc with hc | hc
  · exact hd c hc
  · exact he c hc

theorem allDigits_zeros (n : Nat) : AllDigits (List.replicate n '0') := by
  intro c hc
  rw [List.eq_of_mem_replicate hc]
  rfl

theorem allDigits_toDigits (n : Nat) : AllDigits (Nat.toDigits 10 n) :=
  fun _ hc => Nat.isDigit_of_mem_toDigits (by decide) (by decide) hc

theorem exists_toDigits {n : Nat} (hn : 0 < n) :
    ∃ c ds, Nat.toDigits 10 n = c :: ds ∧ c ≠ '0' := by
  induction n using Nat.strongRecOn with
  | ind n ih =>
    rcases Nat.lt_or_ge n 10 with h | h
    · have key : ∀ k : Fin 10, 0 < k.val → Nat.digitChar k.val ≠ '0' := by decide
      exact ⟨_, [], Nat.toDigits_of_lt_base h, key ⟨n, h⟩ hn⟩
    · obtain ⟨c, ds, hds, hc⟩ := ih (n / 10) (Nat.div_lt_self hn (by decide)) (by omega)
      rw [Nat.toDigits_of_base_le (by decide) h, hds]
      exact ⟨c, _, rfl, hc⟩

/-! ### Digits in their places -/

namespace NumberLayout

/-- Digits in their places are a whole part and a fraction that stand for the same number. -/
theorem placed_spelled {c : Char} {ds : List Char} (h0 : c ≠ '0') (hds : AllDigits (c :: ds))
    (e : Int) :
    ∃ whole fraction fs, plain.placed (c :: ds) (e + (c :: ds).length) = whole ++ fraction ∧
      WholeText whole ∧ FractionText fraction fs ∧
      (decimalValue (whole ++ fs) * 10 ^ (0 - fs.length : Int) : ℚ) =
        decimalValue (c :: ds) * 10 ^ e := by
  obtain ⟨hc, htail⟩ : c.isDigit = true ∧ AllDigits ds := List.forall_mem_cons.1 hds
  unfold placed
  split
  · -- The point stands in front of all digits.
    rename_i h
    generalize hk : (-(e + (c :: ds).length)).toNat = k
    refine ⟨['0'], '.' :: (List.replicate k '0' ++ c :: ds), _, rfl, .zero,
      .digits (by simp) ((allDigits_zeros k).append hds), ?_⟩
    have hvalue : decimalValue (['0'] ++ (List.replicate k '0' ++ c :: ds)) =
        decimalValue (c :: ds) := decimalValue_zeros_append (k + 1) (c :: ds)
    rw [hvalue, List.length_append, List.length_replicate]
    congr 2
    omega
  split
  · -- It stands among them.
    rename_i h hlt
    obtain ⟨k, hk⟩ : ∃ k, (e + (c :: ds).length).toNat = k + 1 :=
      Nat.exists_eq_add_one.2 (by omega)
    rw [hk, List.length_cons] at hlt
    have hdrop : ds.drop k ≠ [] := by
      rw [ne_eq, List.drop_eq_nil_iff]
      omega
    rw [hk]
    refine ⟨c :: ds.take k, '.' :: ds.drop k, _, rfl,
      .digits hc h0 fun x hx => htail x (List.mem_of_mem_take hx),
      .digits hdrop fun x hx => htail x (List.mem_of_mem_drop hx), ?_⟩
    rw [List.cons_append, List.take_append_drop, List.length_drop]
    rw [List.length_cons] at hk
    congr 2
    omega
  · -- It stands behind them.
    rename_i h hge
    obtain ⟨k, rfl⟩ := Int.eq_ofNat_of_zero_le (a := e) (by omega)
    have hk : ((k : Int) + (c :: ds).length).toNat - (c :: ds).length = k := by omega
    rw [hk]
    refine ⟨c :: (ds ++ List.replicate k '0'), [], [], rfl,
      .digits hc h0 (htail.append (allDigits_zeros k)), .absent, ?_⟩
    have hvalue : decimalValue (c :: (ds ++ List.replicate k '0') ++ []) =
        10 ^ k * decimalValue (c :: ds) := by
      rw [List.append_nil]
      exact decimalValue_append_zeros k (c :: ds)
    rw [hvalue]
    simp [mul_comm]

theorem finite_of_isZero {x : Binary64} (hz : x.magnitude = 0) : plain.finite x = ['0'] := by
  have hs : x.shortest = ⟨0, 0⟩ := by simp [Binary64.shortest, Binary64.isZero, hz]
  simp only [finite, hs, Binary64.isZero, hz]
  rfl

theorem finite_of_pos {x : Binary64} (hz : x.magnitude ≠ 0) :
    plain.finite x = plain.placed (Nat.toDigits 10 x.shortest.digits)
      (x.shortest.exponent + (Nat.toDigits 10 x.shortest.digits).length) := by
  simp [finite, plain, Binary64.isZero, hz]

/-- A finite number is written as a whole part and a fraction that read back. -/
theorem finite_spelled {x : Binary64} (hx : x.magnitude < Binary64.infinityBits) :
    ∃ whole fraction fs, plain.finite x = whole ++ fraction ∧ WholeText whole ∧
      FractionText fraction fs ∧
      Binary64.nearest (decimalValue (whole ++ fs) * 10 ^ (0 - fs.length : Int)) =
        x.magnitude := by
  by_cases hz : x.magnitude = 0
  · refine ⟨['0'], [], [], finite_of_isZero hz, .zero, .absent, ?_⟩
    rw [hz, show decimalValue (['0'] ++ []) = 0 by rfl]
    simp [Binary64.nearest]
  · have hnearest := Binary64.nearest_shortest hx
    have hpos : 0 < x.shortest.digits := by
      refine Nat.pos_of_ne_zero fun h => hz ?_
      rw [← hnearest]
      simp [Decimal.value, h, Binary64.nearest]
    obtain ⟨c, ds, hcs, hc⟩ := exists_toDigits hpos
    have hds := allDigits_toDigits x.shortest.digits
    have hvalue := decimalValue_toDigits x.shortest.digits
    rw [finite_of_pos hz]
    rw [hcs] at hds hvalue ⊢
    obtain ⟨whole, fraction, fs, htext, hw, hf, hsame⟩ :=
      placed_spelled hc hds x.shortest.exponent
    refine ⟨whole, fraction, fs, htext, hw, hf, ?_⟩
    rw [hsame, hvalue]
    exact hnearest

theorem numberText_write {x : Binary64} (hx : x.magnitude < Binary64.infinityBits) :
    NumberText (plain.write x).toList x := by
  have hnan : x.isNaN = false := by simpa [Binary64.isNaN] using hx.le
  have hinf : x.isInfinite = false := by simpa [Binary64.isInfinite] using hx.ne
  obtain ⟨whole, fraction, fs, htext, hw, hf, hnearest⟩ := finite_spelled hx
  have hsign : (if x.isNegative then ['-'] else []) ∈ [[], ['-']] := by
    split <;> decide
  have hneg : (if x.isNegative then ['-'] else []) = ['-'] ↔ x.isNegative = true := by
    cases x.isNegative <;> simp
  have hspelled := NumberText.intro hsign hw hf .absent (x := x) (by
    rw [← decimalValue_eq, hnearest, x.bits_eq]
    simp only [hneg])
  have hwrite : (plain.write x).toList =
      (if x.isNegative then ['-'] else []) ++ (whole ++ (fraction ++ [])) := by
    rw [List.append_nil, ← htext]
    cases h : x.isNegative <;> simp [write, hnan, hinf, h]
  rwa [hwrite]

example : plain.write ⟨0x3fb999999999999a⟩ = "0.1" := by decide +kernel

end NumberLayout

end Resilient
