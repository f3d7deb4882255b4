import Resilient.Decimal.Shortest
import Resilient.Proofs.Decimal.Rounding

/-!
# The chosen spelling reads back

Numbers nearer to a finite word than half the step to its neighbours are read as the word
(`nearest_of_near`), and seventeen digits come that near (`nearest_neighbour`). So the search for
the fewest digits finds a spelling, and that spelling reads back (`nearest_shortest`).
-/

namespace Resilient

namespace Binary64

variable {x : Binary64} {q : ℚ}

/-! ### The parts of a word -/

theorem magnitude_lt (x : Binary64) : x.magnitude < 2 ^ 63 := Nat.mod_lt _ (by decide)

theorem magnitude_ofMagnitude (negative : Bool) {m : Nat} (h : m < 2 ^ 63) :
    (ofMagnitude negative m).magnitude = m := by
  rw [magnitude, bits_ofMagnitude negative h, Nat.pow_eq]
  split <;> omega

theorem bits_eq (x : Binary64) :
    x.bits.toNat = (if x.isNegative then 2 ^ 63 else 0) + x.magnitude := by
  have hx : x.bits.toNat < 2 ^ 64 := x.bits.toNat_lt
  simp only [isNegative, magnitude, decide_eq_true_eq, Nat.pow_eq]
  split <;> omega

/-- A word without an exponent field is its significand; any other has the first bit of the
significand set, and its exponent above the least one in its field. -/
theorem parts (x : Binary64) :
    (x.exponent = -1074 ∧ x.significand = x.magnitude ∧ x.magnitude < 2 ^ 52) ∨
      (-1074 ≤ x.exponent ∧ 2 ^ 52 ≤ x.significand ∧ x.significand < 2 ^ 53 ∧
        x.magnitude = (x.exponent + 1074).toNat * 2 ^ 52 + x.significand) := by
  unfold exponent significand
  by_cases h : x.field = 0
  · rw [if_pos h, if_pos h]
    refine .inl ⟨rfl, ?_, ?_⟩ <;> simp only [field, Nat.pow_eq] at h ⊢ <;> omega
  · rw [if_neg h, if_neg h]
    simp only [field, Nat.pow_eq] at h ⊢
    omega

theorem magnitude_eq (x : Binary64) :
    x.magnitude = (x.exponent + 1074).toNat * 2 ^ 52 + x.significand := by
  have h := parts x
  omega

theorem significand_lt (x : Binary64) : x.significand < 2 ^ 53 := by
  have h := parts x
  omega

theorem le_significand_or (x : Binary64) : 2 ^ 52 ≤ x.significand ∨ x.exponent = -1074 := by
  have h := parts x
  omega

theorem significand_pos (hx : 0 < x.magnitude) : 0 < x.significand := by
  have h := parts x
  omega

theorem le_exponent (x : Binary64) : -1074 ≤ x.exponent := by
  have h := parts x
  omega

theorem exponent_le (hx : x.magnitude < infinityBits) : x.exponent ≤ 971 := by
  have h := parts x
  simp only [infinityBits, Nat.pow_eq] at hx
  omega

/-- The absolute value of a finite word. -/
def absValue (x : Binary64) : ℚ := x.significand * 2 ^ x.exponent

theorem toRatio_snd_pos (x : Binary64) : 0 < x.toRatio.2 := by
  unfold toRatio
  split
  · exact one_pos
  · rw [Nat.shiftLeft_eq]
    positivity

theorem toRatio_div (x : Binary64) : (x.toRatio.1 / x.toRatio.2 : ℚ) = x.absValue := by
  unfold toRatio absValue
  split
  · rename_i h
    obtain ⟨k, hk⟩ := Int.eq_ofNat_of_zero_le h
    simp [hk, Nat.shiftLeft_eq]
  · obtain ⟨k, hk⟩ : ∃ k : Nat, x.exponent = -(k : Int) := ⟨(-x.exponent).toNat, by omega⟩
    simp [hk, Nat.shiftLeft_eq, div_eq_mul_inv]

/-! ### What is near a word is read as the word -/

/-- The step down to the next word; it is half the step up where a binade begins. -/
def stepBelow (x : Binary64) : ℚ :=
  if x.significand = 2 ^ 52 ∧ x.exponent ≠ -1074 then 2 ^ x.exponent / 2 else 2 ^ x.exponent

theorem stepBelow_le (x : Binary64) : x.stepBelow ≤ 2 ^ x.exponent := by
  have hpos : (0 : ℚ) < 2 ^ x.exponent := by positivity
  unfold stepBelow
  split <;> linarith

theorem nearest_of_unitAt {m : Nat} {u : Int} (hq : 0 < q) (hu : unitAt q = u)
    (hl : m - 1 / 2 < q / 2 ^ u) (hh : q / 2 ^ u < m + 1 / 2)
    (hfin : (u + 1074).toNat * 2 ^ 52 + m ≤ infinityBits) :
    nearest q = (u + 1074).toNat * 2 ^ 52 + m := by
  rw [nearest, if_neg hq.ne', hu, nearestEven_of_near (by positivity) hl hh]
  exact min_eq_left hfin

/-- A number less than half a step away from a positive finite word is read as the word. -/
theorem nearest_of_near (hx : x.magnitude < infinityBits) (hpos : 0 < x.magnitude)
    (hl : x.absValue - x.stepBelow / 2 < q) (hh : q < x.absValue + 2 ^ x.exponent / 2) :
    nearest q = x.magnitude := by
  have hm := magnitude_eq x
  have hu := le_exponent x
  have hlt : (x.significand : ℚ) + 1 ≤ 2 ^ 53 := by exact_mod_cast significand_lt x
  have hone : (1 : ℚ) ≤ x.significand := by exact_mod_cast significand_pos hpos
  have hbelow := stepBelow_le x
  have hs : (0 : ℚ) < 2 ^ x.exponent := by positivity
  unfold absValue at hl hh
  have hq : 0 < q := by nlinarith
  by_cases hbinade : 2 ^ 52 * 2 ^ x.exponent ≤ q ∨ x.exponent = -1074
  · rw [hm]
    refine nearest_of_unitAt hq (unitAt_eq hq hu hbinade (by nlinarith)) ?_ ?_ (by omega)
    · rw [lt_div_iff₀ hs]
      linarith
    · rw [div_lt_iff₀ hs]
      linarith
  · -- Then the word begins a binade, and the unit below it is half as large.
    rw [not_or, not_le] at hbinade
    obtain ⟨hlow, hne⟩ := hbinade
    have hsig : x.significand = 2 ^ 52 := by
      have hge := (le_significand_or x).resolve_right hne
      have hle : (x.significand : ℚ) < 2 ^ 52 + 1 := by nlinarith
      have hle : x.significand < 2 ^ 52 + 1 := by exact_mod_cast hle
      omega
    have hstep : x.stepBelow = 2 ^ x.exponent / 2 := if_pos ⟨hsig, hne⟩
    have hhalf : (2 ^ (x.exponent - 1) : ℚ) = 2 ^ x.exponent / 2 := by
      rw [zpow_sub_one₀ two_ne_zero, div_eq_mul_inv]
    have hcarry : x.magnitude = (x.exponent - 1 + 1074).toNat * 2 ^ 52 + 2 ^ 53 := by
      rw [hm, hsig]
      omega
    rw [hsig, hstep] at hl
    push_cast at hl
    have hs' : (0 : ℚ) < 2 ^ (x.exponent - 1) := by positivity
    have hunit : unitAt q = x.exponent - 1 := by
      refine unitAt_eq hq (by omega) (.inl ?_) ?_ <;> rw [hhalf] <;> linarith
    rw [hcarry]
    refine nearest_of_unitAt hq hunit ?_ ?_ (by omega)
    · rw [lt_div_iff₀ hs', hhalf]
      push_cast
      linarith
    · rw [div_lt_iff₀ hs', hhalf]
      push_cast
      linarith

/-! ### Seventeen digits are near enough -/

/-- The grid of seventeen digits is finer than the numbers read as a word lie apart. -/
theorem grid_lt {g : ℚ} (hg : g * 10 ^ 16 ≤ x.absValue) :
    g < x.stepBelow / 2 + 2 ^ x.exponent / 2 := by
  have hlt : (x.significand : ℚ) ≤ 2 ^ 53 := by exact_mod_cast (significand_lt x).le
  have hs : (0 : ℚ) < 2 ^ x.exponent := by positivity
  unfold absValue at hg
  unfold stepBelow
  split
  · rename_i h
    rw [h.1] at hg
    push_cast at hg
    linarith
  · nlinarith

theorem absValue_pos (hpos : 0 < x.magnitude) : 0 < x.absValue :=
  mul_pos (Nat.cast_pos.2 (significand_pos hpos)) (by positivity)

theorem log_absValue (hx : x.magnitude < infinityBits) (hpos : 0 < x.magnitude) :
    -1074 ≤ Int.log 2 x.absValue ∧ Int.log 2 x.absValue < 1024 := by
  have hq := absValue_pos hpos
  have hs : (0 : ℚ) < 2 ^ x.exponent := by positivity
  have hlt : (x.significand : ℚ) < 2 ^ 53 := by exact_mod_cast significand_lt x
  have hone : (1 : ℚ) ≤ x.significand := by exact_mod_cast significand_pos hpos
  rw [← Int.zpow_le_iff_le_log one_lt_two hq, ← Int.lt_zpow_iff_log_lt one_lt_two hq,
    Nat.cast_ofNat]
  constructor
  · calc (2 : ℚ) ^ (-1074 : Int) ≤ 2 ^ x.exponent :=
          zpow_le_zpow_right₀ one_le_two (le_exponent x)
      _ ≤ x.absValue := le_mul_of_one_le_left hs.le hone
  · calc x.absValue < 2 ^ 53 * 2 ^ x.exponent := mul_lt_mul_of_pos_right hlt hs
      _ = 2 ^ (53 + x.exponent) := by
        rw [zpow_add₀ two_ne_zero]
        rfl
      _ ≤ 2 ^ (1024 : Int) :=
        zpow_le_zpow_right₀ one_le_two (by have := exponent_le hx; omega)

end Binary64

/-! ### The order of a number -/

theorem ten_zpow_decimalOrder_le {n d : Nat} (hn : 0 < n) (hd : 0 < d)
    (hl : -20000 ≤ Int.log 2 (n / d : ℚ)) (hh : Int.log 2 (n / d : ℚ) ≤ 20000) :
    (10 : ℚ) ^ decimalOrder n d ≤ n / d := by
  have hq : (0 : ℚ) < n / d := by positivity
  have hlog := Int.zpow_log_le_self one_lt_two hq
  rw [Nat.cast_ofNat] at hlog
  have hreaches (k : Int) : (if 0 ≤ k then decide (d * Nat.pow 10 k.toNat ≤ n)
      else decide (d ≤ n * Nat.pow 10 (-k).toNat)) = true ↔ (10 : ℚ) ^ k ≤ n / d := by
    refine Iff.trans ?_ (scaled_le_iff (b := 10) (by decide) hd k)
    split <;> exact decide_eq_true_iff
  have hfdiv := Int.fdiv_eq_ediv_of_nonneg (Int.log 2 (n / d : ℚ) * 30103)
    (b := 100000) (by decide)
  unfold decimalOrder
  rw [binaryOrder_eq hn hd, hfdiv]
  generalize Int.log 2 (n / d : ℚ) = b at hl hh hlog ⊢
  have hestimate : (10 : ℚ) ^ (b * 30103 / 100000 - 1) ≤ 2 ^ b := by
    rcases le_total 0 b with hb | hb
    · exact ten_zpow_le_two_zpow hb (by omega)
    · exact ten_zpow_le_two_zpow_of_neg (by omega) (by omega)
  generalize b * 30103 / 100000 = k at hestimate ⊢
  simp only [hreaches]
  split
  · assumption
  split
  · assumption
  · exact hestimate.trans hlog

namespace Decimal

variable {x : Binary64} {s : Decimal} {n d : Nat}

/-- The number a spelling stands for. -/
def value (s : Decimal) : ℚ := s.digits * 10 ^ s.exponent

theorem value_trim (fuel : Nat) (s : Decimal) : (s.trim fuel).value = s.value := by
  induction fuel generalizing s with
  | zero => rfl
  | succ fuel ih =>
    unfold trim
    split
    · rename_i h
      have hd : (s.digits : ℚ) = (s.digits / 10 : Nat) * 10 := by
        exact_mod_cast (Nat.div_mul_cancel (Nat.dvd_of_mod_eq_zero h)).symm
      rw [ih, value, value, hd, zpow_add_one₀ (by norm_num)]
      ring
    · rfl

theorem readsAs_iff (hx : Binary64.ofMagnitude false x.magnitude = x) :
    s.readsAs x = true ↔ Binary64.nearest s.value = x.magnitude := by
  rw [readsAs, decide_eq_true_iff, Binary64.ofDecimal_eq]
  constructor
  · intro h
    rw [← h]
    refine (Binary64.magnitude_ofMagnitude false ?_).symm
    exact (Binary64.nearest_le s.value).trans_lt (by decide)
  · intro h
    rwa [← h] at hx

/-! ### The search -/

theorem readsAs_of_neighbour? {e : Int} (h : neighbour? x n d e = some s) :
    s.readsAs x = true := by
  simp only [neighbour?] at h
  generalize (if 0 ≤ e then n else n * Nat.pow 10 (-e).toNat) = num at h
  generalize (if 0 ≤ e then d * Nat.pow 10 e.toNat else d) = den at h
  cases hb : readsAs ⟨num / den, e⟩ x <;> cases ha : readsAs ⟨num / den + 1, e⟩ x <;>
    simp only [hb, ha] at h <;> cases h
  · exact ha
  · exact hb
  · split
    · exact hb
    · exact ha

theorem readsAs_of_search {order : Int} {fuel count : Nat}
    (h : search x n d order fuel count = some s) : s.readsAs x = true := by
  induction fuel generalizing count with
  | zero => cases h
  | succ fuel ih =>
    unfold search at h
    split at h
    · rename_i hs
      cases h
      exact readsAs_of_neighbour? hs
    · exact ih h

/-- A number lies between its neighbours on a grid, and if one of them reads back, one is found. -/
theorem exists_neighbour? (hd : 0 < d) {e : Int}
    (h : ∀ f : Nat, f * 10 ^ e ≤ (n / d : ℚ) → (n / d : ℚ) < (f + 1) * 10 ^ e →
      readsAs ⟨f, e⟩ x = true ∨ readsAs ⟨f + 1, e⟩ x = true) :
    ∃ s, neighbour? x n d e = some s := by
  have hgrid : (0 : ℚ) < 10 ^ e := by positivity
  have hscaled := div_scaled (b := 10) (by decide) n d e
  have hden : 0 < if 0 ≤ e then d * Nat.pow 10 e.toNat else d := by
    split
    · exact Nat.mul_pos hd (Nat.pow_pos (by decide))
    · exact hd
  simp only [← Nat.pow_eq, Nat.cast_ofNat] at hscaled
  simp only [neighbour?]
  generalize (if 0 ≤ e then n else n * Nat.pow 10 (-e).toNat) = num at hscaled ⊢
  generalize (if 0 ≤ e then d * Nat.pow 10 e.toNat else d) = den at hscaled hden ⊢
  have hfloor : ⌊(num / den : ℚ)⌋₊ = num / den := Nat.floor_div_eq_div num den
  have hl : ((num / den : Nat) : ℚ) ≤ num / den := by
    rw [← hfloor]
    exact Nat.floor_le (by positivity)
  have hh : (num / den : ℚ) < (num / den : Nat) + 1 := by
    rw [← hfloor]
    exact Nat.lt_floor_add_one _
  rw [hscaled, le_div_iff₀ hgrid] at hl
  rw [hscaled, div_lt_iff₀ hgrid] at hh
  have hreads := h (num / den) hl hh
  cases hb : readsAs ⟨num / den, e⟩ x <;> cases ha : readsAs ⟨num / den + 1, e⟩ x
  · simp [hb, ha] at hreads
  all_goals exact ⟨_, rfl⟩

theorem exists_search {order : Int} {fuel count : Nat}
    (h : ∃ s, neighbour? x n d (order - (count + fuel : Nat) + 1) = some s) :
    ∃ s, search x n d order (fuel + 1) count = some s := by
  induction fuel generalizing count with
  | zero =>
    obtain ⟨s, hs⟩ := h
    refine ⟨s, ?_⟩
    rw [search, show order - count + 1 = order - (count + 0 : Nat) + 1 by rfl, hs]
  | succ fuel ih =>
    rw [search]
    split
    · exact ⟨_, rfl⟩
    · exact ih (by rwa [Nat.add_right_comm])

end Decimal

namespace Binary64

variable {x : Binary64}

theorem nearest_neighbour {g : ℚ} (hx : x.magnitude < infinityBits) (hpos : 0 < x.magnitude)
    (hg : g * 10 ^ 16 ≤ x.absValue) {f : Nat} (hl : f * g ≤ x.absValue)
    (hh : x.absValue < (f + 1) * g) :
    nearest (f * g) = x.magnitude ∨ nearest ((f + 1) * g) = x.magnitude := by
  have hgrid := grid_lt hg
  have hs : (0 : ℚ) < 2 ^ x.exponent := by positivity
  have hb : 0 < x.stepBelow := by
    unfold stepBelow
    split <;> positivity
  rcases lt_or_ge (x.absValue - f * g) (x.stepBelow / 2) with hnear | hfar
  · exact .inl (nearest_of_near hx hpos (by linarith) (by linarith))
  · exact .inr (nearest_of_near hx hpos (by linarith) (by linarith))

theorem exists_search_decimalOrder (hx : x.magnitude < infinityBits) (hpos : 0 < x.magnitude)
    (hpositive : ofMagnitude false x.magnitude = x) :
    ∃ s, Decimal.search x x.toRatio.1 x.toRatio.2 (decimalOrder x.toRatio.1 x.toRatio.2) 17 1 =
      some s := by
  have hdiv := toRatio_div x
  have hlog := log_absValue hx hpos
  have hd := toRatio_snd_pos x
  have hn : 0 < x.toRatio.1 := by
    refine Nat.pos_of_ne_zero fun h => (absValue_pos hpos).ne ?_
    simp [← hdiv, h]
  rw [← hdiv] at hlog
  have horder := ten_zpow_decimalOrder_le hn hd (by omega) (by omega)
  rw [hdiv] at horder
  refine Decimal.exists_search (Decimal.exists_neighbour? hd fun f hl hh => ?_)
  have hgrid : (10 : ℚ) ^ (decimalOrder x.toRatio.1 x.toRatio.2 - (1 + 16 : Nat) + 1) * 10 ^ 16 ≤
      x.absValue := by
    rw [← zpow_natCast, ← zpow_add₀ (by norm_num)]
    convert horder using 2
    omega
  rw [hdiv] at hl hh
  have hreads := nearest_neighbour hx hpos hgrid hl hh
  rw [Decimal.readsAs_iff hpositive, Decimal.readsAs_iff hpositive]
  simpa [Decimal.value] using hreads

/-- The spelling with the fewest digits reads back. -/
theorem nearest_shortest (hx : x.magnitude < infinityBits) :
    nearest x.shortest.value = x.magnitude := by
  by_cases hz : x.magnitude = 0
  · simp [shortest, isZero, Decimal.value, nearest, hz]
  · have hm : (ofMagnitude false x.magnitude).magnitude = x.magnitude :=
      magnitude_ofMagnitude false (magnitude_lt x)
    have hpositive := congrArg (ofMagnitude false) hm
    obtain ⟨s, hs⟩ := exists_search_decimalOrder (hm.trans_lt hx)
      (Nat.pos_of_ne_zero (hm.trans_ne hz)) hpositive
    have hreads := Decimal.readsAs_of_search hs
    rw [Decimal.readsAs_iff hpositive, hm] at hreads
    simpa [shortest, isZero, hz, hs, Decimal.value_trim] using hreads

end Binary64

end Resilient
