import Mathlib.Algebra.Order.Field.Power
import Mathlib.Algebra.Order.Floor.Semifield
import Mathlib.Data.Int.Log
import Mathlib.Data.Rat.Floor
import Mathlib.Tactic.FieldSimp
import Mathlib.Tactic.Linarith
import Mathlib.Tactic.NormNum
import Mathlib.Tactic.Positivity
import Mathlib.Tactic.Ring
import Resilient.Decimal.Rounding

/-!
# Rounding depends on the number alone

`Binary64.nearest` is the magnitude nearest to a rational number. Reading a quotient or a decimal
spelling computes it (`ofRatio_eq`, `ofDecimal_eq`), so two spellings of one number are read alike.
`nearest_of_near` says which numbers are read as a given word.
-/

namespace Resilient

/-! ### Quotients scaled by powers -/

section Scaling

variable {b n d : Nat}

/-- A power is taken out of a quotient on the side where it is a whole number. -/
theorem div_scaled (hb : 0 < b) (n d : Nat) (k : Int) :
    ((if 0 ≤ k then n else n * b ^ (-k).toNat : Nat) : ℚ) /
      (if 0 ≤ k then d * b ^ k.toNat else d : Nat) = n / d / (b : ℚ) ^ k := by
  have hb : (b : ℚ) ≠ 0 := by positivity
  by_cases hk : 0 ≤ k
  · obtain ⟨j, rfl⟩ := Int.eq_ofNat_of_zero_le hk
    simp [div_div]
  · obtain ⟨j, rfl⟩ : ∃ j : Nat, k = -(j : Int) := ⟨(-k).toNat, by omega⟩
    simp only [hk, ite_false, neg_neg, Int.toNat_natCast, Nat.cast_mul, Nat.cast_pow, zpow_neg,
      zpow_natCast, div_inv_eq_mul]
    ring

theorem le_iff_one_le_div (hd : 0 < d) : d ≤ n ↔ (1 : ℚ) ≤ n / d := by
  rw [one_le_div (Nat.cast_pos.2 hd), Nat.cast_le]

/-- A power is at most a quotient if, on the side where it is a whole number, it is. -/
theorem scaled_le_iff (hb : 0 < b) (hd : 0 < d) (k : Int) :
    (if 0 ≤ k then d * b ^ k.toNat ≤ n else d ≤ n * b ^ (-k).toNat) ↔
      (b : ℚ) ^ k ≤ n / d := by
  have hpow : (0 : ℚ) < (b : ℚ) ^ k := by positivity
  rw [← one_le_div hpow, ← div_scaled hb]
  by_cases hk : 0 ≤ k
  · simp only [hk, ite_true]
    exact le_iff_one_le_div (by positivity)
  · simp only [hk, ite_false]
    exact le_iff_one_le_div hd

theorem log_eq {q : ℚ} {k : Int} (hb : 1 < b) (hq : 0 < q) (hl : (b : ℚ) ^ k ≤ q)
    (hu : q < (b : ℚ) ^ (k + 1)) : Int.log b q = k := by
  have hl := (Int.zpow_le_iff_le_log hb hq).1 hl
  have hu := (Int.lt_zpow_iff_log_lt hb hq).1 hu
  omega

end Scaling

theorem binaryOrder_eq {n d : Nat} (hn : 0 < n) (hd : 0 < d) :
    binaryOrder n d = Int.log 2 (n / d : ℚ) := by
  have hq : (0 : ℚ) < n / d := by positivity
  have hlow : (2 : ℚ) ^ (n.log2 - d.log2 - 1 : Int) ≤ n / d := by
    have hn' : ((2 ^ n.log2 : Nat) : ℚ) ≤ n := Nat.cast_le.2 (Nat.log2_self_le hn.ne')
    have hd' : (d : ℚ) ≤ (2 ^ (d.log2 + 1) : Nat) := Nat.cast_le.2 Nat.lt_log2_self.le
    rw [sub_sub, zpow_sub₀ two_ne_zero,
      div_le_div_iff₀ (by positivity) (Nat.cast_pos.2 hd)]
    exact_mod_cast mul_le_mul hn' hd' (by positivity) (by positivity)
  have hhigh : (n / d : ℚ) < 2 ^ (n.log2 - d.log2 + 1 : Int) := by
    have hn' : (n : ℚ) < (2 ^ (n.log2 + 1) : Nat) := Nat.cast_lt.2 Nat.lt_log2_self
    have hd' : ((2 ^ d.log2 : Nat) : ℚ) ≤ d := Nat.cast_le.2 (Nat.log2_self_le hd.ne')
    rw [sub_add_eq_add_sub, zpow_sub₀ two_ne_zero,
      div_lt_div_iff₀ (Nat.cast_pos.2 hd) (by positivity)]
    exact_mod_cast mul_lt_mul hn' hd' (by positivity) (by positivity)
  have hfits := scaled_le_iff (b := 2) (n := n) two_pos hd (n.log2 - d.log2)
  simp only [binaryOrder, Nat.shiftLeft_eq]
  by_cases h : (2 : ℚ) ^ (n.log2 - d.log2 : Int) ≤ n / d
  · rw [if_pos (hfits.2 h), log_eq one_lt_two hq h hhigh]
  · rw [if_neg fun hf => h (hfits.1 hf), log_eq one_lt_two hq hlow (by simpa using h)]

/-! ### The nearest whole number -/

/-- The whole number nearest to `q`; a tie goes to the even one. -/
def nearestEven (q : ℚ) : Nat :=
  if 2 * (q - ⌊q⌋₊) < 1 ∨ 2 * (q - ⌊q⌋₊) = 1 ∧ ⌊q⌋₊ % 2 = 0 then ⌊q⌋₊ else ⌊q⌋₊ + 1

theorem roundHalfEven_eq (n : Nat) {d : Nat} (hd : 0 < d) :
    roundHalfEven n d = nearestEven (n / d) := by
  have hd : (0 : ℚ) < d := by positivity
  have hfloor : ⌊(n / d : ℚ)⌋₊ = n / d := Nat.floor_div_eq_div n d
  have hrest : 2 * ((n / d : ℚ) - (n / d : Nat)) = (2 * (n % d) : Nat) / d := by
    have hn : (n : ℚ) = d * (n / d : Nat) + (n % d : Nat) := by
      exact_mod_cast (Nat.div_add_mod n d).symm
    push_cast
    field_simp
    linarith
  unfold roundHalfEven nearestEven
  simp only [hfloor, hrest, div_lt_one hd, div_eq_one_iff_eq hd.ne', Nat.cast_lt, Nat.cast_inj,
    Bool.or_eq_true, Bool.and_eq_true, decide_eq_true_eq]

theorem nearestEven_of_near {q : ℚ} {m : Nat} (hq : 0 ≤ q) (hl : m - 1 / 2 < q)
    (hu : q < m + 1 / 2) : nearestEven q = m := by
  unfold nearestEven
  by_cases hm : (m : ℚ) ≤ q
  · have hfloor : ⌊q⌋₊ = m := (Nat.floor_eq_iff hq).2 ⟨hm, by linarith⟩
    rw [hfloor, if_pos (.inl (by linarith))]
  · -- Then `q` lies in the upper half of the step below `m`.
    obtain ⟨k, rfl⟩ : ∃ k, m = k + 1 := by
      refine Nat.exists_eq_add_one.2 (Nat.pos_of_ne_zero ?_)
      rintro rfl
      exact hm (by simpa using hq)
    push_cast at hm hl
    have hfloor : ⌊q⌋₊ = k := (Nat.floor_eq_iff hq).2 ⟨by linarith, by linarith⟩
    rw [hfloor, if_neg]
    rintro (h | ⟨h, -⟩) <;> linarith

namespace Binary64

/-! ### The nearest magnitude -/

/-- The exponent of the unit in the last place at a positive number. -/
def unitAt (q : ℚ) : Int := max (Int.log 2 q - 52) (-1074)

/-- The magnitude nearest to a number that is not negative; a tie goes to the even one, and what is
too large to infinity, `2047 * 2 ^ 52`. -/
def nearest (q : ℚ) : Nat :=
  if q = 0 then 0
  else min ((unitAt q + 1074).toNat * 2 ^ 52 + nearestEven (q / 2 ^ unitAt q)) (2047 * 2 ^ 52)

theorem nearest_le (q : ℚ) : nearest q ≤ infinityBits := by
  unfold nearest
  split
  · exact Nat.zero_le _
  · exact min_le_right _ _

theorem bits_ofMagnitude (negative : Bool) {m : Nat} (h : m < 2 ^ 63) :
    (ofMagnitude negative m).bits.toNat = (if negative then 2 ^ 63 else 0) + m := by
  simp only [ofMagnitude, UInt64.toNat_ofNat', Nat.pow_eq]
  split <;> omega

theorem eq_ofMagnitude {x : Binary64} {m : Nat} (negative : Bool)
    (h : x.bits.toNat = (if negative then 2 ^ 63 else 0) + m) : x = ofMagnitude negative m := by
  rw [ofMagnitude, Nat.pow_eq, ← h, UInt64.ofNat_toNat]

theorem ofRatio_eq (negative : Bool) (n : Nat) {d : Nat} (hd : 0 < d) :
    ofRatio negative n d = ofMagnitude negative (nearest (n / d)) := by
  unfold ofRatio nearest
  by_cases hn : n = 0
  · simp [hn]
  · have hq : (n / d : ℚ) ≠ 0 := by positivity
    rw [if_neg hn, if_neg hq, binaryOrder_eq (Nat.pos_of_ne_zero hn) hd]
    show ofMagnitude negative (min ((unitAt (n / d) + 1074).toNat * 2 ^ 52 + _) _) = _
    congr 3
    have hscaled := div_scaled (b := 2) two_pos n d (unitAt (n / d))
    rw [Nat.cast_ofNat] at hscaled
    rw [← hscaled, ← unitAt]
    split
    · rw [roundHalfEven_eq _ (by rw [Nat.shiftLeft_eq]; positivity), Nat.shiftLeft_eq]
    · rw [roundHalfEven_eq _ hd, Nat.shiftLeft_eq]

theorem unitAt_eq {q : ℚ} {u : Int} (hq : 0 < q) (hu : -1074 ≤ u)
    (hl : 2 ^ 52 * 2 ^ u ≤ q ∨ u = -1074) (hh : q < 2 ^ 53 * 2 ^ u) : unitAt q = u := by
  have h₅₂ : (2 ^ 52 * 2 ^ u : ℚ) = (2 : Nat) ^ (52 + u) := by
    rw [Nat.cast_ofNat, zpow_add₀ two_ne_zero]
    rfl
  have h₅₃ : (2 ^ 53 * 2 ^ u : ℚ) = (2 : Nat) ^ (53 + u) := by
    rw [Nat.cast_ofNat, zpow_add₀ two_ne_zero]
    rfl
  rw [h₅₂, Int.zpow_le_iff_le_log one_lt_two hq] at hl
  rw [h₅₃, Int.lt_zpow_iff_log_lt one_lt_two hq] at hh
  unfold unitAt
  omega

/-! ### What is too large or too small -/

theorem nearest_of_large {q : ℚ} (hq : 0 < q) (h : 2 ^ (1025 : Int) ≤ q) :
    nearest q = infinityBits := by
  have hlog : 1025 ≤ Int.log 2 q := (Int.zpow_le_iff_le_log one_lt_two hq).1 h
  have hunit : 2047 ≤ (unitAt q + 1074).toNat := by
    unfold unitAt
    omega
  rw [nearest, if_neg hq.ne']
  exact min_eq_right (Nat.le_add_right_of_le (Nat.mul_le_mul_right _ hunit))

theorem nearest_of_small {q : ℚ} (hq : 0 < q) (h : q < 2 ^ (-1075 : Int)) : nearest q = 0 := by
  have hlog : Int.log 2 q < -1075 := (Int.lt_zpow_iff_log_lt one_lt_two hq).1 h
  have hunit : unitAt q = -1074 := by
    unfold unitAt
    omega
  have hhalf : q / 2 ^ (-1074 : Int) < 1 / 2 := by
    rw [div_lt_iff₀ (by positivity)]
    rwa [show (-1075 : Int) = -1 + -1074 by rfl, zpow_add₀ two_ne_zero, zpow_neg_one,
      ← one_div] at h
  have hnonneg : 0 ≤ q / 2 ^ (-1074 : Int) := by positivity
  have hm : nearestEven (q / 2 ^ (-1074 : Int)) = 0 := by
    generalize q / 2 ^ (-1074 : Int) = r at hhalf hnonneg ⊢
    exact nearestEven_of_near hnonneg (by push_cast; linarith) (by push_cast; linarith)
  rw [nearest, if_neg hq.ne', hunit, hm]
  rfl

end Binary64

/-! ### Decimal spellings -/

theorem zpow_le_zpow_of_pow_le {x y : ℚ} {r s : Nat} {i j : Int} (hx : 1 ≤ x) (hy : 0 ≤ y)
    (hr : r ≠ 0) (h : x ^ s ≤ y ^ r) (hj : 0 ≤ j) (hij : r * i ≤ s * j) : x ^ i ≤ y ^ j := by
  obtain ⟨n, rfl⟩ := Int.eq_ofNat_of_zero_le hj
  have hx₀ : 0 ≤ x := zero_le_one.trans hx
  refine le_of_pow_le_pow_left₀ hr (by positivity) ?_
  calc (x ^ i) ^ r = x ^ (r * i) := by rw [mul_comm, zpow_mul, zpow_natCast]
    _ ≤ x ^ (s * n : Int) := zpow_le_zpow_right₀ hx hij
    _ = (x ^ s) ^ n := by rw [zpow_mul, zpow_natCast, zpow_natCast]
    _ ≤ (y ^ r) ^ n := pow_le_pow_left₀ (by positivity) h n
    _ = (y ^ (n : Int)) ^ r := by rw [zpow_natCast, ← pow_mul, ← pow_mul, mul_comm]

theorem two_zpow_le_ten_zpow {b a : Int} (ha : 0 ≤ a) (h : 28 * b ≤ 93 * a) :
    (2 : ℚ) ^ b ≤ 10 ^ a :=
  zpow_le_zpow_of_pow_le (r := 28) (s := 93) (by norm_num) (by norm_num) (by decide)
    (by norm_num) ha h

theorem ten_zpow_le_two_zpow {a b : Int} (hb : 0 ≤ b) (h : 196 * a ≤ 59 * b) :
    (10 : ℚ) ^ a ≤ 2 ^ b :=
  zpow_le_zpow_of_pow_le (r := 196) (s := 59) (by norm_num) (by norm_num) (by decide)
    (by norm_num) hb h

theorem ten_zpow_le_two_zpow_of_neg {a b : Int} (ha : a ≤ 0) (h : 93 * a ≤ 28 * b) :
    (10 : ℚ) ^ a ≤ 2 ^ b := by
  have hinv := two_zpow_le_ten_zpow (b := -b) (a := -a) (by omega) (by omega)
  rw [zpow_neg, zpow_neg] at hinv
  exact (inv_le_inv₀ (by positivity) (by positivity)).1 hinv

namespace Binary64

/-- Reading a decimal spelling rounds the number it stands for. -/
theorem ofDecimal_eq (negative : Bool) (digits : Nat) (exponent : Int) :
    ofDecimal negative digits exponent =
      ofMagnitude negative (nearest (digits * 10 ^ exponent)) := by
  unfold ofDecimal
  by_cases hd : digits = 0
  · simp [hd, nearest]
  have hd₀ : 0 < digits := Nat.pos_of_ne_zero hd
  have hd₁ : (1 : ℚ) ≤ digits := Nat.one_le_cast.2 hd₀
  have hq : (0 : ℚ) < digits * 10 ^ exponent := by positivity
  rw [if_neg hd]
  split
  · rename_i h
    rw [nearest_of_large hq]
    calc (2 : ℚ) ^ (1025 : Int) ≤ 10 ^ exponent := two_zpow_le_ten_zpow (by omega) (by omega)
      _ ≤ digits * 10 ^ exponent := le_mul_of_one_le_left (by positivity) hd₁
  split
  · rename_i h
    rw [nearest_of_small hq]
    have hdigits : (digits : ℚ) < 10 ^ (digits.log2 / 3 + 1 : Int) := by
      calc (digits : ℚ) < (2 ^ (digits.log2 + 1) : Nat) := Nat.cast_lt.2 Nat.lt_log2_self
        _ = 2 ^ (digits.log2 + 1 : Int) := by push_cast; exact_mod_cast rfl
        _ ≤ _ := two_zpow_le_ten_zpow (by omega) (by omega)
    calc digits * (10 : ℚ) ^ exponent < 10 ^ (digits.log2 / 3 + 1 : Int) * 10 ^ exponent := by
          gcongr
      _ = 10 ^ (digits.log2 / 3 + 1 + exponent : Int) := by rw [← zpow_add₀ (by norm_num)]
      _ ≤ 2 ^ (-1075 : Int) := ten_zpow_le_two_zpow_of_neg (by omega) (by omega)
  split
  · rename_i h
    rw [ofRatio_eq _ _ one_pos]
    obtain ⟨k, rfl⟩ := Int.eq_ofNat_of_zero_le h
    simp
  · rw [ofRatio_eq (d := Nat.pow 10 _) _ _ (Nat.pow_pos (by decide))]
    obtain ⟨k, rfl⟩ : ∃ k : Nat, exponent = -(k : Int) := ⟨(-exponent).toNat, by omega⟩
    simp [div_eq_mul_inv]

end Binary64

end Resilient
