import OfferLedger.Proofs.Decimal.Nearest
import Mathlib.Tactic.FieldSimp

/-! # The fewest digits of a binary number

Where binary numbers lie closer together than the decimals with some number of places, at most one such
decimal rounds to a binary number. The search for the fewest digits starts at coarser grids, whose decimals
are among these, so it finds this decimal if there is one. -/
namespace OfferLedger.Binary64

def Digits.value (d : Digits) : ℚ := d.digits * 10 ^ d.exponent

theorem ten_zpow_pos (k : ℤ) : (0 : ℚ) < 10 ^ k := zpow_pos (by norm_num) k

theorem Digits.value_of_le {d : Digits} {k : ℤ} (h : k ≤ d.exponent) :
    d.value = ((d.digits * 10 ^ (d.exponent - k).toNat : ℕ) : ℤ) * (10 : ℚ) ^ k := by
  have hsum : ((d.exponent - k).toNat : ℤ) + k = d.exponent := by omega
  rw [value]
  push_cast
  rw [← zpow_natCast, mul_assoc, ← zpow_add₀ (by norm_num), hsum]

def below (x : Binary64) (k : ℤ) : Nat :=
  x.mantissa * twoUp x.exponent * Nat.pow 10 (-k).toNat / (twoDown x.exponent * Nat.pow 10 k.toNat)

theorem below_spec (x : Binary64) (k : ℤ) :
    (x.below k : ℚ) ≤ x.value / 10 ^ k ∧ x.value / 10 ^ k < x.below k + 1 := by
  have hden : 0 < twoDown x.exponent * Nat.pow 10 k.toNat :=
    Nat.mul_pos (Nat.pow_pos (by decide)) (Nat.pow_pos (by decide))
  have hquotient : ((x.mantissa * twoUp x.exponent * Nat.pow 10 (-k).toNat : Nat) : ℚ) /
      (twoDown x.exponent * Nat.pow 10 k.toNat : Nat) = x.value / 10 ^ k := by
    have hdown := (twoDown_pos x.exponent).ne'
    have hten := (ten_zpow_pos k).ne'
    rw [value, Nat.pow_eq, Nat.pow_eq]
    push_cast
    rw [twoUp_eq, pow_toNat (by norm_num) k]
    field_simp
  have hcast : (0 : ℚ) < (twoDown x.exponent * Nat.pow 10 k.toNat : Nat) := by exact_mod_cast hden
  rw [← hquotient, below, le_div_iff₀ hcast, div_lt_iff₀ hcast]
  generalize x.mantissa * twoUp x.exponent * Nat.pow 10 (-k).toNat = num
  generalize twoDown x.exponent * Nat.pow 10 k.toNat = den at hden
  have hlt := Nat.lt_div_mul_add hden (a := num)
  rw [← Nat.succ_mul] at hlt
  exact ⟨by exact_mod_cast Nat.div_mul_le_self num den, by exact_mod_cast hlt⟩

/-- The search ends at a decimal that rounds to the number, at the latest on a grid on which one of the two
neighbours of the number does. -/
theorem searchDigits_spec {x : Binary64} {k : ℤ}
    (hhit : 0 < x.below k ∧ x.holdsDecimal (x.below k) k = true ∨
      x.holdsDecimal (x.below k + 1) k = true)
    (tie : Tie) {fuel : Nat} {start : ℤ} (hstart : k ≤ start) (hfuel : start - k < fuel) :
    x.Holds (x.searchDigits tie fuel start).value ∧ k ≤ (x.searchDigits tie fuel start).exponent := by
  induction fuel generalizing start with
  | zero => omega
  | succ fuel ih =>
    have hlow : ∀ {c : Nat}, x.holdsDecimal c start = true → x.Holds (Digits.value ⟨c, start⟩) :=
      fun h => (holdsDecimal_iff x _ start).mp h
    rw [searchDigits]
    dsimp only
    rw [← below]
    split_ifs with hboth hupper hlower hhigher
    · exact ⟨hlow (Bool.and_eq_true_iff.mp hboth).2, hstart⟩
    · exact ⟨hlow (Bool.and_eq_true_iff.mp (Bool.and_eq_true_iff.mp hboth).1).2, hstart⟩
    · exact ⟨hlow (Bool.and_eq_true_iff.mp hlower).2, hstart⟩
    · exact ⟨hlow hhigher, hstart⟩
    · have hne : k ≠ start := by
        rintro rfl
        rcases hhit with ⟨hpos, h⟩ | h
        · exact hlower (by simp [hpos, h])
        · exact hhigher h
      exact ih (by omega) (by omega)

section

variable {x : Binary64} (hx : x.Normal) {k : ℤ} (hunit : (2 : ℚ) ^ x.exponent < 10 ^ k)
include hx hunit

theorem Holds.near_grid {n : ℤ} (h : x.Holds (n * 10 ^ k)) :
    (n : ℚ) - 1 / 2 < x.value / 10 ^ k ∧ x.value / 10 ^ k < n + 1 / 2 := by
  have hten := ten_zpow_pos k
  have htwo := two_zpow_pos x.exponent
  obtain ⟨hlow, hhigh⟩ := h.near_scaled hx
  rw [le_div_iff₀ htwo] at hlow
  rw [div_le_iff₀ htwo] at hhigh
  rw [lt_div_iff₀ hten, div_lt_iff₀ hten, value]
  constructor <;> linarith

theorem Holds.unique {m n : ℤ} (hm : x.Holds (m * 10 ^ k)) (hn : x.Holds (n * 10 ^ k)) : m = n := by
  obtain ⟨hm₁, hm₂⟩ := hm.near_grid hx hunit
  obtain ⟨hn₁, hn₂⟩ := hn.near_grid hx hunit
  have hlt : m < n + 1 := by
    have h : (m : ℚ) < n + 1 := by linarith
    exact_mod_cast h
  have hgt : n < m + 1 := by
    have h : (n : ℚ) < m + 1 := by linarith
    exact_mod_cast h
  omega

theorem Holds.below_hits {n : Nat} (hpos : 0 < n) (h : x.Holds (n * 10 ^ k)) :
    0 < x.below k ∧ x.holdsDecimal (x.below k) k = true ∨ x.holdsDecimal (x.below k + 1) k = true := by
  have hdecimal := (holdsDecimal_iff x n k).mpr h
  have hcast : x.Holds (((n : ℤ) : ℚ) * 10 ^ k) := by simpa using h
  obtain ⟨hnear₁, hnear₂⟩ := hcast.near_grid hx hunit
  obtain ⟨hbelow₁, hbelow₂⟩ := x.below_spec k
  push_cast at hnear₁ hnear₂
  have hle : x.below k < n + 1 := by
    have h : (x.below k : ℚ) < n + 1 := by linarith
    exact_mod_cast h
  have hge : n < x.below k + 2 := by
    have h : (n : ℚ) < x.below k + 2 := by linarith
    exact_mod_cast h
  rcases (show n = x.below k ∨ n = x.below k + 1 by omega) with heq | heq
  · exact .inl ⟨heq ▸ hpos, heq ▸ hdecimal⟩
  · exact .inr (heq ▸ hdecimal)

theorem searchDigits_value {n : Nat} (hpos : 0 < n) (h : x.Holds (n * 10 ^ k)) (tie : Tie) {fuel : Nat}
    {start : ℤ} (hstart : k ≤ start) (hfuel : start - k < fuel) :
    (x.searchDigits tie fuel start).value = n * 10 ^ k ∧
      k ≤ (x.searchDigits tie fuel start).exponent := by
  obtain ⟨hholds, hexponent⟩ := searchDigits_spec (h.below_hits hx hunit hpos) tie hstart hfuel
  have hcast : x.Holds (((n : ℤ) : ℚ) * 10 ^ k) := by simpa using h
  have hgrid := Digits.value_of_le hexponent
  rw [hgrid] at hholds
  have heq := hholds.unique hx hunit hcast
  refine ⟨?_, hexponent⟩
  rw [hgrid, heq, Int.cast_natCast]

end

theorem ten_zpow_lt {x : Binary64} (hx : x.Normal) {n : Nat} (hpos : 0 < n) {k : ℤ}
    (h : x.Holds (n * 10 ^ k)) : (10 : ℚ) ^ k < 2 ^ (x.exponent + 53) := by
  have hmantissa : (x.mantissa : ℚ) + 1 ≤ 2 ^ 53 := by exact_mod_cast hx.mantissa_lt
  have hone : (1 : ℚ) ≤ n := by exact_mod_cast hpos
  have hhigh := (h.near_scaled hx).2
  rw [div_le_iff₀ (two_zpow_pos _)] at hhigh
  calc (10 : ℚ) ^ k
    _ ≤ n * 10 ^ k := le_mul_of_one_le_left (ten_zpow_pos _).le hone
    _ ≤ (x.mantissa + 1 / 2) * 2 ^ x.exponent := hhigh
    _ < 2 ^ 53 * 2 ^ x.exponent := mul_lt_mul_of_pos_right (by linarith) (two_zpow_pos _)
    _ = 2 ^ (x.exponent + 53) := by
      rw [← zpow_natCast, ← zpow_add₀ (by norm_num), add_comm]
      rfl

theorem start_bounds {x : Binary64} (hx : x.Normal) {n k : Nat} (hpos : 0 < n) (hk : k ≤ 6)
    (h : x.Holds (n * 10 ^ (-k : ℤ))) (hunit : (2 : ℚ) ^ x.exponent < 10 ^ (-k : ℤ)) :
    (-k : ℤ) ≤ (x.exponent + 53) * 30103 / 100000 + 1 ∧
      (x.exponent + 53) * 30103 / 100000 + 1 - (-k : ℤ) < 40 := by
  have hten : (10 : ℚ) ^ k ≤ 2 ^ ((10 * k + 2) / 3) := by
    have hpow : ∀ k < 7, 10 ^ k ≤ 2 ^ ((10 * k + 2) / 3) := by decide
    exact_mod_cast hpow k (by omega)
  have hlow : -((10 * k + 2) / 3 : ℕ) < x.exponent + 53 := by
    have hle : (2 : ℚ) ^ (-((10 * k + 2) / 3 : ℕ) : ℤ) ≤ 10 ^ (-k : ℤ) := by
      rw [zpow_neg, zpow_neg, zpow_natCast, zpow_natCast]
      exact inv_anti₀ (by positivity) hten
    exact (zpow_lt_zpow_iff_right₀ (by norm_num)).mp (lt_of_le_of_lt hle (ten_zpow_lt hx hpos h))
  have hhigh : x.exponent < 0 := by
    have hle : (10 : ℚ) ^ (-k : ℤ) ≤ 2 ^ (0 : ℤ) := by
      rw [zpow_zero]
      exact zpow_le_one_of_nonpos₀ (by norm_num) (by omega)
    exact (zpow_lt_zpow_iff_right₀ (by norm_num)).mp (lt_of_lt_of_le hunit hle)
  omega

/-- A decimal with at most six places is found again in the number that it rounds to, where binary numbers
lie closer together than such decimals. -/
theorem shortest_value {x : Binary64} (hx : x.Normal) {n k : Nat} (hpos : 0 < n) (hk : k ≤ 6)
    (h : x.Holds (n / 10 ^ k)) (hunit : (2 : ℚ) ^ x.exponent * 10 ^ k < 1) (tie : Tie) :
    (x.shortest tie).value = n / 10 ^ k ∧ (-k : ℤ) ≤ (x.shortest tie).exponent := by
  have hten : (0 : ℚ) < 10 ^ k := by positivity
  have hgrid : (n : ℚ) / 10 ^ k = n * 10 ^ (-k : ℤ) := by rw [zpow_neg, zpow_natCast, div_eq_mul_inv]
  have hunit : (2 : ℚ) ^ x.exponent < 10 ^ (-k : ℤ) := by
    rw [zpow_neg, zpow_natCast, ← one_div]
    exact (lt_div_iff₀ hten).mpr hunit
  rw [hgrid] at h ⊢
  have hmantissa : x.mantissa ≠ 0 := by
    have := hx.le_mantissa
    omega
  obtain ⟨hstart, hfuel⟩ := start_bounds hx hpos hk h hunit
  rw [shortest, if_neg hmantissa]
  exact searchDigits_value hx hunit hpos h tie hstart hfuel

theorem exists_shortest {n k e : Nat} (hk : 0 < k) (hk' : k ≤ 6) (hn : n < 2 ^ e * 10 ^ k)
    (hspace : 2 ^ e * 10 ^ k < 2 ^ 53) (negative : Bool) :
    ∃ x, ofScientific negative n (-k) = some x ∧ x.negative = negative ∧
      ∀ tie, (x.shortest tie).value = n / 10 ^ k ∧ (-k : ℤ) ≤ (x.shortest tie).exponent := by
  by_cases hzero : n = 0
  · subst hzero
    refine ⟨⟨negative, 0, -1074⟩, rfl, rfl, fun tie => ⟨?_, ?_⟩⟩
    · simp [shortest, Digits.value]
    · simp [shortest]
  have hpos := Nat.pos_of_ne_zero hzero
  obtain ⟨x, hx, hsign, hnormal, hholds⟩ :=
    exists_ofScientific hpos (hn.trans hspace) hk (by omega) negative
  have hten : (0 : ℚ) < 10 ^ k := by positivity
  have hunit : (2 : ℚ) ^ ((e : ℤ) - 53) * 10 ^ k < 1 := by
    have hlt : (2 : ℚ) ^ e * 10 ^ k < 2 ^ 53 := by exact_mod_cast hspace
    rw [zpow_sub₀ (by norm_num), zpow_natCast, div_mul_eq_mul_div, div_lt_one (two_zpow_pos _)]
    exact hlt
  -- The decimal before the power of two is already more than a unit below it.
  have hexponent : x.exponent ≤ (e : ℤ) - 53 := by
    apply hholds.exponent_le hnormal
    have hnext : (n : ℚ) + 1 ≤ 2 ^ e * 10 ^ k := by exact_mod_cast hn
    have hpower : (2 : ℚ) ^ 53 * 2 ^ ((e : ℤ) - 53) = 2 ^ e := by
      rw [← zpow_natCast, ← zpow_natCast, ← zpow_add₀ (by norm_num)]
      congr 1
      omega
    rw [div_le_iff₀ hten, sub_mul, hpower]
    linarith
  have hpow : (2 : ℚ) ^ x.exponent ≤ 2 ^ ((e : ℤ) - 53) := zpow_le_zpow_right₀ (by norm_num) hexponent
  have hx' := lt_of_le_of_lt (mul_le_mul_of_nonneg_right hpow hten.le) hunit
  exact ⟨x, hx, hsign, fun tie => shortest_value hnormal hpos hk' hholds hx' tie⟩

end OfferLedger.Binary64
