import OfferLedger.Decimal.Binary64
import Mathlib.Algebra.Order.Field.Basic
import Mathlib.Algebra.Order.Field.Power
import Mathlib.Data.Rat.Cast.Order
import Mathlib.Tactic.Linarith
import Mathlib.Tactic.NormNum
import Mathlib.Tactic.Ring

/-! # Rounding to a binary number

The values that round to a binary number lie in an interval around it, and the number nearest to a quotient
is one in whose interval the quotient lies. Whole numbers below 2^53 are binary numbers, so a significand
below this bound loses nothing, and its quotient by a power of ten is rounded once only. -/
namespace OfferLedger.Binary64

def value (x : Binary64) : ℚ := x.mantissa * 2 ^ x.exponent

def lower (x : Binary64) : ℚ := x.lowerQuarters / 4 * 2 ^ x.exponent

def upper (x : Binary64) : ℚ := x.upperQuarters / 4 * 2 ^ x.exponent

/-- The value rounds to the number. The ends of the interval belong to an even mantissa. -/
def Holds (x : Binary64) (v : ℚ) : Prop :=
  (x.lower ≤ v ∧ v ≤ x.upper) ∧ (x.mantissa % 2 = 1 → x.lower < v ∧ v < x.upper)

structure Normal (x : Binary64) : Prop where
  le_mantissa : 2 ^ 52 ≤ x.mantissa
  mantissa_lt : x.mantissa < 2 ^ 53
  lt_exponent : -1074 < x.exponent

theorem two_zpow_pos (e : ℤ) : (0 : ℚ) < 2 ^ e := zpow_pos (by norm_num) e

theorem pow_toNat {b : ℚ} (hb : b ≠ 0) (k : ℤ) : b ^ k.toNat = b ^ k * b ^ (-k).toNat := by
  rw [← zpow_natCast, ← zpow_natCast, ← zpow_add₀ hb]
  congr 1
  omega

theorem twoUp_eq (e : ℤ) : (twoUp e : ℚ) = 2 ^ e * twoDown e := by
  rw [twoUp, twoDown, Nat.pow_eq, Nat.pow_eq]
  push_cast
  exact pow_toNat (by norm_num) e

theorem twoDown_pos (e : ℤ) : (0 : ℚ) < twoDown e := by
  rw [twoDown, Nat.pow_eq]
  positivity

/-- A fraction with a power of two on the side that its exponent asks for. -/
theorem div_twoUp (num den : Nat) (e : ℤ) :
    ((num * twoDown e : Nat) : ℚ) / (den * twoUp e : Nat) = num / den / 2 ^ e := by
  have hdown := (twoDown_pos e).ne'
  have htwo := (two_zpow_pos e).ne'
  push_cast
  rw [twoUp_eq, div_div, ← mul_assoc, mul_div_mul_right _ _ hdown]

theorem holdsDecimal_iff (x : Binary64) (c : Nat) (k : ℤ) :
    x.holdsDecimal c k = true ↔ x.Holds (c * 10 ^ k) := by
  let scale : ℚ := twoDown (x.exponent - 2) * 10 ^ (-k).toNat
  have hscale : 0 < scale := mul_pos (twoDown_pos _) (by positivity)
  have hquarter : (2 : ℚ) ^ (x.exponent - 2) = 2 ^ x.exponent / 4 := by
    rw [zpow_sub₀ (by norm_num)]
    norm_num
  have hside : ∀ q : Nat, ((q * (twoUp (x.exponent - 2) * Nat.pow 10 (-k).toNat) : Nat) : ℚ) =
      (q : ℚ) / 4 * 2 ^ x.exponent * scale := by
    intro q
    rw [Nat.pow_eq]
    push_cast
    rw [twoUp_eq, hquarter]
    ring
  have hpoint : ((c * Nat.pow 10 k.toNat * twoDown (x.exponent - 2) : Nat) : ℚ) = c * 10 ^ k * scale := by
    rw [Nat.pow_eq]
    push_cast
    rw [pow_toNat (by norm_num) k]
    ring
  unfold holdsDecimal
  dsimp only
  split <;>
    simp only [Bool.and_eq_true, decide_eq_true_eq, ← Nat.cast_le (α := ℚ), ← Nat.cast_lt (α := ℚ),
      hside, hpoint, mul_le_mul_iff_left₀ hscale, mul_lt_mul_iff_left₀ hscale]
  · rename_i heven
    exact ⟨fun h => ⟨h, fun hodd => absurd hodd (by omega)⟩, fun h => h.1⟩
  · rename_i hodd
    exact ⟨fun h => ⟨⟨h.1.le, h.2.le⟩, fun _ => h⟩, fun h => h.2 (by omega)⟩

theorem holds_iff_scaled (x : Binary64) (v : ℚ) :
    x.Holds v ↔
      ((x.lowerQuarters : ℚ) / 4 ≤ v / 2 ^ x.exponent ∧ v / 2 ^ x.exponent ≤ x.upperQuarters / 4) ∧
      (x.mantissa % 2 = 1 →
        (x.lowerQuarters : ℚ) / 4 < v / 2 ^ x.exponent ∧ v / 2 ^ x.exponent < x.upperQuarters / 4) := by
  have htwo := two_zpow_pos x.exponent
  rw [le_div_iff₀ htwo, div_le_iff₀ htwo, lt_div_iff₀ htwo, div_lt_iff₀ htwo]
  rfl

theorem upperQuarters_eq (x : Binary64) : (x.upperQuarters : ℚ) / 4 = x.mantissa + 1 / 2 := by
  rw [upperQuarters]
  push_cast
  ring

theorem lowerQuarters_eq {x : Binary64} (hx : 1 ≤ x.mantissa) :
    (x.lowerQuarters : ℚ) / 4 =
      x.mantissa - if x.mantissa = 2 ^ 52 ∧ -1074 < x.exponent then 1 / 4 else 1 / 2 := by
  have hcond : (x.mantissa = 4503599627370496 && decide (-1074 < x.exponent)) = true ↔
      x.mantissa = 2 ^ 52 ∧ -1074 < x.exponent := by simp
  rw [lowerQuarters]
  by_cases h : x.mantissa = 2 ^ 52 ∧ -1074 < x.exponent
  · rw [if_pos h, if_pos (hcond.mpr h), Nat.cast_sub (by omega)]
    push_cast
    ring
  · rw [if_neg h, if_neg (mt hcond.mp h), Nat.cast_sub (by omega)]
    push_cast
    ring

theorem floorLog2_spec {num den : Nat} (hnum : num ≠ 0) (hden : den ≠ 0) :
    (2 : ℚ) ^ floorLog2 num den ≤ num / den ∧ (num : ℚ) / den < 2 ^ (floorLog2 num den + 1) := by
  have hpos : (0 : ℚ) < den := by exact_mod_cast Nat.pos_of_ne_zero hden
  have hnum₁ : (2 : ℚ) ^ (num.log2 : ℤ) ≤ num := by exact_mod_cast Nat.log2_self_le hnum
  have hnum₂ : (num : ℚ) < 2 ^ ((num.log2 : ℤ) + 1) := by exact_mod_cast Nat.lt_log2_self
  have hden₁ : (2 : ℚ) ^ (den.log2 : ℤ) ≤ den := by exact_mod_cast Nat.log2_self_le hden
  have hden₂ : (den : ℚ) < 2 ^ ((den.log2 : ℤ) + 1) := by exact_mod_cast Nat.lt_log2_self
  have hcond : ∀ a : ℤ, den * twoUp a ≤ num * twoDown a ↔ (2 : ℚ) ^ a ≤ num / den := by
    intro a
    rw [← Nat.cast_le (α := ℚ), le_div_iff₀ hpos]
    push_cast
    rw [twoUp_eq, ← mul_assoc, mul_le_mul_iff_left₀ (twoDown_pos a), mul_comm]
  have hlow : (2 : ℚ) ^ ((num.log2 : ℤ) - den.log2 - 1) < num / den := by
    rw [lt_div_iff₀ hpos]
    calc (2 : ℚ) ^ ((num.log2 : ℤ) - den.log2 - 1) * den
      _ < 2 ^ ((num.log2 : ℤ) - den.log2 - 1) * 2 ^ ((den.log2 : ℤ) + 1) :=
        mul_lt_mul_of_pos_left hden₂ (two_zpow_pos _)
      _ = 2 ^ (num.log2 : ℤ) := by
        rw [← zpow_add₀ (by norm_num)]
        congr 1
        ring
      _ ≤ num := hnum₁
  have hhigh : (num : ℚ) / den < 2 ^ ((num.log2 : ℤ) - den.log2 + 1) := by
    rw [div_lt_iff₀ hpos]
    calc (num : ℚ)
      _ < 2 ^ ((num.log2 : ℤ) + 1) := hnum₂
      _ = 2 ^ ((num.log2 : ℤ) - den.log2 + 1) * 2 ^ (den.log2 : ℤ) := by
        rw [← zpow_add₀ (by norm_num)]
        congr 1
        ring
      _ ≤ _ := mul_le_mul_of_nonneg_left hden₁ (two_zpow_pos _).le
  unfold floorLog2
  dsimp only
  split_ifs with h
  · exact ⟨(hcond _).mp h, hhigh⟩
  · rw [Int.sub_add_cancel]
    exact ⟨hlow.le, not_le.mp (mt (hcond _).mpr h)⟩

theorem divideToEven_bounds (num : Nat) {den : Nat} (hden : 0 < den) :
    2 * (divideToEven num den * den) ≤ 2 * num + den ∧
      2 * num ≤ 2 * (divideToEven num den * den) + den ∧
      (divideToEven num den % 2 = 1 →
        2 * (divideToEven num den * den) < 2 * num + den ∧
          2 * num < 2 * (divideToEven num den * den) + den) := by
  have hsplit := Nat.div_add_mod' num den
  have hlt := Nat.mod_lt num hden
  have hnext : (num / den + 1) * den = num / den * den + den := Nat.succ_mul _ _
  unfold divideToEven
  dsimp only
  split_ifs with h <;> simp only [Bool.or_eq_true, Bool.and_eq_true, decide_eq_true_eq, beq_iff_eq] at h
  · omega
  · rw [hnext]
    omega

theorem divideToEven_spec (num : Nat) {den : Nat} (hden : 0 < den) :
    ((divideToEven num den : ℚ) - 1 / 2 ≤ num / den ∧
      (num : ℚ) / den ≤ divideToEven num den + 1 / 2) ∧
    (divideToEven num den % 2 = 1 →
      (divideToEven num den : ℚ) - 1 / 2 < num / den ∧
        (num : ℚ) / den < divideToEven num den + 1 / 2) := by
  have hpos : (0 : ℚ) < den := by exact_mod_cast hden
  obtain ⟨hle, hge, hodd⟩ := divideToEven_bounds num hden
  rw [le_div_iff₀ hpos, div_le_iff₀ hpos, lt_div_iff₀ hpos, div_lt_iff₀ hpos]
  generalize divideToEven num den = q at hle hge hodd
  have hle : 2 * ((q : ℚ) * den) ≤ 2 * num + den := by exact_mod_cast hle
  have hge : 2 * (num : ℚ) ≤ 2 * (q * den) + den := by exact_mod_cast hge
  refine ⟨⟨by linarith, by linarith⟩, fun h => ?_⟩
  have hlt : 2 * ((q : ℚ) * den) < 2 * num + den := by exact_mod_cast (hodd h).1
  have hgt : 2 * (num : ℚ) < 2 * (q * den) + den := by exact_mod_cast (hodd h).2
  exact ⟨by linarith, by linarith⟩

/-- A mantissa that is a whole number of units near the value, between 2^52 and 2^53 units. -/
theorem holds_of_near {x : Binary64} (hx : x.Normal) {v : ℚ} (hv : 2 ^ 52 ≤ v / 2 ^ x.exponent)
    (hnear : (x.mantissa : ℚ) - 1 / 2 ≤ v / 2 ^ x.exponent ∧ v / 2 ^ x.exponent ≤ x.mantissa + 1 / 2)
    (hodd : x.mantissa % 2 = 1 →
      (x.mantissa : ℚ) - 1 / 2 < v / 2 ^ x.exponent ∧ v / 2 ^ x.exponent < x.mantissa + 1 / 2) :
    x.Holds v := by
  rw [holds_iff_scaled, upperQuarters_eq, lowerQuarters_eq (Nat.le_trans (by norm_num) hx.le_mantissa)]
  by_cases hpower : x.mantissa = 2 ^ 52
  · have hmantissa : (x.mantissa : ℚ) = 2 ^ 52 := by
      rw [hpower]
      norm_num
    rw [if_pos ⟨hpower, hx.lt_exponent⟩]
    refine ⟨⟨?_, hnear.2⟩, fun h => ?_⟩
    · linarith
    · rw [hpower] at h
      norm_num at h
  · rw [if_neg fun h => hpower h.1]
    exact ⟨hnear, hodd⟩

theorem holds_of_carry {x : Binary64} (hx : x.Normal) (hpower : x.mantissa = 2 ^ 52) {v : ℚ}
    (hlow : (2 : ℚ) ^ 52 - 1 / 4 ≤ v / 2 ^ x.exponent) (hhigh : v / 2 ^ x.exponent ≤ 2 ^ 52) :
    x.Holds v := by
  have hmantissa : (x.mantissa : ℚ) = 2 ^ 52 := by
    rw [hpower]
    norm_num
  rw [holds_iff_scaled, upperQuarters_eq, lowerQuarters_eq (Nat.le_trans (by norm_num) hx.le_mantissa),
    if_pos ⟨hpower, hx.lt_exponent⟩, hmantissa]
  refine ⟨⟨hlow, by linarith⟩, fun h => ?_⟩
  rw [hpower] at h
  norm_num at h

theorem units_bounds {num den : Nat} (hnum : num ≠ 0) (hden : den ≠ 0) :
    (2 : ℚ) ^ 52 ≤ num / den / 2 ^ (floorLog2 num den - 52) ∧
      (num : ℚ) / den / 2 ^ (floorLog2 num den - 52) < 2 ^ 53 := by
  obtain ⟨hfloor, hceil⟩ := floorLog2_spec hnum hden
  have hunit := two_zpow_pos (floorLog2 num den - 52)
  constructor
  · have hsum : ((52 : ℕ) : ℤ) + (floorLog2 num den - 52) = floorLog2 num den := by omega
    rw [le_div_iff₀ hunit, ← zpow_natCast, ← zpow_add₀ (by norm_num), hsum]
    exact hfloor
  · have hsum : ((53 : ℕ) : ℤ) + (floorLog2 num den - 52) = floorLog2 num den + 1 := by omega
    rw [div_lt_iff₀ hunit, ← zpow_natCast, ← zpow_add₀ (by norm_num), hsum]
    exact hceil

theorem mantissa_bounds {m : Nat} {v : ℚ} (hlow : 2 ^ 52 ≤ v) (hhigh : v < 2 ^ 53)
    (hnear : (m : ℚ) - 1 / 2 ≤ v ∧ v ≤ m + 1 / 2) : 2 ^ 52 ≤ m ∧ m ≤ 2 ^ 53 := by
  constructor
  · have h : ((2 ^ 52 : ℕ) : ℚ) < m + 1 := by
      push_cast
      linarith
    exact Nat.le_of_lt_succ (by exact_mod_cast h)
  · have h : (m : ℚ) < (2 ^ 53 : ℕ) + 1 := by
      push_cast
      linarith
    exact Nat.le_of_lt_succ (by exact_mod_cast h)

/-- Away from the ends of the range a quotient rounds to a number with all its binary digits. -/
theorem exists_nearest {num den : Nat} (hden : 0 < den) (hlow : (2 : ℚ) ^ (-1021 : ℤ) ≤ num / den)
    (hhigh : (num : ℚ) / den < 2 ^ (1023 : ℤ)) (negative : Bool) :
    ∃ x, nearest negative num den = some x ∧ x.negative = negative ∧ x.Normal ∧ x.Holds (num / den) := by
  have hnum : num ≠ 0 := by
    rintro rfl
    rw [Nat.cast_zero, zero_div] at hlow
    exact absurd (two_zpow_pos _) (not_lt.mpr hlow)
  obtain ⟨hfloor, hceil⟩ := floorLog2_spec hnum hden.ne'
  have hmin : -1021 < floorLog2 num den + 1 :=
    (zpow_lt_zpow_iff_right₀ (by norm_num)).mp (lt_of_le_of_lt hlow hceil)
  have hmax : floorLog2 num den < 1023 :=
    (zpow_lt_zpow_iff_right₀ (by norm_num)).mp (lt_of_le_of_lt hfloor hhigh)
  obtain ⟨hunits₁, hunits₂⟩ := units_bounds hnum hden.ne'
  have hexponent : max (floorLog2 num den - 52) (-1074) = floorLog2 num den - 52 := by omega
  simp only [nearest, if_neg hnum, hexponent]
  generalize he : floorLog2 num den - 52 = e at hunits₁ hunits₂
  have hdivisor : 0 < den * twoUp e := Nat.mul_pos hden (Nat.pow_pos (by decide))
  obtain ⟨hnear, hodd⟩ := divideToEven_spec (num * twoDown e) hdivisor
  rw [div_twoUp] at hnear hodd
  generalize divideToEven (num * twoDown e) (den * twoUp e) = m at hnear hodd
  obtain ⟨hm₁, hm₂⟩ := mantissa_bounds hunits₁ hunits₂ hnear
  by_cases hcarry : m = 9007199254740992
  · have hm : (m : ℚ) = 2 ^ 53 := by
      rw [hcarry]
      norm_num
    have hhalf : (num : ℚ) / den / 2 ^ (e + 1) = num / den / 2 ^ e / 2 := by
      rw [zpow_add_one₀ (by norm_num), div_mul_eq_div_div]
    have hnormal : Normal ⟨negative, 4503599627370496, e + 1⟩ :=
      ⟨by norm_num, by norm_num, by dsimp only; omega⟩
    rw [if_pos hcarry]
    refine ⟨_, if_neg (by omega), rfl, hnormal, holds_of_carry hnormal (by norm_num) ?_ ?_⟩ <;>
      rw [hhalf] <;> linarith
  · have hnormal : Normal ⟨negative, m, e⟩ := ⟨hm₁, by dsimp only; omega, by dsimp only; omega⟩
    rw [if_neg hcarry]
    exact ⟨_, if_neg (by omega), rfl, hnormal, holds_of_near hnormal hunits₁ hnear hodd⟩

section

variable {x : Binary64} (hx : x.Normal) {v : ℚ} (h : x.Holds v)
include hx h

theorem Holds.near_scaled :
    (x.mantissa : ℚ) - 1 / 2 ≤ v / 2 ^ x.exponent ∧ v / 2 ^ x.exponent ≤ x.mantissa + 1 / 2 := by
  obtain ⟨⟨hlow, hhigh⟩, -⟩ := (holds_iff_scaled x v).mp h
  rw [lowerQuarters_eq (Nat.le_trans (by norm_num) hx.le_mantissa)] at hlow
  rw [upperQuarters_eq] at hhigh
  constructor
  · split_ifs at hlow <;> linarith
  · exact hhigh

theorem Holds.eq_value {n : ℤ} (hv : v = n * 2 ^ x.exponent) : v = x.value := by
  obtain ⟨hlow, hhigh⟩ := h.near_scaled hx
  rw [hv, mul_div_cancel_right₀ _ (two_zpow_pos _).ne'] at hlow hhigh
  have hle : (x.mantissa : ℤ) < n + 1 := by
    have hlt : (x.mantissa : ℚ) < n + 1 := by linarith
    exact_mod_cast hlt
  have hge : n < (x.mantissa : ℤ) + 1 := by
    have hlt : (n : ℚ) < x.mantissa + 1 := by linarith
    exact_mod_cast hlt
  have heq : n = x.mantissa := by omega
  rw [hv, heq, value, Int.cast_natCast]

theorem Holds.exponent_le {e : ℤ} (hv : v ≤ (2 ^ 53 - 1) * 2 ^ e) : x.exponent ≤ e := by
  by_contra hlt
  have hnext : e + 1 ≤ x.exponent := by omega
  obtain ⟨⟨hlow, -⟩, -⟩ := (holds_iff_scaled x v).mp h
  rw [lowerQuarters_eq (Nat.le_trans (by norm_num) hx.le_mantissa), le_div_iff₀ (two_zpow_pos _)] at hlow
  have hmantissa : (2 : ℚ) ^ 52 ≤ x.mantissa := by exact_mod_cast hx.le_mantissa
  have hunits : (2 : ℚ) ^ 52 - 1 / 4 ≤
      x.mantissa - if x.mantissa = 2 ^ 52 ∧ -1074 < x.exponent then 1 / 4 else 1 / 2 := by
    split_ifs with hpower
    · linarith
    · have hne : x.mantissa ≠ 2 ^ 52 := fun heq => hpower ⟨heq, hx.lt_exponent⟩
      have hgt : 2 ^ 52 + 1 ≤ x.mantissa := Nat.lt_of_le_of_ne hx.le_mantissa (Ne.symm hne)
      have hgt : (2 : ℚ) ^ 52 + 1 ≤ x.mantissa := by exact_mod_cast hgt
      linarith
  have hpow : (2 : ℚ) ^ e * 2 ≤ 2 ^ x.exponent := by
    rw [← zpow_add_one₀ (by norm_num)]
    exact zpow_le_zpow_right₀ (by norm_num) hnext
  have hpos := two_zpow_pos e
  have hge : ((2 : ℚ) ^ 52 - 1 / 4) * (2 ^ e * 2) ≤ v :=
    (mul_le_mul hunits hpow (by positivity) (by linarith)).trans hlow
  linarith

end

theorem quotient_bounds {n m : Nat} (hpos : 0 < n) (hn : n < 2 ^ 53) (hpos' : 0 < m) (hm : m < 2 ^ 53) :
    (2 : ℚ) ^ (-1021 : ℤ) ≤ n / m ∧ (n : ℚ) / m < 2 ^ (1023 : ℤ) := by
  have hone : (1 : ℚ) ≤ n := by exact_mod_cast hpos
  have hone' : (1 : ℚ) ≤ m := by exact_mod_cast hpos'
  have hlt : (n : ℚ) < 2 ^ (53 : ℤ) := by exact_mod_cast hn
  have hlt' : (m : ℚ) < 2 ^ (53 : ℤ) := by exact_mod_cast hm
  constructor
  · have hpow : (2 : ℚ) ^ (-1021 : ℤ) ≤ 2 ^ (-53 : ℤ) := zpow_le_zpow_right₀ (by norm_num) (by norm_num)
    refine hpow.trans ?_
    rw [zpow_neg, le_div_iff₀ (by positivity), inv_mul_le_iff₀ (two_zpow_pos _)]
    exact hlt'.le.trans (le_mul_of_one_le_right (two_zpow_pos _).le hone)
  · have hpow : (2 : ℚ) ^ (53 : ℤ) ≤ 2 ^ (1023 : ℤ) := zpow_le_zpow_right₀ (by norm_num) (by norm_num)
    exact lt_of_le_of_lt (div_le_self (by positivity) hone') (lt_of_lt_of_le hlt hpow)

theorem exists_nearest_nat {n : Nat} (hpos : 0 < n) (hn : n < 2 ^ 53) (negative : Bool) :
    ∃ x, nearest negative n 1 = some x ∧ x.negative = negative ∧ x.value = n := by
  have hmax : (n : ℚ) ≤ 2 ^ 53 - 1 := by
    have h : (n : ℚ) + 1 ≤ 2 ^ 53 := by exact_mod_cast hn
    linarith
  obtain ⟨hlow, hhigh⟩ := quotient_bounds hpos hn Nat.one_pos (by norm_num)
  obtain ⟨x, hx, hsign, hnormal, hholds⟩ := exists_nearest Nat.one_pos hlow hhigh negative
  rw [Nat.cast_one, div_one] at hholds
  have hexponent : x.exponent ≤ 0 := hholds.exponent_le hnormal (by simpa using hmax)
  -- The exponent is not positive, so a whole number is a whole number of units.
  have hunits : (n : ℚ) = ((n * 2 ^ (-x.exponent).toNat : ℕ) : ℤ) * 2 ^ x.exponent := by
    have hzero : x.exponent.toNat = 0 := by omega
    have hpow := pow_toNat (b := 2) (by norm_num) x.exponent
    rw [hzero, pow_zero] at hpow
    push_cast
    rw [mul_assoc, mul_comm (2 ^ _), ← hpow, mul_one]
  exact ⟨x, hx, hsign, (hholds.eq_value hnormal hunits).symm⟩

theorem quotient_eq (x p : Binary64) :
    ((x.mantissa * twoUp (x.exponent - p.exponent) : Nat) : ℚ) /
        (p.mantissa * twoDown (x.exponent - p.exponent) : Nat) = x.value / p.value := by
  have hdown := (twoDown_pos (x.exponent - p.exponent)).ne'
  rw [value, value]
  push_cast
  rw [twoUp_eq, ← mul_assoc, mul_div_mul_right _ _ hdown, zpow_sub₀ (by norm_num)]
  ring

theorem mantissa_pos {x : Binary64} {n : Nat} (hn : 0 < n) (hvalue : x.value = n) : 0 < x.mantissa := by
  apply Nat.pos_of_ne_zero
  intro hzero
  rw [value, hzero, Nat.cast_zero, zero_mul] at hvalue
  exact hn.ne (by exact_mod_cast hvalue)

/-- Neither the significand nor the power of ten is rounded, so their quotient is rounded as it is. -/
theorem exists_ofScientific {n k : Nat} (hpos : 0 < n) (hn : n < 2 ^ 53) (hk : 0 < k) (hk' : k ≤ 15)
    (negative : Bool) :
    ∃ x, ofScientific negative n (-k) = some x ∧ x.negative = negative ∧ x.Normal ∧
      x.Holds (n / 10 ^ k) := by
  have hpower : 10 ^ k < 2 ^ 53 := lt_of_le_of_lt (Nat.pow_le_pow_right (by decide) hk') (by norm_num)
  have hten : 0 < 10 ^ k := Nat.pow_pos (by decide)
  obtain ⟨x, hx, rfl, hvalue⟩ := exists_nearest_nat hpos hn negative
  obtain ⟨p, hp, -, hpvalue⟩ := exists_nearest_nat hten hpower false
  obtain ⟨hlow, hhigh⟩ := quotient_bounds hpos hn hten hpower
  have hmantissa := mantissa_pos hpos hvalue
  have hden : 0 < p.mantissa * twoDown (x.exponent - p.exponent) :=
    Nat.mul_pos (mantissa_pos hten hpvalue) (Nat.pow_pos (by decide))
  have hquotient := quotient_eq x p
  rw [hvalue, hpvalue] at hquotient
  rw [← hquotient] at hlow hhigh
  obtain ⟨y, hy, hsign, hnormal, hholds⟩ := exists_nearest hden hlow hhigh x.negative
  rw [hquotient, Nat.cast_pow, Nat.cast_ofNat] at hholds
  refine ⟨y, ?_, hsign, hnormal, hholds⟩
  have hscale : scaleTen 4 x (-k) = x.overTen k := by
    rw [scaleTen, if_neg hmantissa.ne', if_neg (by omega), if_neg (by omega), if_pos (by omega), neg_neg,
      Int.toNat_natCast]
  rw [ofScientific, hx]
  change scaleTen 4 x (-k) = some y
  rw [hscale, overTen, Nat.pow_eq, hp]
  exact hy

end OfferLedger.Binary64
