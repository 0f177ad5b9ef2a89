import OfferLedger.Proofs.Decimal.RoundTrip
import OfferLedger.Proofs.Decimal.Shortest

/-! # Positional texts of binary numbers

A number written without exponent spells its digits with the point among them, filled up with zeros on
either side. So it is read as the decimal with the value of these digits. -/
namespace OfferLedger

namespace Decimal

def Parts.significand (p : Parts) : Nat := digitsValue (p.whole ++ p.fraction)

theorem Parts.value_eq (p : Parts) :
    p.value =
      if p.negative then -((p.significand : ℚ) / 10 ^ p.fraction.length)
      else p.significand / 10 ^ p.fraction.length := by
  have hmagnitude : (digitsValue p.whole : ℚ) + digitsValue p.fraction / 10 ^ p.fraction.length =
      p.significand / 10 ^ p.fraction.length := by
    have hten : (10 : ℚ) ^ p.fraction.length ≠ 0 := pow_ne_zero _ (by norm_num)
    rw [significand, digitsValue_append, Nat.pow_eq]
    push_cast
    rw [add_div, mul_div_cancel_left₀ _ hten]
  unfold value
  rw [hmagnitude]

theorem Parts.abs_value (p : Parts) : |p.value| = p.significand / 10 ^ p.fraction.length := by
  have hpos : (0 : ℚ) ≤ p.significand / 10 ^ p.fraction.length := by positivity
  rw [p.value_eq]
  split
  · rw [abs_neg, abs_of_nonneg hpos]
  · exact abs_of_nonneg hpos

theorem Parts.Plain.parse_of_value {p : Parts} (hp : p.Plain) (hlen : p.fraction.length ≤ places)
    {d : Decimal} (hd : -9223372036854775808 < d.micros) (hvalue : (d.micros : ℚ) = p.value * 10 ^ 6) :
    parse (String.ofList p.toChars) = .ok d := by
  have hmicros : p.micros = d.micros := by
    rw [← micros_eq_value hlen] at hvalue
    exact (Int.cast_injective hvalue).symm
  rw [hp.parse_toChars hlen]
  simp only [hmicros]
  exact dif_pos ⟨hd, d.micros_lt⟩

end Decimal

namespace Binary64

open Decimal (Parts digitsValue)

def Digits.parts (negative : Bool) (d : Digits) : Parts :=
  let digits := Nat.toDigits 10 d.digits
  let decimals := (-d.exponent).toNat
  if decimals = 0 then ⟨negative, digits ++ List.replicate d.exponent.toNat '0', []⟩
  else if digits.length ≤ decimals then
    ⟨negative, ['0'], List.replicate (decimals - digits.length) '0' ++ digits⟩
  else ⟨negative, digits.take (digits.length - decimals), digits.drop (digits.length - decimals)⟩

theorem Digits.toChars_parts (negative : Bool) (d : Digits) :
    (d.parts negative).toChars = (if negative then ['-'] else []) ++ d.positional := by
  unfold parts positional
  dsimp only
  by_cases hwhole : (-d.exponent).toNat = 0
  · rw [if_pos hwhole, if_pos hwhole, Parts.toChars, if_pos rfl, List.append_nil]
  rw [if_neg hwhole, if_neg hwhole]
  by_cases hshort : (Nat.toDigits 10 d.digits).length ≤ (-d.exponent).toNat
  · have hne : List.replicate ((-d.exponent).toNat - (Nat.toDigits 10 d.digits).length) '0' ++
        Nat.toDigits 10 d.digits ≠ [] := List.append_ne_nil_of_right_ne_nil _ Nat.toDigits_ne_nil
    rw [if_pos hshort, if_pos hshort, Parts.toChars, if_neg hne, List.append_assoc "0.".toList]
    rfl
  · have hne : (Nat.toDigits 10 d.digits).drop
        ((Nat.toDigits 10 d.digits).length - (-d.exponent).toNat) ≠ [] := by
      rw [ne_eq, List.drop_eq_nil_iff]
      omega
    rw [if_neg hshort, if_neg hshort, Parts.toChars, if_neg hne]

theorem Digits.plain_parts (negative : Bool) (d : Digits) : (d.parts negative).Plain := by
  have hne : Nat.toDigits 10 d.digits ≠ [] := Nat.toDigits_ne_nil
  have hdigits : ∀ c ∈ Nat.toDigits 10 d.digits, Decimal.isDigit c = true := fun c =>
    Decimal.isDigit_of_mem_toDigits
  have hzeros : ∀ n, ∀ c ∈ List.replicate n '0', Decimal.isDigit c = true := by
    intro n c hc
    rw [List.eq_of_mem_replicate hc]
    rfl
  unfold parts
  dsimp only
  split_ifs with hwhole hshort
  · refine ⟨by simp [hne], fun c hc => ?_, nofun⟩
    exact (List.mem_append.mp hc).elim (hdigits c) (hzeros _ c)
  · refine ⟨by simp, by simp [Decimal.isDigit], fun c hc => ?_⟩
    exact (List.mem_append.mp hc).elim (hzeros _ c) (hdigits c)
  · refine ⟨?_, fun c hc => hdigits c (List.mem_of_mem_take hc), fun c hc =>
      hdigits c (List.mem_of_mem_drop hc)⟩
    rw [ne_eq, List.take_eq_nil_iff]
    simp only [hne, or_false]
    omega

theorem Digits.length_fraction_parts (negative : Bool) (d : Digits) :
    (d.parts negative).fraction.length = (-d.exponent).toNat := by
  unfold parts
  dsimp only
  split_ifs with hwhole hshort
  · exact hwhole.symm
  · rw [List.length_append, List.length_replicate]
    omega
  · rw [List.length_drop]
    omega

theorem Digits.significand_parts (negative : Bool) (d : Digits) :
    (d.parts negative).significand = d.digits * Nat.pow 10 d.exponent.toNat := by
  unfold parts
  dsimp only
  split_ifs with hwhole hshort
  · rw [Parts.significand, List.append_nil, Decimal.digitsValue_append_zeros,
      Decimal.digitsValue_toDigits, Nat.mul_comm]
  all_goals
    have hexponent : d.exponent.toNat = 0 := by omega
    rw [Parts.significand, hexponent, Nat.pow_eq, Nat.pow_zero, Nat.mul_one]
  · rw [← List.append_assoc, ← List.replicate_one, List.replicate_append_replicate,
      Decimal.digitsValue_zeros_append, Decimal.digitsValue_toDigits]
  · rw [List.take_append_drop, Decimal.digitsValue_toDigits]

theorem Digits.value_parts (negative : Bool) (d : Digits) :
    (d.parts negative).value = if negative then -d.value else d.value := by
  have hmagnitude : ((d.digits * Nat.pow 10 d.exponent.toNat : ℕ) : ℚ) / 10 ^ (-d.exponent).toNat =
      d.value := by
    have hten : (10 : ℚ) ^ (-d.exponent).toNat ≠ 0 := pow_ne_zero _ (by norm_num)
    rw [value, Nat.pow_eq]
    push_cast
    rw [pow_toNat (by norm_num) d.exponent, ← mul_assoc, mul_div_cancel_right₀ _ hten]
  have hnegative : (d.parts negative).negative = negative := by
    unfold parts
    dsimp only
    split_ifs <;> rfl
  rw [Parts.value_eq, significand_parts, length_fraction_parts, hmagnitude, hnegative]

/-- A binary number whose fewest digits have at most six decimals is read as the decimal of their value. -/
theorem parse_plain {x : Binary64} {d : Decimal} (hd : -9223372036854775808 < d.micros)
    (hexponent : -6 ≤ (x.shortest .upper).exponent)
    (hvalue : (d.micros : ℚ) =
      (if x.negative then -(x.shortest .upper).value else (x.shortest .upper).value) * 10 ^ 6) :
    Decimal.parse (String.ofList x.plain) = .ok d := by
  have hlen : ((x.shortest .upper).parts x.negative).fraction.length ≤ Decimal.places := by
    rw [Digits.length_fraction_parts]
    change _ ≤ 6
    omega
  have hchars : x.plain = ((x.shortest .upper).parts x.negative).toChars :=
    ((x.shortest .upper).toChars_parts x.negative).symm
  rw [← Digits.value_parts] at hvalue
  rw [hchars]
  exact (Digits.plain_parts _ _).parse_of_value hlen hd hvalue

end Binary64

end OfferLedger
