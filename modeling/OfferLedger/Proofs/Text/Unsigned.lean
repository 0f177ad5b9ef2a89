import OfferLedger.Text.Unsigned
import Mathlib.Tactic.SplitIfs

/-! # What an unsigned number looks like

A text is read as a number exactly if it consists of decimal digits, perhaps after a plus sign, and the
number they denote is below the bound. -/
namespace OfferLedger.Text

def Unsigned (bound : Nat) (cs : List Char) (n : Nat) : Prop :=
  ∃ digits, (cs = digits ∨ cs = '+' :: digits) ∧ digits ≠ [] ∧ (∀ c ∈ digits, c.isDigit = true) ∧
    Nat.ofDigitChars 10 digits 0 = n ∧ n < bound

theorem le_ofDigitChars (digits : List Char) (value : Nat) :
    value ≤ Nat.ofDigitChars 10 digits value := by
  rw [Nat.ofDigitChars_eq_ofDigitChars_zero]
  calc value
    _ ≤ 10 ^ digits.length * value := Nat.le_mul_of_pos_left _ (Nat.pow_pos (by decide))
    _ ≤ _ := Nat.le_add_right ..

/-- Digits only make a number grow, so a bound that is kept in the end was kept before. -/
theorem readUnsigned_eq_ok_iff {bound value n : Nat} (hvalue : value < bound) (cs : List Char) :
    readUnsigned bound value cs = .ok n ↔
      (∀ c ∈ cs, c.isDigit = true) ∧ Nat.ofDigitChars 10 cs value = n ∧ n < bound := by
  induction cs generalizing value with
  | nil =>
    simp only [readUnsigned, Except.ok.injEq, Nat.ofDigitChars_nil, List.not_mem_nil]
    constructor
    · rintro rfl
      exact ⟨nofun, rfl, hvalue⟩
    · exact fun h => h.2.1
  | cons c rest ih =>
    rw [readUnsigned, Nat.ofDigitChars_cons, List.forall_mem_cons]
    dsimp only
    split_ifs with hdigit hlarge
    · have hdigit : ¬ c.isDigit = true := by simpa using hdigit
      simp [hdigit]
    · have hle := le_ofDigitChars rest (10 * value + (c.toNat - '0'.toNat))
      constructor
      · intro h
        cases h
      · rintro ⟨-, rfl, hlt⟩
        omega
    · have hdigit : c.isDigit = true := by simpa using hdigit
      rw [ih (by omega)]
      simp [hdigit]

theorem parseUnsigned_eq_ok_iff {bound n : Nat} (hbound : 0 < bound) (cs : List Char) :
    parseUnsigned bound cs = .ok n ↔ Unsigned bound cs n := by
  unfold parseUnsigned
  split
  · constructor
    · intro h
      cases h
    · rintro ⟨digits, rfl | h, hne, -⟩
      · exact absurd rfl hne
      · cases h
  · constructor
    · intro h
      cases h
    · rintro ⟨digits, rfl | h, hne, hdigits, -⟩
      · exact absurd (hdigits '+' (by simp)) (by decide)
      · cases h
        exact absurd rfl hne
  · rename_i rest hne
    rw [readUnsigned_eq_ok_iff hbound]
    constructor
    · rintro ⟨hdigits, hvalue, hlt⟩
      exact ⟨rest, .inr rfl, fun h => hne (h ▸ rfl), hdigits, hvalue, hlt⟩
    · rintro ⟨digits, rfl | h, -, hdigits, hvalue, hlt⟩
      · exact absurd (hdigits '+' (List.mem_cons_self ..)) (by decide)
      · cases h
        exact ⟨hdigits, hvalue, hlt⟩
  · rename_i hnil hsign hsigned
    rw [readUnsigned_eq_ok_iff hbound]
    constructor
    · rintro ⟨hdigits, hvalue, hlt⟩
      exact ⟨cs, .inl rfl, hnil, hdigits, hvalue, hlt⟩
    · rintro ⟨digits, rfl | rfl, -, hdigits, hvalue, hlt⟩
      · exact ⟨hdigits, hvalue, hlt⟩
      · exact absurd rfl (hsigned digits)

end OfferLedger.Text
