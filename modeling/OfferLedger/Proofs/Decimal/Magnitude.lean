import OfferLedger.Decimal.Basic
import OfferLedger.Proofs.Text.Unsigned

/-! # The magnitude of digits

Digits are read one by one, each half of a decimal on its own, and the halves are put together by a product
and a sum. Every step only makes the number grow, so none of them is refused unless the millionths as a
whole are out of range. -/
namespace OfferLedger.Decimal

/-- The number that a run of decimal digits denotes, however large it is. -/
def digitsValue (cs : List Char) : Nat := cs.foldl (fun n c => 10 * n + digitValue c) 0

theorem code_of_isDigit {c : Char} (h : isDigit c = true) : 48 ≤ c.toNat ∧ c.toNat ≤ 57 := by
  simpa [isDigit, Char.le_def, UInt32.le_iff_toNat_le] using h

theorem isDigit_eq (c : Char) : isDigit c = c.isDigit := rfl

theorem isDigit_of_mem_toDigits {n : Nat} {c : Char} (h : c ∈ Nat.toDigits 10 n) :
    isDigit c = true :=
  Nat.isDigit_of_mem_toDigits (by decide) (by decide) h

theorem digitsValue_toDigits (n : Nat) : digitsValue (Nat.toDigits 10 n) = n :=
  Nat.ofDigitChars_ten_toDigits

theorem digitsValue_append (cs ds : List Char) :
    digitsValue (cs ++ ds) = Nat.pow 10 ds.length * digitsValue cs + digitsValue ds :=
  (Nat.ofDigitChars_append 0).trans Nat.ofDigitChars_eq_ofDigitChars_zero

theorem digitsValue_append_zeros (cs : List Char) (k : Nat) :
    digitsValue (cs ++ List.replicate k '0') = Nat.pow 10 k * digitsValue cs :=
  (Nat.ofDigitChars_append 0).trans Nat.ofDigitChars_replicate_zero

theorem digitsValue_zeros_append (cs : List Char) (k : Nat) :
    digitsValue (List.replicate k '0' ++ cs) = digitsValue cs := by
  have hzero : digitsValue (List.replicate k '0') = 0 := digitsValue_append_zeros [] k
  rw [digitsValue_append, hzero, Nat.mul_zero, Nat.zero_add]

theorem checked_of_lt {n : Nat} (h : n < 9223372036854775808) : checked n = some ⟨n, h⟩ := dif_pos h

theorem checked_of_le {n : Nat} (h : 9223372036854775808 ≤ n) : checked n = none :=
  dif_neg (Nat.not_lt.mpr h)

theorem checked_bind {n m : Nat} (hle : n ≤ m) {f : Magnitude → Option Magnitude}
    (hf : ∀ h : n < 9223372036854775808, f ⟨n, h⟩ = checked m) : (checked n >>= f) = checked m := by
  by_cases h : n < 9223372036854775808
  · rw [checked_of_lt h]
    exact hf h
  · have h := Nat.not_lt.mp h
    rw [checked_of_le h, checked_of_le (Nat.le_trans h hle)]
    rfl

theorem foldlM_checked (m : Magnitude) (cs : List Char) :
    cs.foldlM (fun (n : Magnitude) c => checked (10 * n.val + digitValue c)) m =
      checked (Nat.ofDigitChars 10 cs m.val) := by
  induction cs generalizing m with
  | nil => exact (checked_of_lt m.isLt).symm
  | cons c cs ih =>
    rw [List.foldlM_cons, Nat.ofDigitChars_cons]
    apply checked_bind
    · exact Text.le_ofDigitChars cs _
    · intro h
      exact ih ⟨_, h⟩

theorem readDigits_eq (cs : List Char) : readDigits cs = checked (digitsValue cs) :=
  foldlM_checked ⟨0, by decide⟩ cs

/-- The millionths that the digits denote, whether they fit or not. -/
def Parts.magnitude (p : Parts) : Nat :=
  digitsValue p.whole * scale + digitsValue p.fraction * Nat.pow 10 (places - p.fraction.length)

theorem Parts.magnitude?_eq (p : Parts) : p.magnitude? = checked p.magnitude := by
  have hwhole : digitsValue p.whole ≤ digitsValue p.whole * scale :=
    Nat.le_mul_of_pos_right _ (by decide)
  rw [magnitude?, readDigits_eq, readDigits_eq, digitsValue_append_zeros, Nat.mul_comm (Nat.pow 10 _)]
  apply checked_bind
  · exact Nat.le_add_right_of_le hwhole
  intro _
  apply checked_bind
  · exact Nat.le_add_left ..
  intro _
  apply checked_bind
  · exact Nat.le_add_right ..
  intro _
  rfl

def Parts.micros (p : Parts) : Int :=
  if p.negative then -(p.magnitude : Int) else p.magnitude

theorem Parts.inRange_iff (p : Parts) :
    -9223372036854775808 < p.micros ∧ p.micros < 9223372036854775808 ↔
      p.magnitude < 9223372036854775808 := by
  unfold micros
  split <;> omega

/-- Reading keeps the exact value, or says that it is out of range. -/
theorem parse_eq (s : String) :
    parse s =
      let cs := Text.trim s.toList
      let parts := Parts.ofText cs
      if cs.isEmpty then .error .empty
      else if !parts.wellFormed then .error (.invalid (String.ofList cs))
      else if parts.fraction.length > places then .error (.tooManyPlaces (String.ofList cs))
      else if h : -9223372036854775808 < parts.micros ∧ parts.micros < 9223372036854775808 then
        .ok ⟨parts.micros, Int.le_of_lt h.1, h.2⟩
      else .error (.outOfRange (String.ofList cs)) := by
  unfold parse
  dsimp only
  congr 3
  generalize Parts.ofText (Text.trim s.toList) = p
  rw [p.magnitude?_eq]
  by_cases h : p.magnitude < 9223372036854775808
  · rw [checked_of_lt h, dif_pos (p.inRange_iff.mpr h)]
    rfl
  · rw [checked_of_le (Nat.not_lt.mp h), dif_neg fun hr => h (p.inRange_iff.mp hr)]

end OfferLedger.Decimal
