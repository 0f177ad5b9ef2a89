import OfferLedger.Text.Percent

/-! # Bytes written with percent escapes

Bytes can be escaped in many ways, since a digit has two cases and a byte that needs no escape may have one.
All of them are read back as the same bytes. -/
namespace OfferLedger.Text

/-- Bytes as they are written: some of those that may stand for themselves do, and every other one is a
percent sign with two digits. -/
inductive Escaped (free : UInt8 → Prop) : List UInt8 → List UInt8 → Prop where
  | nil : Escaped free [] []
  | plain {b bytes written} : free b → Escaped free bytes written →
      Escaped free (b :: bytes) (b :: written)
  | escape {h l high low bytes written} : hexValue h = some high → hexValue l = some low →
      Escaped free bytes written →
      Escaped free ((16 * high + low).toUInt8 :: bytes) (0x25 :: h :: l :: written)

theorem percentDecode_plain {b : UInt8} (h : b ≠ 0x25) (rest : List UInt8) :
    percentDecode (b :: rest) = b :: percentDecode rest := by
  -- Fewer than two bytes are left as they are, by another equation.
  rcases rest with _ | ⟨c, _ | ⟨d, rest⟩⟩
  · rfl
  · rfl
  · rw [percentDecode, if_neg h]

theorem percentDecode_escape {h l : UInt8} {high low : Nat} (hh : hexValue h = some high)
    (hl : hexValue l = some low) (rest : List UInt8) :
    percentDecode (0x25 :: h :: l :: rest) = (16 * high + low).toUInt8 :: percentDecode rest := by
  rw [percentDecode, if_pos rfl, hh, hl]

theorem ne_of_hexValue {b digit : UInt8} {n : Nat} (hb : hexValue b = none)
    (hdigit : hexValue digit = some n) : b ≠ digit := by
  rintro rfl
  rw [hb] at hdigit
  cases hdigit

theorem Escaped.percentDecode_eq {free : UInt8 → Prop} {bytes written : List UInt8}
    (h : Escaped free bytes written) (hfree : ∀ b, free b → b ≠ 0x25) :
    percentDecode written = bytes := by
  induction h with
  | nil => rfl
  | plain hb _ ih => rw [percentDecode_plain (hfree _ hb), ih]
  | escape hh hl _ ih => rw [percentDecode_escape hh hl, ih]

theorem Escaped.not_mem {free : UInt8 → Prop} {bytes written : List UInt8}
    (h : Escaped free bytes written) {b : UInt8} (hfree : ¬ free b) (hhex : hexValue b = none)
    (hpercent : b ≠ 0x25) : b ∉ written := by
  induction h with
  | nil => exact List.not_mem_nil
  | plain hd _ ih =>
    apply List.not_mem_cons_of_ne_of_not_mem _ ih
    rintro rfl
    exact hfree hd
  | escape hh hl _ ih => simp [hpercent, ne_of_hexValue hhex hh, ne_of_hexValue hhex hl, ih]

theorem Escaped.ne_nil {free : UInt8 → Prop} {bytes written : List UInt8}
    (h : Escaped free bytes written) (hbytes : bytes ≠ []) : written ≠ [] := by
  cases h with
  | nil => exact absurd rfl hbytes
  | plain | escape => exact List.cons_ne_nil _ _

end OfferLedger.Text
