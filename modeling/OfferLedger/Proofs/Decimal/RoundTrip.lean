import OfferLedger.Proofs.Decimal.Reading
import OfferLedger.Proofs.Text.Blank

/-! # Decimals read back from their texts

The text of a decimal is taken apart into the sign and the digits that it was made of, and these denote
the millionths of the decimal again. So a decimal reads back, except for the least one. -/
namespace OfferLedger.Decimal

theorem length_fractionDigits {n : Nat} (h : n < scale) : (fractionDigits n).length = places := by
  have hle : (Nat.toDigits 10 n).length ≤ places :=
    (Nat.length_toDigits_le_iff (by decide) (by decide)).mpr h
  rw [fractionDigits, List.length_append, List.length_replicate]
  omega

theorem digitsValue_fractionDigits (n : Nat) : digitsValue (fractionDigits n) = n := by
  rw [fractionDigits, digitsValue_zeros_append, digitsValue_toDigits]

theorem isDigit_of_mem_fractionDigits {n : Nat} {c : Char} (h : c ∈ fractionDigits n) :
    isDigit c = true := by
  rcases List.mem_append.mp h with h | h
  · rw [List.eq_of_mem_replicate h]
    rfl
  · exact isDigit_of_mem_toDigits h

theorem prefix_dropTrailingZeros (cs : List Char) : dropTrailingZeros cs <+: cs :=
  List.rdropWhile_prefix _ cs

theorem append_zeros_dropTrailingZeros (cs : List Char) :
    dropTrailingZeros cs ++ List.replicate (cs.length - (dropTrailingZeros cs).length) '0' = cs := by
  have hzeros : ∀ c ∈ cs.reverse.takeWhile (· = '0'), c = '0' := fun c hc => by
    simpa using List.mem_takeWhile_imp hc
  have hsplit : dropTrailingZeros cs ++ (cs.reverse.takeWhile (· = '0')).reverse = cs := by
    rw [dropTrailingZeros, ← List.reverse_append, List.takeWhile_append_dropWhile,
      List.reverse_reverse]
  have hlen := congrArg List.length hsplit
  rw [List.length_append, List.length_reverse] at hlen
  rw [List.eq_replicate_of_mem hzeros, List.reverse_replicate] at hsplit
  rwa [show cs.length - (dropTrailingZeros cs).length = (cs.reverse.takeWhile (· = '0')).length by
    omega]

def Parts.toChars (p : Parts) : List Char :=
  (if p.negative then ['-'] else []) ++
    (p.whole ++ if p.fraction = [] then [] else '.' :: p.fraction)

structure Parts.Plain (p : Parts) : Prop where
  whole_ne_nil : p.whole ≠ []
  whole : ∀ c ∈ p.whole, isDigit c = true
  fraction : ∀ c ∈ p.fraction, isDigit c = true

theorem isBlank_of_isDigit {c : Char} (h : isDigit c = true) : Text.isBlank c = false := by
  have hcode := code_of_isDigit h
  apply Text.isBlank_of_visible <;> omega

section

variable {p : Parts} (hp : p.Plain)
include hp

theorem Parts.Plain.isBlank {c : Char} (hc : c ∈ p.toChars) : Text.isBlank c = false := by
  rcases List.mem_append.mp hc with hc | hc
  · split at hc
    · rw [List.mem_singleton.mp hc]
      rfl
    · cases hc
  rcases List.mem_append.mp hc with hc | hc
  · exact isBlank_of_isDigit (hp.whole c hc)
  split at hc
  · cases hc
  · rcases List.mem_cons.mp hc with rfl | hc
    · rfl
    · exact isBlank_of_isDigit (hp.fraction c hc)

theorem Parts.Plain.spelled : p.Spelled p.toChars := by
  refine ⟨⟨p.whole ++ if p.fraction = [] then [] else '.' :: p.fraction, ?_, ?_⟩, hp.whole, hp.fraction,
    List.append_ne_nil_of_left_ne_nil hp.whole_ne_nil _⟩
  · by_cases h : p.fraction = []
    · rw [if_pos h, h, List.append_nil]
      exact .plain
    · rw [if_neg h]
      exact .point _
  · unfold Parts.toChars
    cases p.negative
    · exact .unsigned
    · exact .minus

theorem Parts.Plain.parse_toChars (hlen : p.fraction.length ≤ places) :
    parse (String.ofList p.toChars) =
      if h : -9223372036854775808 < p.micros ∧ p.micros < 9223372036854775808 then
        .ok ⟨p.micros, Int.le_of_lt h.1, h.2⟩
      else .error (.outOfRange (String.ofList p.toChars)) := by
  have htrim : Text.trim (String.ofList p.toChars).toList = p.toChars := by
    rw [String.toList_ofList]
    exact Text.trim_of_trimmed (Text.trimmed_of_forall fun _ hc => hp.isBlank hc)
  have hspelled : p.Spelled (Text.trim (String.ofList p.toChars).toList) := by
    rw [htrim]
    exact hp.spelled
  rw [parse_of_spelled hspelled, if_neg (Nat.not_lt.mpr hlen), Text.trimmed, htrim]

end

def parts (d : Decimal) : Parts where
  negative := d.micros < 0
  whole := Nat.toDigits 10 (d.micros.natAbs / scale)
  fraction :=
    if d.micros.natAbs % scale = 0 then []
    else dropTrailingZeros (fractionDigits (d.micros.natAbs % scale))

theorem fraction_ne_nil {n : Nat} (h : n ≠ 0) : dropTrailingZeros (fractionDigits n) ≠ [] := by
  intro hnil
  have happend := append_zeros_dropTrailingZeros (fractionDigits n)
  rw [hnil] at happend
  have hvalue := congrArg digitsValue happend
  rw [digitsValue_append_zeros, digitsValue_fractionDigits] at hvalue
  exact h hvalue.symm

theorem toChars_eq (d : Decimal) : d.toChars = d.parts.toChars := by
  unfold toChars parts Parts.toChars
  by_cases h : d.micros.natAbs % scale = 0
  · simp [h]
  · simp [h, fraction_ne_nil h]

theorem plain_parts (d : Decimal) : d.parts.Plain := by
  constructor
  · exact Nat.toDigits_ne_nil
  · intro c hc
    exact isDigit_of_mem_toDigits hc
  · intro c hc
    unfold parts at hc
    dsimp only at hc
    split at hc
    · cases hc
    · exact isDigit_of_mem_fractionDigits ((prefix_dropTrailingZeros _).subset hc)

theorem length_fraction_parts (d : Decimal) : d.parts.fraction.length ≤ places := by
  unfold parts
  dsimp only
  split
  · exact Nat.zero_le _
  · rw [← length_fractionDigits (Nat.mod_lt d.micros.natAbs (by decide : 0 < scale))]
    exact (prefix_dropTrailingZeros _).length_le

theorem value_fraction_parts (d : Decimal) :
    digitsValue d.parts.fraction * Nat.pow 10 (places - d.parts.fraction.length) =
      d.micros.natAbs % scale := by
  unfold parts
  dsimp only
  split
  · rename_i h
    rw [h]
    rfl
  · have hlen := length_fractionDigits (Nat.mod_lt d.micros.natAbs (by decide : 0 < scale))
    have happend := append_zeros_dropTrailingZeros (fractionDigits (d.micros.natAbs % scale))
    have hvalue := congrArg digitsValue happend
    rw [digitsValue_append_zeros, digitsValue_fractionDigits, hlen] at hvalue
    rw [Nat.mul_comm]
    exact hvalue

theorem Parts.micros_eq {p : Parts} {n : Nat}
    (h : digitsValue p.whole * scale +
      digitsValue p.fraction * Nat.pow 10 (places - p.fraction.length) = n) :
    p.micros = if p.negative then -(n : Int) else n := by
  subst h
  rfl

theorem micros_parts (d : Decimal) : d.parts.micros = d.micros := by
  have hmagnitude : digitsValue d.parts.whole * scale +
      digitsValue d.parts.fraction * Nat.pow 10 (places - d.parts.fraction.length) = d.micros.natAbs := by
    rw [value_fraction_parts]
    change digitsValue (Nat.toDigits 10 (d.micros.natAbs / scale)) * scale + _ = _
    rw [digitsValue_toDigits]
    exact Nat.div_add_mod' d.micros.natAbs scale
  rw [Parts.micros_eq hmagnitude]
  by_cases h : d.micros < 0
  · rw [if_pos (by simpa [parts] using h)]
    omega
  · rw [if_neg (by simpa [parts] using h)]
    omega

/-- The least decimal is the only one whose text is out of range. -/
theorem parse_toString (d : Decimal) :
    parse (toString d) =
      if -9223372036854775808 < d.micros then .ok d else .error (.outOfRange (toString d)) := by
  have hparse := d.plain_parts.parse_toChars d.length_fraction_parts
  simp only [micros_parts, ← toChars_eq] at hparse
  change parse (String.ofList d.toChars) = _
  rw [hparse]
  by_cases h : -9223372036854775808 < d.micros
  · rw [dif_pos ⟨h, d.micros_lt⟩, if_pos h]
  · rw [dif_neg fun hd => h hd.1, if_neg h]
    rfl

theorem micros_of_parse {s : String} {d : Decimal} (h : parse s = .ok d) :
    -9223372036854775808 < d.micros := by
  rw [parse_eq] at h
  dsimp only at h
  split_ifs at h with _ _ _ hrange
  cases h
  exact hrange.1

end OfferLedger.Decimal
