import OfferLedger.Proofs.Decimal.Magnitude
import OfferLedger.Proofs.Text.Pieces
import Mathlib.Algebra.Order.Field.Basic
import Mathlib.Data.Rat.Cast.Order
import Mathlib.Tactic.NormNum

/-! # Decimals are read by their value

A text spells a number by digits with at most one point among them, behind at most one sign. Reading takes
such a text apart in the only way there is, and answers the exact value that it spells unless this has more
than six places or is out of range. -/
namespace OfferLedger.Decimal

inductive Signed (digits : List Char) : Bool → List Char → Prop where
  | minus : Signed digits true ('-' :: digits)
  | plus : Signed digits false ('+' :: digits)
  | unsigned : Signed digits false digits

/-- Without a point there is no fraction; behind a point it may still be empty. -/
inductive Pointed (whole : List Char) : List Char → List Char → Prop where
  | plain : Pointed whole [] whole
  | point (fraction : List Char) : Pointed whole fraction (whole ++ '.' :: fraction)

namespace Parts

/-- The text spells a number of which these are the sign, the digits before the point and those behind it. -/
structure Spelled (p : Parts) (cs : List Char) : Prop where
  layout : ∃ digits, Pointed p.whole p.fraction digits ∧ Signed digits p.negative cs
  whole : ∀ c ∈ p.whole, isDigit c = true
  fraction : ∀ c ∈ p.fraction, isDigit c = true
  ne_nil : p.whole ++ p.fraction ≠ []

/-- The rational number that is spelled. -/
def value (p : Parts) : ℚ :=
  let magnitude : ℚ := digitsValue p.whole + digitsValue p.fraction / 10 ^ p.fraction.length
  if p.negative then -magnitude else magnitude

end Parts

theorem ne_of_isDigit {c d : Char} (hd : isDigit d = false) (h : isDigit c = true) : c ≠ d := by
  rintro rfl
  rw [h] at hd
  cases hd

theorem pointed_cut (cs : List Char) :
    Pointed (cs.takeWhile (· ≠ '.')) ((cs.dropWhile (· ≠ '.')).drop 1) cs := by
  have hsplit := List.takeWhile_append_dropWhile (p := fun c : Char => decide (c ≠ '.')) (l := cs)
  have hhead := List.head?_dropWhile_not (fun c : Char => decide (c ≠ '.')) cs
  cases hdrop : cs.dropWhile (· ≠ '.') with
  | nil =>
    rw [hdrop, List.append_nil] at hsplit
    rw [hsplit]
    exact .plain
  | cons c rest =>
    rw [hdrop] at hsplit hhead
    have hc : c = '.' := by simpa using hhead
    subst hc
    have hpoint : Pointed (cs.takeWhile (· ≠ '.')) rest (cs.takeWhile (· ≠ '.') ++ '.' :: rest) :=
      .point rest
    rw [hsplit] at hpoint
    exact hpoint

theorem Pointed.cut {whole fraction cs : List Char} (h : Pointed whole fraction cs)
    (hwhole : '.' ∉ whole) :
    cs.takeWhile (· ≠ '.') = whole ∧ (cs.dropWhile (· ≠ '.')).drop 1 = fraction := by
  have hpos : ∀ c ∈ whole, decide (c ≠ '.') = true := by
    intro c hc
    exact decide_eq_true (ne_of_mem_of_not_mem hc hwhole)
  cases h with
  | plain =>
    rw [List.takeWhile_eq_self_iff.mpr hpos, List.dropWhile_eq_nil_iff.mpr hpos]
    exact ⟨rfl, rfl⟩
  | point =>
    have hstop : ∀ c, ('.' :: fraction).head? = some c → decide (c ≠ '.') = false := by
      rintro c ⟨⟩
      rfl
    rw [Text.takeWhile_stop hpos hstop, Text.dropWhile_stop hpos hstop]
    exact ⟨rfl, rfl⟩

theorem Pointed.isDigit_or_eq {whole fraction cs : List Char} (h : Pointed whole fraction cs)
    (hwhole : ∀ c ∈ whole, isDigit c = true) (hfraction : ∀ c ∈ fraction, isDigit c = true) {c : Char}
    (hc : c ∈ cs) : isDigit c = true ∨ c = '.' := by
  cases h with
  | plain => exact .inl (hwhole c hc)
  | point =>
    rcases List.mem_append.mp hc with hc | hc
    · exact .inl (hwhole c hc)
    rcases List.mem_cons.mp hc with hc | hc
    · exact .inr hc
    · exact .inl (hfraction c hc)

namespace Parts

theorem ofText_unsigned {c : Char} {rest : List Char} (hminus : c ≠ '-') (hplus : c ≠ '+') :
    ofText (c :: rest) =
      ⟨false, (c :: rest).takeWhile (· ≠ '.'), ((c :: rest).dropWhile (· ≠ '.')).drop 1⟩ := by
  unfold ofText
  split
  rename_i negative digits h
  split at h
  · rename_i hcs
    exact absurd (List.cons.inj hcs).1 hminus
  · rename_i hcs
    exact absurd (List.cons.inj hcs).1 hplus
  · cases h
    rfl

theorem exists_layout (cs : List Char) :
    ∃ digits, Pointed (ofText cs).whole (ofText cs).fraction digits ∧
      Signed digits (ofText cs).negative cs := by
  cases cs with
  | nil => exact ⟨[], .plain, .unsigned⟩
  | cons c rest =>
    by_cases hminus : c = '-'
    · subst hminus
      exact ⟨rest, pointed_cut rest, .minus⟩
    by_cases hplus : c = '+'
    · subst hplus
      exact ⟨rest, pointed_cut rest, .plus⟩
    rw [ofText_unsigned hminus hplus]
    exact ⟨c :: rest, pointed_cut _, .unsigned⟩

theorem wellFormed_iff (p : Parts) :
    p.wellFormed = true ↔ (∀ c ∈ p.whole, isDigit c = true) ∧ (∀ c ∈ p.fraction, isDigit c = true) ∧
      p.whole ++ p.fraction ≠ [] := by
  simp only [wellFormed, Bool.and_eq_true, List.all_eq_true, Bool.not_eq_true', Bool.and_eq_false_iff,
    List.isEmpty_eq_false_iff, ne_eq, List.append_eq_nil_iff, not_and_or]
  tauto

theorem Spelled.ofText_eq {p : Parts} {cs : List Char} (h : p.Spelled cs) : ofText cs = p := by
  obtain ⟨digits, hdigits, hsign⟩ := h.layout
  have hpoint : '.' ∉ p.whole := fun hmem => ne_of_isDigit rfl (h.whole _ hmem) rfl
  obtain ⟨hwhole, hfraction⟩ := hdigits.cut hpoint
  have hother : ∀ c ∈ digits, isDigit c = true ∨ c = '.' := fun c =>
    hdigits.isDigit_or_eq h.whole h.fraction
  obtain ⟨negative, whole, fraction⟩ := p
  cases hsign with
  | minus => exact congrArg₂ (Parts.mk true) hwhole hfraction
  | plus => exact congrArg₂ (Parts.mk false) hwhole hfraction
  | unsigned =>
    cases cs with
    | nil => exact congrArg₂ (Parts.mk false) hwhole hfraction
    | cons c rest =>
      have hsign : ∀ d, isDigit d = false → d ≠ '.' → c ≠ d := by
        rintro d hd hpoint rfl
        rcases hother c (List.mem_cons_self ..) with hc | hc
        · exact ne_of_isDigit hd hc rfl
        · exact hpoint hc
      rw [ofText_unsigned (hsign '-' rfl (by decide)) (hsign '+' rfl (by decide))]
      exact congrArg₂ (Parts.mk false) hwhole hfraction

theorem spelled_iff {p : Parts} {cs : List Char} :
    p.Spelled cs ↔ ofText cs = p ∧ p.wellFormed = true := by
  constructor
  · intro h
    exact ⟨h.ofText_eq, p.wellFormed_iff.mpr ⟨h.whole, h.fraction, h.ne_nil⟩⟩
  · rintro ⟨rfl, hformed⟩
    obtain ⟨hwhole, hfraction, hne⟩ := (wellFormed_iff _).mp hformed
    exact ⟨exists_layout cs, hwhole, hfraction, hne⟩

theorem micros_eq_value {p : Parts} (h : p.fraction.length ≤ places) :
    (p.micros : ℚ) = p.value * 10 ^ 6 := by
  have hpow : (10 : ℚ) ^ 6 = 10 ^ p.fraction.length * 10 ^ (places - p.fraction.length) := by
    rw [← pow_add, Nat.add_sub_cancel' h]
    rfl
  have hfraction : (digitsValue p.fraction : ℚ) / 10 ^ p.fraction.length * 10 ^ 6 =
      digitsValue p.fraction * 10 ^ (places - p.fraction.length) := by
    rw [hpow, ← mul_assoc, div_mul_cancel₀ _ (pow_ne_zero _ (by norm_num))]
  have hmagnitude : (p.magnitude : ℚ) =
      (digitsValue p.whole + digitsValue p.fraction / 10 ^ p.fraction.length) * 10 ^ 6 := by
    rw [add_mul, hfraction, magnitude]
    push_cast [scale, Nat.pow_eq]
    norm_num
  unfold micros value
  split
  · rw [Int.cast_neg, Int.cast_natCast, hmagnitude, neg_mul]
  · rw [Int.cast_natCast, hmagnitude]

theorem abs_value_le_iff {p : Parts} (h : p.fraction.length ≤ places) :
    |p.value| * 10 ^ 6 ≤ 2 ^ 63 - 1 ↔
      -9223372036854775808 < p.micros ∧ p.micros < 9223372036854775808 := by
  have habs : |p.value| * 10 ^ 6 = ((|p.micros| : ℤ) : ℚ) := by
    rw [Int.cast_abs, micros_eq_value h, abs_mul, abs_of_pos (show (0 : ℚ) < 10 ^ 6 by positivity)]
  have hbound : (2 : ℚ) ^ 63 - 1 = ((9223372036854775807 : ℤ) : ℚ) := by norm_num
  rw [habs, hbound, Int.cast_le, abs_le]
  omega

end Parts

theorem parse_of_spelled {s : String} {p : Parts} (h : p.Spelled (Text.trim s.toList)) :
    parse s =
      if p.fraction.length > places then .error (.tooManyPlaces (Text.trimmed s))
      else if h : -9223372036854775808 < p.micros ∧ p.micros < 9223372036854775808 then
        .ok ⟨p.micros, Int.le_of_lt h.1, h.2⟩
      else .error (.outOfRange (Text.trimmed s)) := by
  obtain ⟨hparts, hformed⟩ := Parts.spelled_iff.mp h
  have hne : Text.trim s.toList ≠ [] := by
    intro hnil
    rw [hnil] at hparts
    subst hparts
    cases hformed
  simp only [parse_eq, hparts, hformed, List.isEmpty_iff, hne, if_false, Bool.not_true,
    Bool.false_eq_true, Text.trimmed]

/-- What is read of a text without the blanks around it: nothing of an empty one, nothing of one that
spells no number, and otherwise the exact value, if it has at most six places and is in range. -/
theorem parse_by_value (s : String) :
    (Text.trim s.toList = [] → parse s = .error .empty) ∧
    (Text.trim s.toList ≠ [] → (¬ ∃ p : Parts, p.Spelled (Text.trim s.toList)) →
      parse s = .error (.invalid (Text.trimmed s))) ∧
    ∀ p : Parts, p.Spelled (Text.trim s.toList) →
      (6 < p.fraction.length → parse s = .error (.tooManyPlaces (Text.trimmed s))) ∧
      (p.fraction.length ≤ 6 → |p.value| * 10 ^ 6 ≤ 2 ^ 63 - 1 →
        ∃ d, parse s = .ok d ∧ (d.micros : ℚ) = p.value * 10 ^ 6) ∧
      (p.fraction.length ≤ 6 → 2 ^ 63 - 1 < |p.value| * 10 ^ 6 →
        parse s = .error (.outOfRange (Text.trimmed s))) := by
  refine ⟨fun hnil => ?_, fun hne hnot => ?_, fun p hp => ⟨fun hlong => ?_, fun hlen hle => ?_,
    fun hlen hlt => ?_⟩⟩
  · simp [parse_eq, hnil]
  · have hformed : (Parts.ofText (Text.trim s.toList)).wellFormed = false := by
      by_contra h
      exact hnot ⟨_, Parts.spelled_iff.mpr ⟨rfl, by simpa using h⟩⟩
    simp [parse_eq, hne, hformed, Text.trimmed]
  · have hlong : p.fraction.length > places := hlong
    rw [parse_of_spelled hp, if_pos hlong]
  · have hshort : ¬ p.fraction.length > places := Nat.not_lt.mpr hlen
    have hrange := (Parts.abs_value_le_iff hlen).mp hle
    rw [parse_of_spelled hp, if_neg hshort, dif_pos hrange]
    exact ⟨_, rfl, Parts.micros_eq_value hlen⟩
  · have hshort : ¬ p.fraction.length > places := Nat.not_lt.mpr hlen
    have hrange := fun h => not_le.mpr hlt ((Parts.abs_value_le_iff hlen).mpr h)
    rw [parse_of_spelled hp, if_neg hshort, dif_neg hrange]

/-- A text without digits before its point, and one whose magnitude is just out of range. -/
theorem parse_by_value_of_ends :
    (∃ d, parse "\u3000-.50" = .ok d ∧ (d.micros : ℚ) = -(1 / 2) * 10 ^ 6) ∧
      parse " -9223372036854.775808" = .error (.outOfRange "-9223372036854.775808") := by
  let half : Parts := ⟨true, [], "50".toList⟩
  have hhalf : half.Spelled (Text.trim "\u3000-.50".toList) :=
    Parts.spelled_iff.mpr ⟨by decide, by decide⟩
  have hvalue : half.value = -(1 / 2) := by
    change -(((0 : ℕ) : ℚ) + ((50 : ℕ) : ℚ) / 10 ^ 2) = _
    norm_num
  have hle : |half.value| * 10 ^ 6 ≤ 2 ^ 63 - 1 := by
    rw [hvalue]
    norm_num [abs_of_neg]
  let least : Parts := ⟨true, "9223372036854".toList, "775808".toList⟩
  have hleast : least.Spelled (Text.trim " -9223372036854.775808".toList) :=
    Parts.spelled_iff.mpr ⟨by decide, by decide⟩
  have hlt : 2 ^ 63 - 1 < |least.value| * 10 ^ 6 := by
    change (2 : ℚ) ^ 63 - 1 < |-(((9223372036854 : ℕ) : ℚ) + ((775808 : ℕ) : ℚ) / 10 ^ 6)| * 10 ^ 6
    norm_num [abs_of_neg]
  constructor
  · rw [← hvalue]
    exact ((parse_by_value _).2.2 half hhalf).2.1 (by decide) hle
  · exact ((parse_by_value _).2.2 least hleast).2.2 (by decide) hlt

end OfferLedger.Decimal
