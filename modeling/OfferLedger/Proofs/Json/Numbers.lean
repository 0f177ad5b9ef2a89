import OfferLedger.Proofs.Decimal.Canonical
import OfferLedger.Proofs.Decimal.Positional
import OfferLedger.Proofs.Text.Pieces

/-! # Numbers are read by their value

A number without exponent is read digit by digit. Without a fraction it is an integer, and the decimal that
it stands for is exact. With a fraction it goes through a binary number, and is exact where binary numbers lie
closer together than decimals with as many places; elsewhere only the string that holds the number is. -/
namespace OfferLedger.Json

open Decimal (Parts digitsValue isDigit)
open Text (encoded)

section

variable {c : Char} (h : isDigit c = true)
include h

theorem toNat_byte : (byte c).toNat = c.toNat := by
  have hcode := Decimal.code_of_isDigit h
  rw [byte, Nat.toUInt8_eq, UInt8.toNat_ofNat', Nat.mod_eq_of_lt (by omega)]

theorem isDigitByte_byte : isDigitByte (byte c) = true := by
  have hcode := Decimal.code_of_isDigit h
  have hnat := toNat_byte h
  rw [isDigitByte, Bool.and_eq_true, decide_eq_true_eq, decide_eq_true_eq, UInt8.le_iff_toNat_le,
    UInt8.le_iff_toNat_le, hnat]
  exact hcode

end

theorem ne_of_isDigitByte {b d : UInt8} (hd : isDigitByte d = false) (h : isDigitByte b = true) :
    b ≠ d := by
  rintro rfl
  rw [h] at hd
  cases hd

theorem isSpace_of_isDigitByte {b : UInt8} (h : isDigitByte b = true) : isSpace b = false := by
  simp only [isSpace, Bool.or_eq_false_iff, beq_eq_false_iff_ne]
  exact ⟨⟨⟨ne_of_isDigitByte rfl h, ne_of_isDigitByte rfl h⟩, ne_of_isDigitByte rfl h⟩,
    ne_of_isDigitByte rfl h⟩

theorem isDigitByte_of_mem {cs : List Char} (hcs : ∀ c ∈ cs, isDigit c = true) :
    ∀ b ∈ cs.map byte, isDigitByte b = true := by
  intro b hb
  obtain ⟨c, hc, rfl⟩ := List.mem_map.mp hb
  exact isDigitByte_byte (hcs c hc)

theorem absorb_digits {cs : List Char} (hcs : ∀ c ∈ cs, isDigit c = true) {n : Nat}
    (h : Nat.ofDigitChars 10 cs n < 18446744073709551616) :
    absorb n (cs.map byte) = (Nat.ofDigitChars 10 cs n, cs.length) := by
  induction cs generalizing n with
  | nil => rfl
  | cons c cs ih =>
    rw [Nat.ofDigitChars_cons] at h ⊢
    have hstep : 10 * n + ((byte c).toNat - 0x30) = 10 * n + (c.toNat - '0'.toNat) := by
      rw [toNat_byte (hcs c (List.mem_cons_self ..))]
      rfl
    have hlt := lt_of_le_of_lt (Text.le_ofDigitChars cs _) h
    simp only [List.map_cons, absorb, hstep, if_pos hlt, ih (fun d hd => hcs d (List.mem_cons_of_mem _ hd)) h,
      List.length_cons]

/-- No digit is next. -/
def Undigited (rest : List UInt8) : Prop := ∀ b, rest.head? = some b → isDigitByte b = false

/-- What follows does not continue the number. -/
def Ended (rest : List UInt8) : Prop :=
  ∀ b, rest.head? = some b → isDigitByte b = false ∧ b ≠ byte '.' ∧ b ≠ byte 'e' ∧ b ≠ byte 'E'

theorem ended_nil : Ended [] := nofun

theorem Ended.undigited {rest : List UInt8} (h : Ended rest) : Undigited rest := fun b hb => (h b hb).1

/-- The parts of a number as JSON has it: digits on both sides of the point, and no zero before others. -/
structure Numeral (p : Parts) : Prop where
  plain : p.Plain
  zero_alone : p.whole.head? = some '0' → p.whole = ['0']

theorem byte_ne_zero {c : Char} (h : isDigit c = true) (hc : c ≠ '0') : byte c ≠ byte '0' := by
  intro heq
  have hnat := congrArg UInt8.toNat heq
  rw [toNat_byte h, toNat_byte rfl] at hnat
  exact hc (Char.toNat_inj.mp hnat)

theorem Numeral.readDigits_eq {p : Parts} (hp : Numeral p) {rest : List UInt8} (hrest : Undigited rest)
    (negative : Bool) :
    readDigits negative (p.whole.map byte ++ rest) = finishNumber negative (p.whole.map byte) rest := by
  have hdigits := isDigitByte_of_mem hp.plain.whole
  have htake := Text.takeWhile_stop hdigits hrest
  have hdrop := Text.dropWhile_stop hdigits hrest
  cases hwhole : p.whole with
  | nil => exact absurd hwhole hp.plain.whole_ne_nil
  | cons c cs =>
    have hc : isDigit c = true := hp.plain.whole c (by simp [hwhole])
    rw [hwhole, List.map_cons, List.cons_append] at htake hdrop
    rw [List.map_cons, List.cons_append]
    unfold readDigits
    by_cases hzero : c = '0'
    · subst hzero
      have hcs : cs = [] := by simpa [hwhole] using hp.zero_alone (by rw [hwhole]; rfl)
      subst hcs
      cases rest with
      | nil => rfl
      | cons b rest =>
        have hb : ¬ isDigitByte b = true := by simp [hrest b rfl]
        exact if_neg hb
    · simp only [if_neg (byte_ne_zero hc hzero), if_pos (isDigitByte_byte hc), htake, hdrop]

theorem finishNumber_whole {cs : List Char} (hcs : ∀ c ∈ cs, isDigit c = true)
    (h : digitsValue cs ≤ 9223372036854775808) {rest : List UInt8} (hrest : Ended rest) (negative : Bool) :
    finishNumber negative (cs.map byte) rest =
      if negative then
        if digitsValue cs = 0 then doubleOf true 0 0 rest
        else .ok (.integer (-(digitsValue cs)), rest)
      else .ok (.integer (digitsValue cs), rest) := by
  have habsorb : absorb 0 (cs.map byte) = (digitsValue cs, cs.length) :=
    absorb_digits hcs (lt_of_le_of_lt h (by decide))
  have hdropped : ((cs.map byte).length : Int) - cs.length = 0 := by
    rw [List.length_map, Int.sub_self]
  have hwhole : finishNumber negative (cs.map byte) rest =
      finishNumber.whole negative rest (digitsValue cs) 0 := by
    rw [finishNumber, habsorb]
    dsimp only
    rw [hdropped]
    cases rest with
    | nil => rfl
    | cons b rest =>
      obtain ⟨-, hpoint, he, hE⟩ := hrest b rfl
      simp only [if_neg hpoint, he, hE, decide_false, Bool.or_self, Bool.false_eq_true, if_false]
  rw [hwhole, finishNumber.whole, if_neg (not_not.mpr rfl)]
  cases negative with
  | false => rfl
  | true =>
    by_cases hzero : digitsValue cs = 0
    · simp [hzero]
    · have hrange : ¬ 9223372036854775808 < digitsValue cs := Nat.not_lt.mpr h
      simp [hzero, hrange]

theorem finishNumber_fraction {whole fraction : List Char} (hwhole : ∀ c ∈ whole, isDigit c = true)
    (hfraction : ∀ c ∈ fraction, isDigit c = true) (hne : fraction ≠ [])
    (h : digitsValue (whole ++ fraction) < 18446744073709551616) {rest : List UInt8} (hrest : Ended rest)
    (negative : Bool) :
    finishNumber negative (whole.map byte) (byte '.' :: (fraction.map byte ++ rest)) =
      doubleOf negative (digitsValue (whole ++ fraction)) (-fraction.length) rest := by
  have happend : digitsValue (whole ++ fraction) = Nat.ofDigitChars 10 fraction (digitsValue whole) :=
    Nat.ofDigitChars_append 0
  rw [happend] at h ⊢
  have habsorb : absorb 0 (whole.map byte) = (digitsValue whole, whole.length) :=
    absorb_digits hwhole (lt_of_le_of_lt (Text.le_ofDigitChars fraction _) h)
  have hdigits := isDigitByte_of_mem hfraction
  have hnil : ¬ (fraction.map byte).isEmpty = true := by simp [hne]
  have hdropped : ((whole.map byte).length : Int) - whole.length - fraction.length = -fraction.length := by
    rw [List.length_map]
    omega
  rw [finishNumber, habsorb]
  simp only [if_true, Text.takeWhile_stop hdigits hrest.undigited, Text.dropWhile_stop hdigits hrest.undigited,
    if_neg hnil, absorb_digits hfraction h, hdropped]
  cases rest with
  | nil => rfl
  | cons b rest =>
    obtain ⟨-, -, he, hE⟩ := hrest b rfl
    simp only [finishDouble, he, hE, decide_false, Bool.or_self, Bool.false_eq_true, if_false]

def fractionBytes (p : Parts) : List UInt8 :=
  if p.fraction = [] then [] else byte '.' :: p.fraction.map byte

theorem encoded_digits {cs : List Char} (hcs : ∀ c ∈ cs, isDigit c = true) : encoded cs = cs.map byte := by
  apply encoded_of_ascii
  intro c hc
  have hcode := Decimal.code_of_isDigit (hcs c hc)
  omega

theorem encoded_toChars {p : Parts} (hp : p.Plain) :
    encoded p.toChars = (if p.negative then [byte '-'] else []) ++ (p.whole.map byte ++ fractionBytes p) := by
  have hsign : encoded (if p.negative then ['-'] else []) = if p.negative then [byte '-'] else [] := by
    split <;> rfl
  have hfraction : encoded (if p.fraction = [] then [] else '.' :: p.fraction) = fractionBytes p := by
    unfold fractionBytes
    split
    · rfl
    · rw [Text.encoded_cons, encoded_digits hp.fraction]
      rfl
  rw [Parts.toChars, Text.encoded_append, Text.encoded_append, hsign, encoded_digits hp.whole, hfraction]

theorem undigited_fraction (p : Parts) {rest : List UInt8} (hrest : Undigited rest) :
    Undigited (fractionBytes p ++ rest) := by
  unfold fractionBytes
  split
  · exact hrest
  · intro b hb
    cases hb
    rfl

theorem Numeral.readDecimal_of_finishNumber {p : Parts} (hp : Numeral p) {gap : List UInt8}
    (hgap : Blank gap) {rest : List UInt8} (hrest : Undigited rest) {n : Number}
    (h : finishNumber p.negative (p.whole.map byte) (fractionBytes p ++ rest) = .ok (n, rest)) :
    readDecimal (gap ++ (encoded p.toChars ++ rest)) = n.toDecimal rest := by
  have hwhole := isDigitByte_of_mem hp.plain.whole
  have hne := hp.plain.whole_ne_nil
  rw [← hp.readDigits_eq (undigited_fraction p hrest)] at h
  rw [encoded_toChars hp.plain, List.append_assoc, List.append_assoc]
  cases hnegative : p.negative with
  | true =>
    rw [hnegative] at h
    rw [if_pos rfl, List.singleton_append, readDecimal, skipSpaces_gap hgap rfl]
    change (readDigits true _ >>= _) = _
    rw [h]
    rfl
  | false =>
    rw [hnegative] at h
    cases hcs : p.whole.map byte with
    | nil => exact absurd (List.map_eq_nil_iff.mp hcs) hne
    | cons b bytes =>
      have hb : isDigitByte b = true := hwhole b (by simp [hcs])
      rw [hcs, List.cons_append] at h
      rw [if_neg Bool.false_ne_true, List.nil_append, List.cons_append, readDecimal,
        skipSpaces_gap hgap (isSpace_of_isDigitByte hb)]
      simp only [if_neg (ne_of_isDigitByte (d := byte '"') rfl hb),
        if_neg (ne_of_isDigitByte (d := byte '-') rfl hb), if_pos hb, h]
      rfl

/-- Either there is no fraction, or the value lies below a power of two up to which binary numbers lie closer
together than decimals with as many places. -/
def Resolved (p : Parts) : Prop :=
  p.fraction = [] ∨ ∃ e : Nat, |p.value| < 2 ^ e ∧ 2 ^ e * 10 ^ p.fraction.length < 2 ^ 53

theorem toDecimal_double {x : Binary64} {d : Decimal} (hd : -9223372036854775808 < d.micros)
    (hexponent : -6 ≤ (x.shortest .upper).exponent)
    (hvalue : (d.micros : ℚ) =
      (if x.negative then -(x.shortest .upper).value else (x.shortest .upper).value) * 10 ^ 6)
    (rest : List UInt8) : (Number.double x).toDecimal rest = .ok (d, rest) := by
  rw [Number.toDecimal, decimalOf, Binary64.parse_plain hd hexponent hvalue]

theorem toDecimal_integer {n : Int} {d : Decimal} (hd : n * Decimal.scale = d.micros) (rest : List UInt8) :
    (Number.integer n).toDecimal rest = .ok (d, rest) := by
  have hof : Decimal.ofInt? n = some d := by
    simp only [Decimal.ofInt?, hd]
    exact dif_pos ⟨d.min_le_micros, d.micros_lt⟩
  rw [Number.toDecimal, hof]

theorem finishNumber_toDecimal {cs : List Char} (hcs : ∀ c ∈ cs, isDigit c = true) {negative : Bool}
    {d : Decimal} (hmin : -9223372036854775808 < d.micros)
    (hd : d.micros =
      if negative then -((digitsValue cs * 1000000 : Nat) : Int) else (digitsValue cs * 1000000 : Nat))
    {rest : List UInt8} (hrest : Ended rest) :
    ∃ n, finishNumber negative (cs.map byte) rest = .ok (n, rest) ∧ n.toDecimal rest = .ok (d, rest) := by
  have hscale : (Decimal.scale : Int) = 1000000 := rfl
  have hmax := d.micros_lt
  have hle : digitsValue cs ≤ 9223372036854775808 := by
    split at hd <;> omega
  rw [finishNumber_whole hcs hle hrest]
  cases negative with
  | false =>
    rw [if_neg Bool.false_ne_true] at hd
    refine ⟨.integer (digitsValue cs), if_neg Bool.false_ne_true, ?_⟩
    apply toDecimal_integer
    rw [hscale]
    omega
  | true =>
    rw [if_pos rfl] at hd
    rw [if_pos rfl]
    by_cases hzero : digitsValue cs = 0
    · refine ⟨.double ⟨true, 0, -1074⟩, if_pos hzero, ?_⟩
      apply toDecimal_double hmin
      · decide
      · rw [hd, hzero]
        simp [Binary64.shortest, Binary64.Digits.value]
    · refine ⟨.integer (-(digitsValue cs)), if_neg hzero, ?_⟩
      apply toDecimal_integer
      rw [hscale]
      omega

section

variable {p : Parts} (hp : Numeral p) {d : Decimal} (hmin : -9223372036854775808 < d.micros)
  (hd : d.micros = p.micros) {gap rest : List UInt8} (hgap : Blank gap) (hrest : Ended rest)
include hp hmin hd hgap hrest

theorem Numeral.readDecimal_whole (hwhole : p.fraction = []) :
    readDecimal (gap ++ (encoded p.toChars ++ rest)) = .ok (d, rest) := by
  have hmagnitude : p.magnitude = digitsValue p.whole * 1000000 := by
    have hnone : digitsValue [] = 0 := rfl
    rw [Parts.magnitude, hwhole, hnone, Nat.zero_mul, Nat.add_zero, Decimal.scale]
  have hbytes : fractionBytes p = [] := if_pos hwhole
  rw [Parts.micros, hmagnitude] at hd
  obtain ⟨n, hread, hn⟩ := finishNumber_toDecimal hp.plain.whole hmin hd hrest
  rw [hp.readDecimal_of_finishNumber hgap hrest.undigited (by rw [hbytes]; exact hread), hn]

theorem Numeral.readDecimal_fraction (hlen : p.fraction.length ≤ 6) (hne : p.fraction ≠ []) {e : Nat}
    (he : |p.value| < 2 ^ e) (hspace : 2 ^ e * 10 ^ p.fraction.length < 2 ^ 53) :
    readDecimal (gap ++ (encoded p.toChars ++ rest)) = .ok (d, rest) := by
  have hten : (0 : ℚ) < 10 ^ p.fraction.length := by positivity
  have hlt : p.significand < 2 ^ e * 10 ^ p.fraction.length := by
    rw [p.abs_value, div_lt_iff₀ hten] at he
    exact_mod_cast he
  have hlarge : digitsValue (p.whole ++ p.fraction) < 18446744073709551616 :=
    (hlt.trans hspace).trans (by norm_num)
  obtain ⟨x, hx, hsign, hshortest⟩ :=
    Binary64.exists_shortest (List.length_pos_iff.mpr hne) hlen hlt hspace p.negative
  obtain ⟨hvalue, hexponent⟩ := hshortest .upper
  have hmicros : (d.micros : ℚ) =
      (if x.negative then -(x.shortest .upper).value else (x.shortest .upper).value) * 10 ^ 6 := by
    rw [hd, Parts.micros_eq_value hlen, p.value_eq, hsign, hvalue]
  have hbytes : fractionBytes p = byte '.' :: p.fraction.map byte := if_neg hne
  have hread : finishNumber p.negative (p.whole.map byte) (fractionBytes p ++ rest) =
      .ok (.double x, rest) := by
    rw [hbytes, List.cons_append,
      finishNumber_fraction hp.plain.whole hp.plain.fraction hne hlarge hrest, doubleOf,
      ← Parts.significand, hx]
  rw [hp.readDecimal_of_finishNumber hgap hrest.undigited hread]
  exact toDecimal_double hmin (by omega) hmicros rest

end

theorem resolved_of_two_places {p : Parts} (hlen : p.fraction.length ≤ 2)
    (hrange : |p.value| * 10 ^ 6 ≤ 2 ^ 63 - 1) : Resolved p := by
  right
  refine ⟨44, ?_, ?_⟩
  · linarith
  · calc 2 ^ 44 * 10 ^ p.fraction.length
      _ ≤ 2 ^ 44 * 10 ^ 2 := Nat.mul_le_mul_left _ (Nat.pow_le_pow_right (by decide) hlen)
      _ < 2 ^ 53 := by norm_num

/-- A number with at most six places is read as its exact value from the string that holds it. Within the
limit it is read as the same decimal when it is written as a number, alone and among other text. -/
theorem readDecimal_numeral {p : Parts} (hp : Numeral p) (hlen : p.fraction.length ≤ 6)
    (hrange : |p.value| * 10 ^ 6 ≤ 2 ^ 63 - 1) :
    ∃ d : Decimal, (d.micros : ℚ) = p.value * 10 ^ 6 ∧
      (readAll readDecimal (Text.utf8 (Json.str (String.ofList p.toChars)).compact) = .ok d ∧
        ∀ gap rest, Blank gap →
          readDecimal (gap ++ (quoted (String.ofList p.toChars) ++ rest)) = .ok (d, rest)) ∧
      (Resolved p →
        readAll readDecimal (Text.utf8 (String.ofList p.toChars)) = .ok d ∧
        ∀ gap rest, Blank gap → Ended rest →
          readDecimal (gap ++ (Text.utf8 (String.ofList p.toChars) ++ rest)) = .ok (d, rest)) := by
  obtain ⟨hmin, hmax⟩ := (Parts.abs_value_le_iff hlen).mp hrange
  let d : Decimal := ⟨p.micros, Int.le_of_lt hmin, hmax⟩
  have hvalue : (d.micros : ℚ) = p.value * 10 ^ 6 := Parts.micros_eq_value hlen
  have hutf8 : Text.utf8 (String.ofList p.toChars) = encoded p.toChars := by
    rw [Text.utf8_eq, String.toList_ofList]
  have hparse : Decimal.parse (String.ofList p.toChars) = .ok d :=
    hp.plain.parse_of_value hlen hmin hvalue
  refine ⟨d, hvalue, ⟨?_, fun gap rest hgap => readDecimal_quoted hgap hparse rest⟩, fun hresolved => ?_⟩
  · rw [Decimal.readAll_str, hparse]
  have hread : ∀ {gap rest}, Blank gap → Ended rest →
      readDecimal (gap ++ (encoded p.toChars ++ rest)) = .ok (d, rest) := by
    intro gap rest hgap hrest
    by_cases hwhole : p.fraction = []
    · exact hp.readDecimal_whole hmin rfl hgap hrest hwhole
    · obtain ⟨e, he, hspace⟩ := hresolved.resolve_left hwhole
      exact hp.readDecimal_fraction hmin rfl hgap hrest hlen hwhole he hspace
  rw [hutf8]
  refine ⟨?_, fun gap rest hgap hrest => hread hgap hrest⟩
  have hall := hread blank_nil ended_nil
  rw [List.nil_append, List.append_nil] at hall
  rw [readAll, hall]
  rfl

/-- The greatest number with six places within the limit, and the greatest one with two places. -/
theorem readDecimal_numeral_of_greatest :
    (∃ d : Decimal, (d.micros : ℚ) = 8589934591999999 ∧
      readAll readDecimal (Text.utf8 "8589934591.999999") = .ok d ∧
      readAll readDecimal (Text.utf8 (Json.str "8589934591.999999").compact) = .ok d) ∧
    ∃ d : Decimal, (d.micros : ℚ) = -9223372036854770000 ∧
      readAll readDecimal (Text.utf8 "-9223372036854.77") = .ok d ∧
      readAll readDecimal (Text.utf8 (Json.str "-9223372036854.77").compact) = .ok d := by
  constructor
  · let p : Parts := ⟨false, "8589934591".toList, "999999".toList⟩
    have hp : Numeral p := ⟨⟨nofun, List.all_eq_true.mp rfl, List.all_eq_true.mp rfl⟩, nofun⟩
    have hvalue : p.value = 8589934591 + 999999 / 10 ^ 6 := by
      change ((8589934591 : ℕ) : ℚ) + ((999999 : ℕ) : ℚ) / 10 ^ 6 = _
      norm_num
    have hrange : |p.value| * 10 ^ 6 ≤ 2 ^ 63 - 1 := by
      rw [hvalue]
      norm_num [abs_of_pos]
    have hresolved : Resolved p := .inr ⟨33, by rw [hvalue]; norm_num [abs_of_pos], by decide⟩
    have htext : String.ofList p.toChars = "8589934591.999999" := by decide
    obtain ⟨d, hd, hstring, hnumber⟩ := readDecimal_numeral hp (by decide) hrange
    rw [htext] at hstring hnumber
    refine ⟨d, ?_, (hnumber hresolved).1, hstring.1⟩
    rw [hd, hvalue]
    norm_num
  · let p : Parts := ⟨true, "9223372036854".toList, "77".toList⟩
    have hp : Numeral p := ⟨⟨nofun, List.all_eq_true.mp rfl, List.all_eq_true.mp rfl⟩, nofun⟩
    have hvalue : p.value = -(9223372036854 + 77 / 10 ^ 2) := by
      change -(((9223372036854 : ℕ) : ℚ) + ((77 : ℕ) : ℚ) / 10 ^ 2) = _
      norm_num
    have hrange : |p.value| * 10 ^ 6 ≤ 2 ^ 63 - 1 := by
      rw [hvalue]
      norm_num [abs_of_neg]
    have hresolved : Resolved p := resolved_of_two_places (by decide) hrange
    have htext : String.ofList p.toChars = "-9223372036854.77" := by decide
    obtain ⟨d, hd, hstring, hnumber⟩ := readDecimal_numeral hp (by decide) hrange
    rw [htext] at hstring hnumber
    refine ⟨d, ?_, (hnumber hresolved).1, hstring.1⟩
    rw [hd, hvalue]
    norm_num

/-- The least number with six places beyond the limit is read as a decimal that it does not denote, though the
string that holds it is read as its exact value. -/
theorem number_rounded :
    ∃ number string : Decimal,
      readAll readDecimal (Text.utf8 "8589934592.000001") = .ok number ∧
      readAll readDecimal (Text.utf8 (Json.str "8589934592.000001").compact) = .ok string ∧
      number.micros = 8589934592000002 ∧ string.micros = 8589934592000001 := by
  refine ⟨⟨8589934592000002, by decide, by decide⟩, ⟨8589934592000001, by decide, by decide⟩, ?_, ?_, rfl,
    rfl⟩
  · rw [Text.utf8_eq]
    decide +kernel
  · rw [Decimal.readAll_str]
    rfl

end OfferLedger.Json
