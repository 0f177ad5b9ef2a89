import OfferLedger.Timestamp
import OfferLedger.Proofs.Decimal.RoundTrip
import Mathlib.Data.String.Basic
import Mathlib.Order.Compare
import Mathlib.Order.Monotone.Basic

/-! # The order of moments and of their texts

The calendar counts days forward, and a date and a time of day are written in fields of a fixed width,
so of two moments in the years 0 to 9999 the earlier one has the smaller text. -/
namespace OfferLedger.Timestamp

def yearOfEra (day : Nat) : Nat := (day - day / 1460 + day / 36524 - day / 146096) / 365

def yearStart (year : Nat) : Nat := 365 * year + year / 4 - year / 100

theorem yearOfEra_mono : Monotone yearOfEra := by
  refine monotone_nat_of_le_succ fun day => Nat.div_le_div_right ?_
  omega

/-- The formula for the year is right on the first and the last day of each. -/
theorem yearOfEra_ends : ∀ year < 399, yearOfEra (yearStart (year + 1)) = year + 1 ∧
    yearOfEra (yearStart (year + 1) - 1) = year := by
  decide +kernel

section

variable {day : Nat} (hday : day < 146097)
include hday

theorem yearOfEra_le : yearOfEra day ≤ 399 := by
  have hmono := yearOfEra_mono (Nat.le_of_lt_succ hday)
  have hlast : yearOfEra 146096 = 399 := by decide
  omega

theorem yearStart_le : yearStart (yearOfEra day) ≤ day := by
  have hle := yearOfEra_le hday
  by_contra hlt
  cases hyear : yearOfEra day with
  | zero =>
    rw [hyear] at hlt
    exact hlt (Nat.zero_le _)
  | succ year =>
    rw [hyear] at hlt
    have hmono := yearOfEra_mono (show day ≤ yearStart (year + 1) - 1 by omega)
    have hend := (yearOfEra_ends year (by omega)).2
    omega

theorem le_yearStart : day ≤ yearStart (yearOfEra day) + 365 := by
  have hle := yearOfEra_le hday
  rcases Nat.lt_or_ge (yearOfEra day) 399 with hyear | hyear
  · by_contra hlt
    have hnext : yearStart (yearOfEra day + 1) ≤ day := by
      unfold yearStart at hlt ⊢
      omega
    have hmono := yearOfEra_mono hnext
    rw [(yearOfEra_ends _ hyear).1] at hmono
    omega
  · have hlast : yearOfEra day = 399 := by omega
    have hstart : yearStart 399 = 145731 := by decide
    rw [hlast, hstart]
    omega

end

/-- A date by the year that began on the first of March, the month counted from then, and the day. -/
def marchDate (days : Int) : Int × Nat × Nat :=
  let z := days + 719468
  let day := (z.fmod 146097).toNat
  let dayOfYear := day - yearStart (yearOfEra day)
  let month := (5 * dayOfYear + 2) / 153
  (yearOfEra day + z.fdiv 146097 * 400, month, dayOfYear - (153 * month + 2) / 5 + 1)

theorem civil_eq (days : Int) :
    civil days =
      let (year, month, day) := marchDate days
      let month := if month < 10 then month + 3 else month - 9
      (if month ≤ 2 then year + 1 else year, month, day) := rfl

def Earlier (a b : Int × Nat × Nat) : Prop :=
  a.1 < b.1 ∨ a.1 = b.1 ∧ (a.2.1 < b.2.1 ∨ a.2.1 = b.2.1 ∧ a.2.2 < b.2.2)

/-- Months that begin in March have 31, 30, 31, 30 and 31 days over and over. -/
theorem earlier_monthDay {a b : Nat} (h : a < b) :
    (5 * a + 2) / 153 < (5 * b + 2) / 153 ∨ (5 * a + 2) / 153 = (5 * b + 2) / 153 ∧
      a - (153 * ((5 * a + 2) / 153) + 2) / 5 + 1 < b - (153 * ((5 * b + 2) / 153) + 2) / 5 + 1 := by
  omega

theorem earlier_marchDate {a b : Int} (h : a < b) : Earlier (marchDate a) (marchDate b) := by
  unfold marchDate Earlier
  dsimp only
  rw [Int.fdiv_eq_ediv_of_nonneg _ (by decide), Int.fdiv_eq_ediv_of_nonneg _ (by decide),
    Int.fmod_eq_emod_of_nonneg _ (by decide), Int.fmod_eq_emod_of_nonneg _ (by decide)]
  have hday (z : Int) : (z % 146097).toNat < 146097 := by omega
  have hyear := yearOfEra_le (hday (a + 719468))
  rcases lt_or_ge ((a + 719468) / 146097) ((b + 719468) / 146097) with hera | hera
  -- A year of an earlier era is smaller by more than an era has years to add.
  · exact .inl (by omega)
  · have hera : (a + 719468) / 146097 = (b + 719468) / 146097 := by omega
    have hlt : ((a + 719468) % 146097).toNat < ((b + 719468) % 146097).toNat := by omega
    have hstart := yearStart_le (hday (a + 719468))
    rw [hera]
    generalize ((a + 719468) % 146097).toNat = m at hlt hstart
    generalize ((b + 719468) % 146097).toNat = n at hlt
    rcases Nat.lt_or_eq_of_le (yearOfEra_mono (Nat.le_of_lt hlt)) with hyears | hyears
    · exact .inl (by omega)
    · refine .inr ⟨by rw [hyears], ?_⟩
      rw [hyears] at hstart ⊢
      exact earlier_monthDay (by omega)

theorem marchDate_bounds (days : Int) :
    (marchDate days).2.1 ≤ 11 ∧ 1 ≤ (marchDate days).2.2 ∧ (marchDate days).2.2 ≤ 31 := by
  unfold marchDate
  dsimp only
  rw [Int.fmod_eq_emod_of_nonneg _ (by decide)]
  have hle := le_yearStart (show ((days + 719468) % 146097).toNat < 146097 by omega)
  omega

theorem civil_bounds (days : Int) : 1 ≤ (civil days).2.1 ∧ (civil days).2.1 ≤ 12 ∧
    1 ≤ (civil days).2.2 ∧ (civil days).2.2 ≤ 31 := by
  have h := marchDate_bounds days
  rw [civil_eq]
  generalize marchDate days = date at h ⊢
  obtain ⟨year, month, day⟩ := date
  dsimp only at h ⊢
  split_ifs <;> omega

theorem earlier_civil {a b : Int} (h : a < b) : Earlier (civil a) (civil b) := by
  have hmarch := earlier_marchDate h
  have ha := marchDate_bounds a
  have hb := marchDate_bounds b
  rw [civil_eq, civil_eq]
  unfold Earlier at hmarch ⊢
  generalize marchDate a = date at hmarch ha ⊢
  generalize marchDate b = date' at hmarch hb ⊢
  obtain ⟨year, month, day⟩ := date
  obtain ⟨year', month', day'⟩ := date'
  dsimp only at hmarch ha hb ⊢
  split_ifs <;> omega

def paddedDigits (width n : Nat) : List Char :=
  List.replicate (width - (Nat.toDigits 10 n).length) '0' ++ Nat.toDigits 10 n

theorem toList_padded (width n : Nat) : (padded width n).toList = paddedDigits width n :=
  String.toList_ofList

theorem digitsValue_paddedDigits (width n : Nat) :
    Decimal.digitsValue (paddedDigits width n) = n := by
  rw [paddedDigits, Decimal.digitsValue_zeros_append, Decimal.digitsValue_toDigits]

theorem isDigit_of_mem_paddedDigits {width n : Nat} {c : Char} (h : c ∈ paddedDigits width n) :
    Decimal.isDigit c = true := by
  rcases List.mem_append.mp h with h | h
  · rw [List.eq_of_mem_replicate h]
    rfl
  · exact Decimal.isDigit_of_mem_toDigits h

theorem length_paddedDigits {width n : Nat} (hwidth : 0 < width) (h : n < Nat.pow 10 width) :
    (paddedDigits width n).length = width := by
  have hle := (Nat.length_toDigits_le_iff (by decide) hwidth).mpr h
  rw [paddedDigits, List.length_append, List.length_replicate]
  omega

theorem digitsValue_cons (c : Char) (cs : List Char) :
    Decimal.digitsValue (c :: cs) =
      Nat.pow 10 cs.length * Decimal.digitValue c + Decimal.digitsValue cs := by
  have hone : Decimal.digitsValue [c] = Decimal.digitValue c := Nat.zero_add _
  rw [← List.singleton_append, Decimal.digitsValue_append, hone]

theorem digitsValue_lt {cs : List Char} (h : ∀ c ∈ cs, Decimal.isDigit c = true) :
    Decimal.digitsValue cs < Nat.pow 10 cs.length := by
  induction cs with
  | nil => decide
  | cons c cs ih =>
    have hc := Decimal.code_of_isDigit (h c (List.mem_cons_self ..))
    have hlt := ih fun d hd => h d (List.mem_cons_of_mem _ hd)
    have hle : Decimal.digitValue c ≤ 9 := by
      change c.toNat - 48 ≤ 9
      omega
    calc Decimal.digitsValue (c :: cs)
      _ = Nat.pow 10 cs.length * Decimal.digitValue c + Decimal.digitsValue cs :=
        digitsValue_cons c cs
      _ < Nat.pow 10 cs.length * Decimal.digitValue c + Nat.pow 10 cs.length :=
        Nat.add_lt_add_left hlt _
      _ ≤ Nat.pow 10 cs.length * 9 + Nat.pow 10 cs.length :=
        Nat.add_le_add_right (Nat.mul_le_mul_left _ hle) _
      _ = Nat.pow 10 (cs.length + 1) := rfl

theorem lt_of_digitsValue_lt {cs ds : List Char} (hlength : cs.length = ds.length)
    (hcs : ∀ c ∈ cs, Decimal.isDigit c = true) (hds : ∀ d ∈ ds, Decimal.isDigit d = true)
    (h : Decimal.digitsValue cs < Decimal.digitsValue ds) (s t : List Char) :
    cs ++ s < ds ++ t := by
  induction cs generalizing ds with
  | nil =>
    rw [List.eq_nil_of_length_eq_zero hlength.symm] at h
    exact absurd h (Nat.lt_irrefl _)
  | cons c cs ih =>
    cases ds with
    | nil => cases hlength
    | cons d ds =>
      have hlength : cs.length = ds.length := Nat.succ.inj hlength
      have hc := Decimal.code_of_isDigit (hcs c (List.mem_cons_self ..))
      have hd := Decimal.code_of_isDigit (hds d (List.mem_cons_self ..))
      rw [digitsValue_cons, digitsValue_cons, hlength] at h
      have hlt := digitsValue_lt fun e he => hds e (List.mem_cons_of_mem _ he)
      have hle : Decimal.digitValue c ≤ Decimal.digitValue d := by
        by_contra hgt
        have hmul := Nat.mul_le_mul_left (Nat.pow 10 ds.length) (Nat.not_le.mp hgt)
        rw [Nat.mul_succ] at hmul
        omega
      rw [List.cons_append, List.cons_append, List.cons_lt_cons_iff]
      rcases Nat.lt_or_eq_of_le hle with hlt | heq
      · left
        change c.toNat - 48 < d.toNat - 48 at hlt
        rw [Char.lt_def, UInt32.lt_iff_toNat_lt]
        change c.toNat < d.toNat
        omega
      · right
        rw [heq] at h
        change c.toNat - 48 = d.toNat - 48 at heq
        exact ⟨Char.toNat_inj.mp (by omega),
          ih hlength (fun e he => hcs e (List.mem_cons_of_mem _ he))
            (fun e he => hds e (List.mem_cons_of_mem _ he)) (Nat.lt_of_add_lt_add_left h)⟩

theorem paddedDigits_lt {width m n : Nat} (hwidth : 0 < width) (hm : m < Nat.pow 10 width)
    (hn : n < Nat.pow 10 width) {s t : List Char} (h : m < n ∨ m = n ∧ s < t) :
    paddedDigits width m ++ s < paddedDigits width n ++ t := by
  rcases h with h | ⟨rfl, h⟩
  · refine lt_of_digitsValue_lt ?_ (fun _ => isDigit_of_mem_paddedDigits)
      (fun _ => isDigit_of_mem_paddedDigits) ?_ s t
    · rw [length_paddedDigits hwidth hm, length_paddedDigits hwidth hn]
    · rwa [digitsValue_paddedDigits, digitsValue_paddedDigits]
  · exact List.append_left_lt h

theorem twoDigits_lt {m n : Nat} (hm : m < 100) (hn : n < 100) {s t : List Char}
    (h : m < n ∨ m = n ∧ s < t) : paddedDigits 2 m ++ s < paddedDigits 2 n ++ t :=
  paddedDigits_lt (by decide) hm hn h

theorem threeDigits_lt {m n : Nat} (hm : m < 1000) (hn : n < 1000) {s t : List Char}
    (h : m < n ∨ m = n ∧ s < t) : paddedDigits 3 m ++ s < paddedDigits 3 n ++ t :=
  paddedDigits_lt (by decide) hm hn h

def dateChars (date : Int × Nat × Nat) (rest : List Char) : List Char :=
  paddedDigits 4 date.1.natAbs ++ '-' :: (paddedDigits 2 date.2.1 ++ '-' ::
    (paddedDigits 2 date.2.2 ++ rest))

theorem dateChars_lt {a b : Int × Nat × Nat} {s t : List Char}
    (ha : 0 ≤ a.1 ∧ a.1 ≤ 9999 ∧ a.2.1 ≤ 12 ∧ a.2.2 ≤ 31)
    (hb : 0 ≤ b.1 ∧ b.1 ≤ 9999 ∧ b.2.1 ≤ 12 ∧ b.2.2 ≤ 31)
    (h : Earlier a b ∨ a = b ∧ s < t) : dateChars a s < dateChars b t := by
  rcases h with h | ⟨rfl, h⟩
  · refine paddedDigits_lt (by decide) (show _ < 10000 by omega) (show _ < 10000 by omega) ?_
    rcases h with h | ⟨hyear, h⟩
    · exact .inl (by omega)
    · refine .inr ⟨by rw [hyear], List.cons_lt_cons_self.mpr ?_⟩
      refine twoDigits_lt (by omega) (by omega) ?_
      rcases h with h | ⟨hmonth, h⟩
      · exact .inl h
      · refine .inr ⟨hmonth, List.cons_lt_cons_self.mpr ?_⟩
        exact twoDigits_lt (by omega) (by omega) (.inl h)
  · exact List.append_left_lt (List.cons_lt_cons_self.mpr
      (List.append_left_lt (List.cons_lt_cons_self.mpr (List.append_left_lt h))))

theorem nil_lt_digits {n : Nat} (hn : n < 1000) (s : List Char) : [] < paddedDigits 3 n ++ s := by
  have hlength := length_paddedDigits (show 0 < 3 by decide) (show n < Nat.pow 10 3 from hn)
  cases hdigits : paddedDigits 3 n with
  | nil => simp [hdigits] at hlength
  | cons d ds => exact List.nil_lt_cons _ _

def fractionChars (n : Nat) : List Char :=
  if n = 0 then []
  else '.' :: (paddedDigits 3 (n / 1000000) ++
    if n % 1000000 = 0 then []
    else paddedDigits 3 (n / 1000 % 1000) ++
      if n % 1000 = 0 then [] else paddedDigits 3 (n % 1000))

/-- A group of zeros at the end is left out, and what is left is still smaller than any longer text. -/
theorem fractionChars_lt {m n : Nat} (hn : n < 1000000000) (h : m < n) :
    fractionChars m < fractionChars n := by
  unfold fractionChars
  rw [if_neg (show ¬ n = 0 by omega)]
  by_cases hm : m = 0
  · simp [hm]
  rw [if_neg hm, List.cons_lt_cons_self]
  apply threeDigits_lt (by omega) (by omega)
  by_cases h1 : m / 1000000 < n / 1000000
  · exact .inl h1
  refine .inr ⟨by omega, ?_⟩
  rw [if_neg (show ¬ n % 1000000 = 0 by omega)]
  by_cases hm : m % 1000000 = 0
  · rw [if_pos hm]
    exact nil_lt_digits (by omega) _
  rw [if_neg hm]
  apply threeDigits_lt (by omega) (by omega)
  by_cases h2 : m / 1000 % 1000 < n / 1000 % 1000
  · exact .inl h2
  refine .inr ⟨by omega, ?_⟩
  rw [if_neg (show ¬ n % 1000 = 0 by omega)]
  by_cases hm : m % 1000 = 0
  · simpa [hm] using nil_lt_digits (show n % 1000 < 1000 by omega) []
  · simpa [hm] using threeDigits_lt (s := []) (t := []) (show m % 1000 < 1000 by omega)
      (show n % 1000 < 1000 by omega) (.inl (by omega))

def timeChars (n : Nat) : List Char :=
  paddedDigits 2 (n / 1000000000 / 3600) ++ ':' :: (paddedDigits 2 (n / 1000000000 / 60 % 60) ++ ':' ::
    (paddedDigits 2 (n / 1000000000 % 60) ++ fractionChars (n % 1000000000)))

theorem timeChars_lt {m n : Nat} (hn : n < 86400000000000) (h : m < n) :
    timeChars m < timeChars n := by
  have hseconds : m / 1000000000 ≤ n / 1000000000 := Nat.div_le_div_right (Nat.le_of_lt h)
  apply twoDigits_lt (by omega) (by omega)
  by_cases h1 : m / 1000000000 / 3600 < n / 1000000000 / 3600
  · exact .inl h1
  refine .inr ⟨by omega, List.cons_lt_cons_self.mpr (twoDigits_lt (by omega) (by omega) ?_)⟩
  by_cases h2 : m / 1000000000 / 60 % 60 < n / 1000000000 / 60 % 60
  · exact .inl h2
  refine .inr ⟨by omega, List.cons_lt_cons_self.mpr (twoDigits_lt (by omega) (by omega) ?_)⟩
  by_cases h3 : m / 1000000000 % 60 < n / 1000000000 % 60
  · exact .inl h3
  exact .inr ⟨by omega, fractionChars_lt (by omega) (by omega)⟩

def day (t : Timestamp) : Int := t.nanos.fdiv 86400000000000

def ofDay (t : Timestamp) : Nat := (t.nanos.fmod 86400000000000).toNat

/-- The year of the moment is written without a sign. -/
def PlainYear (t : Timestamp) : Prop := 0 ≤ (civil t.day).1 ∧ (civil t.day).1 ≤ 9999

instance (t : Timestamp) : Decidable t.PlainYear :=
  inferInstanceAs (Decidable (0 ≤ (civil t.day).1 ∧ (civil t.day).1 ≤ 9999))

def sign (t : Timestamp) : List Char :=
  if (civil t.day).1 < 0 then ['-'] else if 9999 < (civil t.day).1 then ['+'] else []

theorem toList_fraction (n : Nat) : (fraction n).toList = fractionChars n := by
  unfold fraction fractionChars
  split_ifs <;> simp [toList_padded]

theorem toList_toString (t : Timestamp) :
    (toString t).toList = t.sign ++ dateChars (civil t.day) ('T' :: timeChars t.ofDay) := by
  let sign := if (civil t.day).1 < 0 then "-" else if 9999 < (civil t.day).1 then "+" else ""
  have hsign : sign.toList = t.sign := by
    unfold sign Timestamp.sign
    split_ifs <;> rfl
  change (sign ++ padded 4 (civil t.day).1.natAbs ++ "-" ++ padded 2 (civil t.day).2.1 ++ "-" ++
    padded 2 (civil t.day).2.2 ++ "T" ++ padded 2 (t.ofDay / 1000000000 / 3600) ++ ":" ++
      padded 2 (t.ofDay / 1000000000 / 60 % 60) ++ ":" ++ padded 2 (t.ofDay / 1000000000 % 60) ++
        fraction (t.ofDay % 1000000000)).toList = _
  simp only [String.toList_append, toList_padded, toList_fraction, hsign, dateChars, timeChars,
    List.append_assoc]
  rfl

theorem sign_of_plainYear {t : Timestamp} (h : t.PlainYear) : t.sign = [] := by
  simp [sign, Int.not_lt.mpr h.1, Int.not_lt.mpr h.2]

theorem ofDay_lt (t : Timestamp) : t.ofDay < 86400000000000 := by
  unfold ofDay
  rw [Int.fmod_eq_emod_of_nonneg _ (by decide)]
  omega

theorem day_lt_or {a b : Timestamp} (h : a.nanos < b.nanos) :
    a.day < b.day ∨ a.day = b.day ∧ a.ofDay < b.ofDay := by
  unfold day ofDay
  rw [Int.fdiv_eq_ediv_of_nonneg _ (by decide), Int.fdiv_eq_ediv_of_nonneg _ (by decide),
    Int.fmod_eq_emod_of_nonneg _ (by decide), Int.fmod_eq_emod_of_nonneg _ (by decide)]
  omega

section

variable {a b : Timestamp} (ha : a.PlainYear) (hb : b.PlainYear)
include ha hb

theorem toString_lt (h : a.nanos < b.nanos) : toString a < toString b := by
  rw [String.lt_iff_toList_lt, toList_toString, toList_toString, sign_of_plainYear ha,
    sign_of_plainYear hb]
  have hcivil {t : Timestamp} (ht : t.PlainYear) := And.intro ht.1
    (And.intro ht.2 (And.intro (civil_bounds t.day).2.1 (civil_bounds t.day).2.2.2))
  apply dateChars_lt (hcivil ha) (hcivil hb)
  rcases day_lt_or h with h | ⟨hday, h⟩
  · exact .inl (earlier_civil h)
  · exact .inr ⟨by rw [hday], List.cons_lt_cons_self.mpr (timeChars_lt b.ofDay_lt h)⟩

/-- Among the years 0 to 9999 the order of the texts is the order in time. -/
theorem textOrder_eq : a.textOrder b = compare a.nanos b.nanos := by
  unfold textOrder
  rcases Int.lt_trichotomy a.nanos b.nanos with h | h | h
  · rw [compare_lt_iff_lt.mpr h, compare_lt_iff_lt.mpr (toString_lt ha hb h)]
  · obtain rfl : a = b := by
      cases a
      cases b
      exact congrArg _ h
    rw [compare_eq_iff_eq.mpr rfl, compare_eq_iff_eq.mpr rfl]
  · rw [compare_gt_iff_gt.mpr h, compare_gt_iff_gt.mpr (toString_lt hb ha h)]

end

end OfferLedger.Timestamp
