import OfferLedger.Proofs.Decimal.RoundTrip
import OfferLedger.Proofs.Json.Layout

/-! # One text for one value

Every decimal but the least one is read back from its text, and from the JSON string that holds this text.
So two decimals that were read have the same text exactly if the texts that they were read from denote the
same number. -/
namespace OfferLedger.Decimal

open Json (readAll readDecimal quoted)

/-- The rational number that a text denotes. Blanks around it do not matter. -/
def Denotes (s : String) (v : ℚ) : Prop :=
  ∃ p : Parts, p.Spelled (Text.trim s.toList) ∧ p.value = v

theorem Denotes.unique {s : String} {v w : ℚ} (hv : Denotes s v) (hw : Denotes s w) : v = w := by
  obtain ⟨p, hp, rfl⟩ := hv
  obtain ⟨q, hq, rfl⟩ := hw
  rw [← hp.ofText_eq, ← hq.ofText_eq]

theorem denotes_of_parse {s : String} {d : Decimal} (h : parse s = .ok d) :
    Denotes s (d.micros / 10 ^ 6) := by
  rw [parse_eq] at h
  dsimp only at h
  split_ifs at h with hempty hformed hlong hrange
  cases h
  have hshort : (Parts.ofText (Text.trim s.toList)).fraction.length ≤ places := Nat.not_lt.mp hlong
  refine ⟨_, Parts.spelled_iff.mpr ⟨rfl, by simpa using hformed⟩, ?_⟩
  rw [Parts.micros_eq_value hshort, mul_div_cancel_right₀ _ (by norm_num)]

theorem parse_toString_of_ne {d : Decimal} (h : d.micros ≠ -9223372036854775808) :
    parse (toString d) = .ok d := by
  have hle := d.min_le_micros
  exact d.parse_toString.trans (if_pos (by omega))

theorem parse_toString_of_least {d : Decimal} (h : d.micros = -9223372036854775808) :
    parse (toString d) = .error (.outOfRange (toString d)) :=
  d.parse_toString.trans (if_neg (by omega))

theorem toString_inj_of_parse {s t : String} {d e : Decimal} (hd : parse s = .ok d)
    (he : parse t = .ok e) (h : toString d = toString e) : d = e := by
  have hd' := parse_toString_of_ne (ne_of_gt (micros_of_parse hd))
  have he' := parse_toString_of_ne (ne_of_gt (micros_of_parse he))
  rw [h, he'] at hd'
  exact (Except.ok.inj hd').symm

theorem readAll_str (text : String) :
    readAll readDecimal (Text.utf8 (Json.str text).compact) =
      match parse text with
      | .ok d => .ok d
      | .error cause => .error ⟨.mismatch (.decimal cause), 0⟩ := by
  have hbytes : Text.utf8 (Json.str text).compact = [] ++ (quoted text ++ []) := by
    rw [List.nil_append, List.append_nil, Text.utf8_eq, Json.compact, String.toList_ofList,
      Json.compactChars_str]
    rfl
  rw [hbytes, readAll, Json.readDecimal_text Json.blank_nil, Json.decimalOf]
  cases parse text <;> rfl

/-- The text of a decimal is read back, alone and as a JSON string, unless it is the least one; and it is
the same for two texts that were read exactly if both denote one number. -/
theorem toString_canonical :
    (∀ d : Decimal, d.micros ≠ -2 ^ 63 →
      parse (toString d) = .ok d ∧
        readAll readDecimal (Text.utf8 (Json.str (toString d)).compact) = .ok d) ∧
    (∀ d : Decimal, d.micros = -2 ^ 63 →
      parse (toString d) = .error (.outOfRange (toString d)) ∧
        readAll readDecimal (Text.utf8 (Json.str (toString d)).compact) =
          .error ⟨.mismatch (.decimal (.outOfRange (toString d))), 0⟩) ∧
    ∀ s t d e, parse s = .ok d → parse t = .ok e →
      (toString d = toString e ↔ ∃ v, Denotes s v ∧ Denotes t v) := by
  refine ⟨fun d hd => ?_, fun d hd => ?_, fun s t d e hs ht => ⟨fun h => ?_, ?_⟩⟩
  · have hparse := parse_toString_of_ne hd
    rw [readAll_str, hparse]
    exact ⟨rfl, rfl⟩
  · have hparse := parse_toString_of_least hd
    rw [readAll_str, hparse]
    exact ⟨rfl, rfl⟩
  · have heq := toString_inj_of_parse hs ht h
    subst heq
    exact ⟨_, denotes_of_parse hs, denotes_of_parse ht⟩
  · rintro ⟨v, hv, hw⟩
    have hvalue : (d.micros : ℚ) / 10 ^ 6 = e.micros / 10 ^ 6 :=
      ((denotes_of_parse hs).unique hv).trans (hw.unique (denotes_of_parse ht))
    rw [div_left_inj' (by norm_num), Int.cast_inj] at hvalue
    obtain ⟨m, hmin, hlt⟩ := d
    subst hvalue
    rfl

/-- Two texts of one number, the decimal that is just read back, and the least one, which is not. -/
theorem toString_canonical_of_ends :
    (∃ d e, parse "01.50" = .ok d ∧ parse " +1.5" = .ok e ∧
      (toString d = toString e ↔ ∃ v, Denotes "01.50" v ∧ Denotes " +1.5" v)) ∧
    parse "-9223372036854.775807" =
      .ok ⟨-9223372036854775807, by decide, by decide⟩ ∧
    parse "-9223372036854.775808" = .error (.outOfRange "-9223372036854.775808") := by
  obtain ⟨hback, hleast, hsame⟩ := toString_canonical
  let next : Decimal := ⟨-9223372036854775807, by decide, by decide⟩
  let least : Decimal := ⟨-9223372036854775808, by decide, by decide⟩
  have hnext : toString next = "-9223372036854.775807" := by decide
  have htext : toString least = "-9223372036854.775808" := by decide
  refine ⟨⟨⟨1500000, by decide, by decide⟩, ⟨1500000, by decide, by decide⟩, rfl, rfl,
    hsame _ _ _ _ rfl rfl⟩, ?_, ?_⟩
  · rw [← hnext]
    exact (hback next (by decide)).1
  · rw [← htext]
    exact (hleast least rfl).1

end OfferLedger.Decimal
