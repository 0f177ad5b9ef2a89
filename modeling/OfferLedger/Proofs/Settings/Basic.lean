import OfferLedger.Proofs.Failing
import OfferLedger.Proofs.Text.Blank
import OfferLedger.Proofs.Text.Unsigned
import OfferLedger.Settings.Basic

/-! # Settings that were accepted

Settings hold what the variables say, and what they leave open is as it always was. -/
namespace OfferLedger.Settings

variable {lookup : String → Option String} {k : Key} {α : Type}

/-- A variable that is missing, or that holds nothing but blanks. -/
def Unset (lookup : String → Option String) (name : String) : Prop :=
  ∀ s, lookup name = some s → Text.trim s.toList = []

theorem value?_eq_none_iff : value? lookup k = none ↔ Unset lookup k.name := by
  rw [value?, Option.filter_eq_none_iff]
  apply forall_congr'
  intro s
  rw [Text.trim_eq_nil_iff]
  simp

theorem readWith_eq_ok {read : List Char → Except Reason α} {value : Option α}
    (h : readWith lookup k read = .ok value) :
    Unset lookup k.name ∧ value = none ∨
      ∃ s a, lookup k.name = some s ∧ read (Text.trim s.toList) = .ok a ∧ value = some a := by
  unfold readWith at h
  cases hvalue : value? lookup k with
  | none =>
    rw [hvalue] at h
    cases h
    exact .inl ⟨value?_eq_none_iff.mp hvalue, rfl⟩
  | some s =>
    rw [hvalue] at h
    dsimp only at h
    cases hread : read (Text.trim s.toList) with
    | error reason =>
      rw [hread] at h
      cases h
    | ok a =>
      rw [hread] at h
      cases h
      exact .inr ⟨s, a, (Option.filter_eq_some_iff.mp hvalue).1, hread, rfl⟩

inductive PageLimit (lookup : String → Option String) : Nat → Prop where
  | standard : Unset lookup "OFFERS_PAGE_LIMIT" → PageLimit lookup 50
  | given {s n} : lookup "OFFERS_PAGE_LIMIT" = some s →
      Text.Unsigned Text.bound32 (Text.trim s.toList) n → 1 ≤ n → n ≤ 500 → PageLimit lookup n

theorem readPageLimit_eq_ok {cs : List Char} {limit : { n : Nat // 1 ≤ n ∧ n ≤ maxPageLimit }}
    (h : readPageLimit cs = .ok limit) : Text.Unsigned Text.bound32 cs limit := by
  obtain ⟨n, hn, h⟩ := bind_eq_ok h
  split at h
  · cases h
    unfold readNumber at hn
    split at hn
    · cases hn
      rename_i hparse
      exact (Text.parseUnsigned_eq_ok_iff (by decide) cs).mp hparse
    · cases hn
  · cases h

theorem pageLimit_of_ofLookup {settings : Settings} (h : ofLookup lookup = .ok settings) :
    PageLimit lookup settings.pageLimit := by
  obtain ⟨address, -, h⟩ := bind_eq_ok h
  obtain ⟨workers, -, h⟩ := bind_eq_ok h
  obtain ⟨pageLimit, hlimit, h⟩ := bind_eq_ok h
  cases h
  rcases readWith_eq_ok hlimit with ⟨hunset, rfl⟩ | ⟨s, limit, hs, hread, rfl⟩
  · exact .standard hunset
  · exact .given hs (readPageLimit_eq_ok hread) limit.2.1 limit.2.2

end OfferLedger.Settings
