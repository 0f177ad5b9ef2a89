import OfferLedger.Snapshot.Basic
import OfferLedger.Proofs.Listing.RoundTrip
import OfferLedger.Proofs.Text.Upper
import Mathlib.Data.List.Forall2

/-! # A snapshot of what was read

Normalised listings are written as a snapshot and read as they are: the reader takes each text for what
it was, and normalising it once more changes nothing. -/
namespace OfferLedger

theorem Text.trimmed_trimmed (s : String) : trimmed (trimmed s) = trimmed s := by
  rw [trimmed, trimmed, String.toList_ofList, trim_trim]

theorem PartitionKey.ofText_ofText (s : String) : ofText (ofText s) = ofText s := by
  have htrim : Text.trim (Text.upper (Text.trim s.toList)) = Text.upper (Text.trim s.toList) :=
    Text.trim_of_trimmed (Text.trimmed_upper (Text.trimmed_trim _))
  rw [ofText, ofText, String.toList_ofList, htrim, Text.upper_upper]

theorem Listing.normalized_of_normalized {raw l : Listing} (h : raw.normalized = .ok l) :
    l.normalized = .ok l := by
  unfold normalized at h
  dsimp only at h
  split_ifs at h with hid huf
  obtain rfl := Except.ok.inj h
  unfold normalized
  simp only [Text.trimmed_trimmed, PartitionKey.ofText_ofText, hid, huf]
  rfl

namespace Snapshot

/-- Each of the listings normalised, in the same order. -/
def Normalized (raws listings : List Listing) : Prop :=
  List.Forall₂ (fun raw l => raw.normalized = .ok l) raws listings

theorem normalizeFrom_eq_ok_iff (position : Nat) (raws listings : List Listing) :
    normalizeFrom position raws = .ok listings ↔ Normalized raws listings := by
  induction raws generalizing position listings with
  | nil =>
    rw [Normalized, List.forall₂_nil_left_iff, normalizeFrom, Except.ok.injEq]
    exact eq_comm
  | cons raw rest ih =>
    rw [Normalized, List.forall₂_cons_left_iff, normalizeFrom]
    cases hraw : raw.normalized with
    | error cause => simp
    | ok l =>
      have hrest := ih (position + 1)
      cases hread : normalizeFrom (position + 1) rest with
      | error e =>
        rw [hread] at hrest
        constructor
        · intro h
          cases h
        · rintro ⟨_, ls, -, hls, -⟩
          cases (hrest ls).mpr hls
      | ok ls =>
        rw [hread] at hrest
        constructor
        · intro h
          obtain rfl := Except.ok.inj h
          exact ⟨l, ls, rfl, (hrest ls).mp rfl, rfl⟩
        · rintro ⟨_, ls', heq, hls, rfl⟩
          rw [← Except.ok.inj heq, ← Except.ok.inj ((hrest ls').mpr hls)]
          rfl

theorem normalizeFrom_eq {listings : List Listing} (h : ∀ l ∈ listings, l.normalized = .ok l)
    (position : Nat) : normalizeFrom position listings = .ok listings :=
  (normalizeFrom_eq_ok_iff position listings listings).mpr (List.forall₂_same.mpr h)

theorem legible_of_ne {l : Listing}
    (h : ∀ d ∈ [l.askingPrice, l.evaluationPrice, l.discountPercent],
      d.micros ≠ -9223372036854775808) : l.Legible := by
  have hnumber : ∀ d ∈ [l.askingPrice, l.evaluationPrice, l.discountPercent],
      (Value.number d).Legible := fun d hd => by
    have hmin := d.min_le_micros
    have hne := h d hd
    change -9223372036854775808 < d.micros
    omega
  intro f
  cases f with
  | askingPrice => exact hnumber _ (by simp)
  | evaluationPrice => exact hnumber _ (by simp)
  | discountPercent => exact hnumber _ (by simp)
  | _ => trivial

theorem ofBytes_list {listings : List Listing} (h : ∀ l ∈ listings, l.normalized = .ok l)
    (hl : ∀ l ∈ listings, l.Legible) {layout : Json.Layout} (hlayout : layout.Blank) :
    ofBytes (layout.list (listings.map (·.writtenFields Listing.Attribute.all))) =
      .ok ⟨listings, some (Digest.sha256
        (layout.list (listings.map (·.writtenFields Listing.Attribute.all))))⟩ := by
  rw [ofBytes, Listing.listOfJson_list hlayout hl]
  change (normalizeFrom 0 listings).map _ = _
  rw [normalizeFrom_eq h]
  rfl

theorem exists_layout {listings : List Listing} {text : String}
    (h : text = (Json.arr (listings.map Listing.toJson)).compact ∨
      text = (Json.arr (listings.map Listing.toJson)).pretty) :
    ∃ layout : Json.Layout, layout.Blank ∧
      Text.utf8 text = layout.list (listings.map (·.writtenFields Listing.Attribute.all)) := by
  have hmap : listings.map Listing.toJson =
      (listings.map (·.writtenFields Listing.Attribute.all)).map Json.strings := by
    rw [List.map_map]
    exact List.map_congr_left fun l _ => l.toJson_eq
  rw [hmap] at h
  rcases h with rfl | rfl
  · exact ⟨.compact, Json.Layout.blank_compact, Json.utf8_compact _⟩
  · cases listings with
    | nil =>
      have hempty : (Json.arr []).pretty = (Json.arr []).compact := by decide
      rw [List.map_nil, List.map_nil, hempty]
      exact ⟨.compact, Json.Layout.blank_compact, Json.utf8_compact []⟩
    | cons l rest =>
      refine ⟨.pretty, Json.Layout.blank_pretty, Json.utf8_pretty (by simp) fun fields hm => ?_⟩
      obtain ⟨l, -, rfl⟩ := List.mem_map.mp hm
      exact List.cons_ne_nil _ _

/-- Normalised listings come back from the text of their list, in the same order, whether it is written
with blanks or without. Only the least decimal is excepted. -/
theorem ofBytes_of_normalized {listings : List Listing}
    (hnormalized : ∀ l ∈ listings, ∃ raw, Listing.normalized raw = .ok l)
    (hmin : ∀ l ∈ listings, ∀ d ∈ [l.askingPrice, l.evaluationPrice, l.discountPercent],
      d.micros ≠ -9223372036854775808) {text : String}
    (htext : text = (Json.arr (listings.map Listing.toJson)).compact ∨
      text = (Json.arr (listings.map Listing.toJson)).pretty) :
    ofBytes (Text.utf8 text) = .ok ⟨listings, some (Digest.sha256 (Text.utf8 text))⟩ := by
  obtain ⟨layout, hlayout, hbytes⟩ := exists_layout htext
  rw [hbytes]
  refine ofBytes_list (fun l hm => ?_) (fun l hm => legible_of_ne (hmin l hm)) hlayout
  obtain ⟨raw, hraw⟩ := hnormalized l hm
  exact Listing.normalized_of_normalized hraw

/-- A source id of a quote, a backslash, a control and a character beyond the first plane, in a region
whose name grew in upper case. -/
theorem ofBytes_of_escapes :
    (ofBytes (Text.utf8
      (Json.arr ([{ sourceId := "\"\\\n😀", uf := "SS" }].map Listing.toJson)).compact)).map
        (·.listings) = .ok [{ sourceId := "\"\\\n😀", uf := "SS" }] := by
  rw [ofBytes_of_normalized (fun l hm => ?_) (fun l hm => ?_) (.inl rfl)]
  · rfl
  · rw [List.mem_singleton.mp hm]
    exact ⟨{ sourceId := " \"\\\n😀", uf := "ß " }, rfl⟩
  · rw [List.mem_singleton.mp hm]
    decide

end Snapshot
end OfferLedger
