import OfferLedger.Proofs.Store.Histories
import Mathlib.Data.List.Induction

/-! # Entries in order

Some entries may be for one offer. They are in order when each of them has the version after the latest
one of its offer, the entries before it counted. A store that appends one entry after another accepts
exactly that, and stops at the first entry that breaks the order. -/
namespace OfferLedger
namespace Histories

/-- The latest version of an offer, 0 if it is unknown. -/
def latestVersion (h : Histories) (id : SourceId) : Int :=
  ((h id).getLast?.map (·.version)).getD 0

/-- The latest version of an offer after some entries: that of the last of them for the offer, or else
the one it had before. -/
def versionAfter (h : Histories) (before : List Entry) (id : SourceId) : Int :=
  ((before.reverse.find? (·.listing.sourceId = id)).map (·.version)).getD (h.latestVersion id)

def Continues (h : Histories) (before : List Entry) (e : Entry) : Prop :=
  e.version = h.versionAfter before e.listing.sourceId + 1

inductive InOrder (h : Histories) : List Entry → Prop where
  | nil : InOrder h []
  | concat {before : List Entry} {e : Entry} : InOrder h before → h.Continues before e →
      InOrder h (before ++ [e])

theorem exists_first_break {h : Histories} {entries : List Entry} (hnot : ¬ h.InOrder entries) :
    ∃ before e after, entries = before ++ e :: after ∧ h.InOrder before ∧ ¬ h.Continues before e := by
  induction entries using List.reverseRecOn with
  | nil => exact absurd .nil hnot
  | append_singleton entries e ih =>
    by_cases ho : h.InOrder entries
    · exact ⟨entries, e, [], rfl, ho, fun he => hnot (ho.concat he)⟩
    · obtain ⟨before, b, after, rfl, hb⟩ := ih ho
      exact ⟨before, b, after ++ [e], by simp, hb⟩

theorem latestVersion_grown (h : Histories) (batch : BatchId) (entries : List Entry)
    (id : SourceId) : (h.grown batch entries).latestVersion id = h.versionAfter entries id := by
  have hlast : (entries.filter (·.listing.sourceId = id)).getLast? =
      entries.reverse.find? (·.listing.sourceId = id) := by
    rw [← List.head?_reverse, ← List.filter_reverse, List.head?_filter]
  rw [latestVersion, versionAfter, grown, List.getLast?_append, List.getLast?_map, hlast]
  cases entries.reverse.find? (·.listing.sourceId = id) <;> rfl

theorem Numbered.latestVersion_eq {h : Histories} (hn : h.Numbered) (id : SourceId) :
    h.latestVersion id = (h id).length := by
  unfold latestVersion
  rw [List.getLast?_eq_getElem?]
  cases hr : (h id)[(h id).length - 1]? with
  | none =>
    rw [List.getElem?_eq_none_iff] at hr
    change (0 : Int) = _
    omega
  | some r =>
    obtain ⟨hi, -⟩ := List.getElem?_eq_some_iff.mp hr
    have hv : r.version = ((h id).length - 1 : Nat) + 1 := hn.version id _ r hr
    change r.version = _
    omega

theorem Numbered.fits_iff {h : Histories} (hn : h.Numbered) (e : Entry) :
    h.Fits e ↔ e.version = h.latestVersion e.listing.sourceId + 1 := by
  rw [hn.latestVersion_eq, Fits]

theorem fits_grown_iff {h : Histories} {batch : BatchId} {before : List Entry}
    (hn : (h.grown batch before).Numbered) (e : Entry) :
    (h.grown batch before).Fits e ↔ h.Continues before e := by
  rw [hn.fits_iff, latestVersion_grown, Continues]

end Histories

section

variable {σ : Type} {step : σ → Entry → Except RepositoryError σ} {history : σ → Histories}
  {Good : σ → Prop} {batch : BatchId} {Allowed : Entry → Prop}
  (h : Appends step history Good batch
    (fun revisions e => Allowed e ∧ e.version = revisions.length + 1) False)
  (hn : ∀ s, Good s → (history s).Numbered)
include h hn

theorem Appends.foldlM_inOrder {entries : List Entry} {s : σ} (hs : Good s)
    (ha : ∀ e ∈ entries, Allowed e) (ho : (history s).InOrder entries) :
    ∃ s', entries.foldlM step s = .ok s' ∧ Good s' ∧
      history s' = (history s).grown batch entries := by
  induction ho with
  | nil => exact ⟨s, rfl, hs, (Histories.grown_nil _ _).symm⟩
  | @concat before e _ he ih =>
    obtain ⟨s₁, h₁, hs₁, hh₁⟩ := ih fun e' he' => ha e' (List.mem_append_left _ he')
    have hfits : (history s₁).Fits e := by
      rw [hh₁]
      exact (Histories.fits_grown_iff (hh₁ ▸ hn s₁ hs₁) e).mpr he
    have hallowed : Allowed e := ha e (List.mem_append_right _ (List.mem_singleton_self e))
    rcases h s₁ e hs₁ ⟨hallowed, hfits⟩ with ⟨hmay, -⟩ | ⟨s₂, h₂, hs₂, hh₂⟩
    · exact hmay.elim
    · refine ⟨s₂, ?_, hs₂, ?_⟩
      · rw [List.foldlM_append, h₁]
        change [e].foldlM step s₁ = _
        rw [List.foldlM_cons, h₂]
        rfl
      · rw [hh₂, hh₁, Histories.grown_grown]

theorem Appends.step_of_break
    (hconflict : ∀ s e, Good s → Allowed e → ¬ (history s).Fits e → step s e = .error e.conflict)
    {before : List Entry} {e : Entry} {s : σ} (hs : Good s) (ha : ∀ e ∈ before, Allowed e)
    (hallowed : Allowed e) (ho : (history s).InOrder before)
    (he : ¬ (history s).Continues before e) :
    ∃ s₁, before.foldlM step s = .ok s₁ ∧ Good s₁ ∧
      history s₁ = (history s).grown batch before ∧ step s₁ e = .error e.conflict := by
  obtain ⟨s₁, h₁, hs₁, hh₁⟩ := h.foldlM_inOrder hn hs ha ho
  refine ⟨s₁, h₁, hs₁, hh₁, hconflict s₁ e hs₁ hallowed ?_⟩
  rw [hh₁, Histories.fits_grown_iff (hh₁ ▸ hn s₁ hs₁)]
  exact he

end
end OfferLedger
