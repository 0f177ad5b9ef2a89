import OfferLedger.Proofs.Ledger.Linked
import OfferLedger.Proofs.Store.Basic

/-! # Sound ledgers

In a sound ledger every head says what the recorded revisions of its offer say: the latest version, its
region, whether it is a deletion, and when the first one was recorded. So the heads can be read in
place of the histories. -/
namespace OfferLedger

/-- What a head repeats of the latest revision of its offer. -/
structure Standing where
  version : Int
  uf : PartitionKey
  isActive : Bool
  deriving DecidableEq, Repr

def Head.standing (h : Head) : Standing := ⟨h.latestVersion, h.uf, h.isActive⟩

def RevisionRow.standing (row : RevisionRow) : Standing :=
  ⟨row.version, row.revision.listing.uf, !row.revision.isDelete⟩

namespace Ledger

def histories (l : Ledger) : Histories := fun id => (l.history id).map (·.revision)

def view (l : Ledger) : View := ⟨l.histories, fun id => (l.head? id).any (·.isActive)⟩

structure Sound (l : Ledger) : Prop where
  nodup : (l.heads.map (·.sourceId)).Nodup
  numbered : l.histories.Numbered
  undamaged : ∀ row ∈ l.revisions, row.damage = []
  latest : ∀ id, (l.head? id).map Head.standing = (l.history id).getLast?.map RevisionRow.standing
  first : ∀ id, (l.head? id).map (·.firstSeen) = (l.history id).head?.map (·.recordedAt)

theorem latest?_view (l : Ledger) (id : SourceId) :
    l.view.latest? id = (l.history id).getLast?.map (·.revision) :=
  List.getLast?_map

section

variable {l : Ledger} (hs : l.Sound)
include hs

theorem Sound.version {id : SourceId} {i : Nat} {row : RevisionRow}
    (hr : (l.history id)[i]? = some row) : row.version = i + 1 := by
  refine hs.numbered.version id i row.revision ?_
  rw [histories, List.getElem?_map, hr]
  rfl

theorem Sound.linked : l.Linked where
  nodup := hs.nodup
  undamaged := hs.undamaged
  ascending := by
    intro id
    rw [List.pairwise_iff_getElem]
    intro i j hi hj hij
    have h₁ := hs.version (List.getElem?_eq_getElem hi)
    have h₂ := hs.version (List.getElem?_eq_getElem hj)
    omega
  latest := by
    intro id
    have h := congrArg (Option.map Standing.version) (hs.latest id)
    rwa [Option.map_map, Option.map_map] at h

theorem Sound.head?_eq_none_iff (id : SourceId) : l.head? id = none ↔ l.history id = [] :=
  hs.linked.head?_eq_none_iff id

theorem Sound.exists_latest {id : SourceId} {h : Head} (hh : l.head? id = some h) :
    ∃ row, (l.history id).getLast? = some row ∧ row.standing = h.standing := by
  have hl := hs.latest id
  rw [hh] at hl
  exact Option.map_eq_some_iff.mp hl.symm

theorem Sound.exists_head {id : SourceId} {row : RevisionRow}
    (hr : (l.history id).getLast? = some row) :
    ∃ h, l.head? id = some h ∧ h.standing = row.standing := by
  have hl := hs.latest id
  rw [hr] at hl
  exact Option.map_eq_some_iff.mp hl

theorem Sound.exists_head_of_latest? {id : SourceId} {r : Revision}
    (hr : l.view.latest? id = some r) : ∃ h, l.head? id = some h ∧ h.uf = r.listing.uf := by
  rw [latest?_view] at hr
  obtain ⟨row, hrow, rfl⟩ := Option.map_eq_some_iff.mp hr
  obtain ⟨h, hh, hst⟩ := hs.exists_head hrow
  exact ⟨h, hh, congrArg Standing.uf hst⟩

theorem Sound.consistent : l.view.Consistent := by
  refine ⟨hs.numbered, fun id => ?_⟩
  rw [latest?_view]
  change (l.head? id).any (·.isActive) = _
  cases hh : l.head? id with
  | none =>
    rw [(hs.head?_eq_none_iff id).mp hh]
    rfl
  | some h =>
    obtain ⟨row, hr, hst⟩ := hs.exists_latest hh
    rw [hr]
    exact (congrArg Standing.isActive hst).symm

theorem Sound.version_latest {id : SourceId} {row : RevisionRow}
    (hr : (l.history id).getLast? = some row) : row.version = (l.history id).length := by
  have hlatest : l.view.latest? id = some row.revision := by
    rw [latest?_view, hr]
    rfl
  have hlen : (l.view.history id).length = (l.history id).length := List.length_map _
  rw [← hlen]
  exact hs.consistent.version_latest hlatest

theorem Sound.latestVersion {id : SourceId} {h : Head} (hh : l.head? id = some h) :
    h.latestVersion = (l.history id).length := by
  obtain ⟨row, hr, hst⟩ := hs.exists_latest hh
  rw [← hs.version_latest hr]
  exact (congrArg Standing.version hst).symm

theorem Sound.row?_isSome_iff (id : SourceId) (version : Int) :
    (l.row? id version).isSome ↔ 1 ≤ version ∧ version ≤ (l.history id).length := by
  rw [row?_eq_find?, List.find?_isSome]
  constructor
  · rintro ⟨row, hm, hv⟩
    obtain ⟨i, hi, hr⟩ := List.mem_iff_getElem.mp hm
    have := hs.version (List.getElem?_eq_some_iff.mpr ⟨hi, hr⟩)
    have hv : row.version = version := by simpa using hv
    omega
  · rintro ⟨h₁, h₂⟩
    have hi : (version - 1).toNat < (l.history id).length := by omega
    have := hs.version (List.getElem?_eq_getElem hi)
    refine ⟨_, List.getElem_mem hi, ?_⟩
    rw [decide_eq_true_eq]
    omega

end
end Ledger
end OfferLedger
