import OfferLedger.Ledger.Basic
import Mathlib.Data.List.Nodup

/-! # Linked ledgers

In a linked ledger each offer has one head, and the head leads to the row that was recorded last, which
is also the one with the greatest version. That is all it takes to find what is stored. What a head says
besides may differ from its row: a deletion that is appended like an update leaves its offer active. -/
namespace OfferLedger.Ledger

theorem head?_sourceId {l : Ledger} {id : SourceId} {h : Head} (hh : l.head? id = some h) :
    h.sourceId = id := by
  simpa using List.find?_some hh

theorem head?_of_mem {l : Ledger} (hd : (l.heads.map (·.sourceId)).Nodup) {h : Head}
    (hm : h ∈ l.heads) : l.head? h.sourceId = some h := by
  have hsome : (l.head? h.sourceId).isSome :=
    List.find?_isSome.mpr ⟨h, hm, by simp⟩
  obtain ⟨h', hh'⟩ := Option.isSome_iff_exists.mp hsome
  rw [hh', List.inj_on_of_nodup_map hd (List.mem_of_find?_eq_some hh') hm (head?_sourceId hh')]

theorem row?_eq_find? (l : Ledger) (id : SourceId) (version : Int) :
    l.row? id version = (l.history id).find? (·.version = version) := by
  simp [row?, history, List.find?_filter]

/-- The version that the head of an offer is at, 0 if the offer has none. -/
def headVersion (l : Ledger) (id : SourceId) : Int := ((l.head? id).map (·.latestVersion)).getD 0

/-- A row of an offer that none of its other rows has a greater version than. -/
def IsLatest (l : Ledger) (id : SourceId) (row : RevisionRow) : Prop :=
  row ∈ l.history id ∧ ∀ row' ∈ l.history id, row'.version ≤ row.version

structure Linked (l : Ledger) : Prop where
  nodup : (l.heads.map (·.sourceId)).Nodup
  undamaged : ∀ row ∈ l.revisions, row.damage = []
  ascending : ∀ id, (l.history id).Pairwise (·.version < ·.version)
  latest : ∀ id, (l.head? id).map (·.latestVersion) = (l.history id).getLast?.map (·.version)

variable {l : Ledger} (hl : l.Linked)
include hl

theorem Linked.head?_eq_none_iff (id : SourceId) : l.head? id = none ↔ l.history id = [] := by
  have h := hl.latest id
  rw [← Option.map_eq_none_iff (f := (·.latestVersion)), h]
  simp

theorem Linked.exists_latest {id : SourceId} {h : Head} (hh : l.head? id = some h) :
    ∃ row, (l.history id).getLast? = some row ∧ row.version = h.latestVersion := by
  have hlast := hl.latest id
  rw [hh] at hlast
  exact Option.map_eq_some_iff.mp hlast.symm

theorem Linked.exists_head {id : SourceId} {row : RevisionRow}
    (hr : (l.history id).getLast? = some row) :
    ∃ h, l.head? id = some h ∧ h.latestVersion = row.version := by
  have hlast := hl.latest id
  rw [hr] at hlast
  exact Option.map_eq_some_iff.mp hlast

theorem Linked.eq_or_version_lt {id : SourceId} {last row : RevisionRow}
    (hlast : (l.history id).getLast? = some last) (hr : row ∈ l.history id) :
    row = last ∨ row.version < last.version := by
  obtain ⟨before, hsplit⟩ := List.getLast?_eq_some_iff.mp hlast
  have hasc := hl.ascending id
  rw [hsplit, List.pairwise_append] at hasc
  rw [hsplit, List.mem_append, List.mem_singleton] at hr
  rcases hr with hr | rfl
  · exact .inr (hasc.2.2 row hr last (List.mem_singleton_self last))
  · exact .inl rfl

theorem Linked.version_le_last {id : SourceId} {last row : RevisionRow}
    (hlast : (l.history id).getLast? = some last) (hr : row ∈ l.history id) :
    row.version ≤ last.version := by
  rcases hl.eq_or_version_lt hlast hr with rfl | hlt
  · exact Int.le_refl _
  · exact Int.le_of_lt hlt

theorem Linked.version_le_headVersion {id : SourceId} {row : RevisionRow}
    (hr : row ∈ l.history id) : row.version ≤ l.headVersion id := by
  obtain ⟨last, hlast⟩ :=
    Option.ne_none_iff_exists'.mp (mt List.getLast?_eq_none_iff.mp (List.ne_nil_of_mem hr))
  rw [headVersion, hl.latest, hlast]
  exact hl.version_le_last hlast hr

theorem Linked.isLatest_iff (id : SourceId) (row : RevisionRow) :
    l.IsLatest id row ↔ (l.history id).getLast? = some row := by
  constructor
  · rintro ⟨hr, hmax⟩
    obtain ⟨last, hlast⟩ :=
      Option.ne_none_iff_exists'.mp (mt List.getLast?_eq_none_iff.mp (List.ne_nil_of_mem hr))
    rcases hl.eq_or_version_lt hlast hr with rfl | hlt
    · exact hlast
    · exact absurd (hmax last (List.mem_of_getLast? hlast)) (Int.not_le.mpr hlt)
  · intro hlast
    exact ⟨List.mem_of_getLast? hlast, fun row' hr' => hl.version_le_last hlast hr'⟩

theorem Linked.row?_latest {id : SourceId} {row : RevisionRow}
    (hr : (l.history id).getLast? = some row) : l.row? id row.version = some row := by
  have hm := List.mem_of_getLast? hr
  have hsome : ((l.history id).find? (·.version = row.version)).isSome :=
    List.find?_isSome.mpr ⟨row, hm, by simp⟩
  obtain ⟨row', hr'⟩ := Option.isSome_iff_exists.mp hsome
  have hv : row'.version = row.version := by simpa using List.find?_some hr'
  rw [row?_eq_find?, hr']
  rcases hl.eq_or_version_lt hr (List.mem_of_find?_eq_some hr') with rfl | hlt
  · rfl
  · exact absurd hv (Int.ne_of_lt hlt)

theorem Linked.stored?_eq {h : Head} (hm : h ∈ l.heads) :
    ∃ row, (l.history h.sourceId).getLast? = some row ∧ l.stored? h = some ⟨h, row⟩ := by
  obtain ⟨row, hr, hv⟩ := hl.exists_latest (head?_of_mem hl.nodup hm)
  refine ⟨row, hr, ?_⟩
  rw [stored?, ← hv, hl.row?_latest hr]
  rfl

end OfferLedger.Ledger
