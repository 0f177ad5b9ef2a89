import OfferLedger.Proofs.Store.Ledger
import Mathlib.Logic.Relation

/-! # Heads mirror the revisions

A head is a copy of what the revisions of its offer say. Four different writes keep it, each of them
changing other cells, and in no ledger that can come about do the two differ. So the active offers can
be read off the heads. -/
namespace OfferLedger.Ledger

/-- A live call, whatever fails in it, or a batch that is opened or closed. -/
inductive Step : Ledger → Ledger → Prop where
  | call {l} (c : Conditions) {call : Call} : call.Live → Step l (repository c call l).2
  | startBatch {l l'} {c : Conditions} {partition : PartitionKey} {digest : Option String}
      {batch : BatchId} : l.startBatch c partition digest = .ok (batch, l') → Step l l'
  | finishBatch {l l'} {c : Conditions} {batch : BatchId} {listingsSeen : Nat}
      {outcome : BatchOutcome} : l.finishBatch c batch listingsSeen outcome = .ok l' → Step l l'

abbrev Later : Ledger → Ledger → Prop := Relation.ReflTransGen Step

theorem Reachable.step {l l' : Ledger} (hl : l.Reachable) (h : Step l l') : l'.Reachable := by
  cases h with
  | call c hlive => exact hl.call c hlive
  | startBatch h => exact hl.startBatch h
  | finishBatch h => exact hl.finishBatch h

theorem Reachable.later {l l' : Ledger} (hl : l.Reachable) (h : Later l l') : l'.Reachable := by
  induction h with
  | refl => exact hl
  | tail _ hstep ih => exact ih.step hstep

theorem Reachable.revisions_step {l l' : Ledger} (hl : l.Reachable) (h : Step l l') :
    l.revisions <+: l'.revisions := by
  cases h with
  | call c hlive => exact (hl.sound.call c hlive).revisions
  | startBatch h =>
    obtain ⟨-, rfl⟩ := startBatch_eq_ok h
    exact List.prefix_rfl
  | finishBatch h =>
    obtain rfl := finishBatch_eq_ok h
    exact List.prefix_rfl

theorem Reachable.revisions_later {l l' : Ledger} (hl : l.Reachable) (h : Later l l') :
    l.revisions <+: l'.revisions := by
  induction h with
  | refl => exact List.prefix_rfl
  | tail hlater hstep ih => exact ih.trans ((hl.later hlater).revisions_step hstep)

theorem mem_history_iff (l : Ledger) (id : SourceId) (row : RevisionRow) :
    row ∈ l.history id ↔ row ∈ l.revisions ∧ row.sourceId = id := by
  simp [history]

section

variable {l : Ledger} (hs : l.Sound)
include hs

theorem Sound.eq_of_version {id : SourceId} {row row' : RevisionRow} (hr : row ∈ l.history id)
    (hr' : row' ∈ l.history id) (hv : row.version = row'.version) : row = row' := by
  obtain ⟨i, hi, rfl⟩ := List.mem_iff_getElem.mp hr
  obtain ⟨j, hj, rfl⟩ := List.mem_iff_getElem.mp hr'
  have h₁ := hs.version (List.getElem?_eq_getElem hi)
  have h₂ := hs.version (List.getElem?_eq_getElem hj)
  have hij : i = j := by omega
  subst hij
  rfl

theorem Sound.isLatest_iff (id : SourceId) (row : RevisionRow) :
    l.IsLatest id row ↔ (l.history id).getLast? = some row :=
  hs.linked.isLatest_iff id row

theorem Sound.nodup_versions (id : SourceId) : ((l.history id).map (·.version)).Nodup :=
  List.pairwise_map.mpr ((hs.linked.ascending id).imp Int.ne_of_lt)

theorem Sound.nodup_keys : (l.revisions.map fun row => (row.sourceId, row.version)).Nodup := by
  rw [List.nodup_iff_count_le_one]
  rintro ⟨id, version⟩
  have h := List.nodup_iff_count_le_one.mp (hs.nodup_versions id) version
  refine le_trans (le_of_eq ?_) h
  rw [List.count, List.count, List.countP_map, List.countP_map, history, List.countP_filter]
  refine List.countP_congr fun row _ => ?_
  simp [and_comm]

end

/-- The head of an offer repeats its rows: how many there are, the region and the kind of the latest, and
the time of the first. -/
structure Mirrors (l : Ledger) (h : Head) : Prop where
  count : h.latestVersion = (l.history h.sourceId).length
  latest : ∃ row, l.IsLatest h.sourceId row ∧ row.version = h.latestVersion ∧
    row.revision.listing.uf = h.uf ∧ (h.isActive = true ↔ row.revision.operation ≠ .delete)
  first : ∃ row ∈ l.history h.sourceId, row.version = 1 ∧ row.recordedAt = h.firstSeen

structure Mirrored (l : Ledger) : Prop where
  onePerOffer : (l.heads.map (·.sourceId)).Nodup
  oneRowPerVersion : (l.revisions.map fun row => (row.sourceId, row.version)).Nodup
  head_iff_row : ∀ id, (∃ h ∈ l.heads, h.sourceId = id) ↔ ∃ row ∈ l.revisions, row.sourceId = id
  mirrors : ∀ h ∈ l.heads, l.Mirrors h
  shownOnce : (l.active.map (·.head.sourceId)).Nodup
  shown_iff : ∀ id row, (∃ s ∈ l.active, s.head.sourceId = id ∧ s.row = row) ↔
    l.IsLatest id row ∧ row.revision.operation ≠ .delete

section

variable {l : Ledger} (hs : l.Sound)
include hs

theorem Sound.mirrors {h : Head} (hm : h ∈ l.heads) : l.Mirrors h := by
  have hh := head?_of_mem hs.nodup hm
  obtain ⟨row, hlast, hst⟩ := hs.exists_latest hh
  constructor
  · exact hs.latestVersion hh
  · have hactive : (!row.revision.isDelete) = h.isActive := congrArg Standing.isActive hst
    refine ⟨row, (hs.isLatest_iff _ _).mpr hlast, congrArg Standing.version hst,
      congrArg Standing.uf hst, ?_⟩
    rw [← hactive]
    simp [Revision.isDelete]
  · have hfirst := hs.first h.sourceId
    rw [hh] at hfirst
    obtain ⟨row, hrow, htime⟩ := Option.map_eq_some_iff.mp hfirst.symm
    refine ⟨row, List.mem_of_head? hrow, ?_, htime⟩
    have := hs.version (List.head?_eq_getElem? ▸ hrow)
    omega

theorem Sound.head_iff_row (id : SourceId) :
    (∃ h ∈ l.heads, h.sourceId = id) ↔ ∃ row ∈ l.revisions, row.sourceId = id := by
  constructor
  · rintro ⟨h, hm, rfl⟩
    obtain ⟨row, hr, -⟩ := (hs.mirrors hm).first
    exact ⟨row, (mem_history_iff ..).mp hr⟩
  · rintro ⟨row, hr, rfl⟩
    have hne : l.history row.sourceId ≠ [] :=
      List.ne_nil_of_mem ((mem_history_iff ..).mpr ⟨hr, rfl⟩)
    obtain ⟨h, hh⟩ := Option.ne_none_iff_exists'.mp (mt (hs.head?_eq_none_iff _).mp hne)
    exact ⟨h, List.mem_of_find?_eq_some hh, head?_sourceId hh⟩

theorem Sound.mem_shown_iff (s : Stored) :
    s ∈ l.active ↔ s.head ∈ l.heads ∧ s.head.isActive = true ∧
      l.IsLatest s.head.sourceId s.row := by
  rw [hs.mem_active_iff, hs.isLatest_iff]

theorem Sound.shown_iff (id : SourceId) (row : RevisionRow) :
    (∃ s ∈ l.active, s.head.sourceId = id ∧ s.row = row) ↔
      l.IsLatest id row ∧ row.revision.operation ≠ .delete := by
  have hlive : ∀ h ∈ l.heads, l.IsLatest h.sourceId row →
      (h.isActive = true ↔ row.revision.operation ≠ .delete) := by
    intro h hm hrow
    obtain ⟨row', hrow', -, -, hactive⟩ := (hs.mirrors hm).latest
    rw [hs.isLatest_iff] at hrow hrow'
    rw [hrow] at hrow'
    cases hrow'
    exact hactive
  constructor
  · rintro ⟨s, hm, rfl, rfl⟩
    obtain ⟨hm, hactive, hrow⟩ := (hs.mem_shown_iff s).mp hm
    exact ⟨hrow, (hlive _ hm hrow).mp hactive⟩
  · rintro ⟨hrow, hop⟩
    obtain ⟨hr, hid⟩ := (mem_history_iff ..).mp hrow.1
    obtain ⟨h, hm, rfl⟩ := (hs.head_iff_row id).mpr ⟨row, hr, hid⟩
    exact ⟨⟨h, row⟩, (hs.mem_shown_iff _).mpr ⟨hm, (hlive h hm hrow).mpr hop, hrow⟩, rfl, rfl⟩

theorem Sound.nodup_shown : (l.active.map (·.head.sourceId)).Nodup := by
  have hsub : ∀ h ∈ l.heads.filter (·.isActive), h ∈ l.heads := fun h hm =>
    (List.mem_filter.mp hm).1
  have hids : l.active.map (·.head.sourceId) = (l.heads.filter (·.isActive)).map (·.sourceId) := by
    conv_rhs => rw [← hs.linked.map_head_join hsub, List.map_map]
    rfl
  rw [hids]
  exact hs.nodup.sublist (List.filter_sublist.map _)

theorem Sound.mirrored : l.Mirrored :=
  ⟨hs.nodup, hs.nodup_keys, hs.head_iff_row, fun _ hm => hs.mirrors hm, hs.nodup_shown,
    hs.shown_iff⟩

theorem Sound.firstSeen_eq {l' : Ledger} (hs' : l'.Sound) (hr : l.revisions <+: l'.revisions)
    {h : Head} (hm : h ∈ l.heads) :
    ∃ h' ∈ l'.heads, h'.sourceId = h.sourceId ∧ h'.firstSeen = h.firstSeen := by
  obtain ⟨row, hrow, hone, htime⟩ := (hs.mirrors hm).first
  have hrow' : row ∈ l'.history h.sourceId := (hr.filter _).subset hrow
  obtain ⟨hmem, hid⟩ := (mem_history_iff ..).mp hrow'
  obtain ⟨h', hm', hid'⟩ := (hs'.head_iff_row _).mpr ⟨row, hmem, hid⟩
  obtain ⟨row', hr', hone', htime'⟩ := (hs'.mirrors hm').first
  rw [hid'] at hr'
  have hsame := hs'.eq_of_version hrow' hr' (hone.trans hone'.symm)
  exact ⟨h', hm', hid', by rw [← htime', ← hsame, htime]⟩

end

/-- Whatever calls were made and whichever of them failed, the heads mirror the revisions, and no
later call moves the time at which an offer was first seen. -/
theorem Reachable.heads_mirror {l : Ledger} (hl : l.Reachable) :
    l.Mirrored ∧ ∀ l', Later l l' → ∀ h ∈ l.heads,
      ∃ h' ∈ l'.heads, h'.sourceId = h.sourceId ∧ h'.firstSeen = h.firstSeen := by
  refine ⟨hl.sound.mirrored, fun l' hlater h hm => ?_⟩
  exact hl.sound.firstSeen_eq (hl.later hlater).sound (hl.revisions_later hlater) hm

/-- An offer that came and went: its head stays, and says so. -/
theorem Reachable.heads_mirror_after_removal :
    Mirrored ⟨[⟨1, "SP", none, ⟨0⟩, none⟩],
      [⟨⟨1, .insert, 1, { sourceId := "a", uf := "SP" }⟩, ⟨5⟩, []⟩,
        ⟨⟨2, .delete, 1, { sourceId := "a", uf := "SP" }⟩, ⟨9⟩, []⟩],
      [⟨"a", "SP", 2, false, ⟨5⟩, ⟨5⟩, 1⟩]⟩ ∧
    ∀ l', Later ⟨[⟨1, "SP", none, ⟨0⟩, none⟩],
        [⟨⟨1, .insert, 1, { sourceId := "a", uf := "SP" }⟩, ⟨5⟩, []⟩,
          ⟨⟨2, .delete, 1, { sourceId := "a", uf := "SP" }⟩, ⟨9⟩, []⟩],
        [⟨"a", "SP", 2, false, ⟨5⟩, ⟨5⟩, 1⟩]⟩ l' →
      ∀ h ∈ [(⟨"a", "SP", 2, false, ⟨5⟩, ⟨5⟩, 1⟩ : Head)],
        ∃ h' ∈ l'.heads, h'.sourceId = h.sourceId ∧ h'.firstSeen = h.firstSeen := by
  have hbatch : Reachable ⟨[⟨1, "SP", none, ⟨0⟩, none⟩], [], []⟩ :=
    .startBatch (c := ⟨⟨0⟩, []⟩) .empty rfl
  have hlive : Call.Live (.append [⟨{ sourceId := "a", uf := "SP" }, 1, .insert⟩] 1) := by decide
  have hremove : Call.Live (.removeMissing "SP" [] 1) := trivial
  exact Reachable.heads_mirror ((hbatch.call ⟨⟨5⟩, []⟩ hlive).call ⟨⟨9⟩, []⟩ hremove)

end OfferLedger.Ledger
