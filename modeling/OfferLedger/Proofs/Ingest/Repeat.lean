import OfferLedger.Proofs.Ingest.Moves
import OfferLedger.Proofs.Reconcile.Repeat

/-! # Ingesting a snapshot again

After a snapshot was ingested each listed offer shows its winner, and nothing else is active in the
regions of the snapshot. That is what every group asks for, unless an offer is listed in two of
them: then the second time, as the first time, both groups write it. -/
namespace OfferLedger

/-- No offer is listed in two groups. -/
def Separate (groups : List Group) : Prop :=
  ∀ g ∈ groups, ∀ g' ∈ groups, ∀ id ∈ g.2.map (·.sourceId), id ∈ g'.2.map (·.sourceId) → g = g'

instance (groups : List Group) : Decidable (Separate groups) :=
  inferInstanceAs (Decidable (∀ g ∈ groups, ∀ g' ∈ groups, ∀ id ∈ g.2.map (·.sourceId),
    id ∈ g'.2.map (·.sourceId) → g = g'))

theorem eq_of_keys {groups : List Group} (hk : groups.Pairwise fun g g' => g.1 < g'.1) {g g' : Group}
    (hg : g ∈ groups) (hg' : g' ∈ groups) (h : g.1 = g'.1) : g = g' := by
  have hd : (groups.map (·.1)).Nodup := by
    rw [List.Nodup, List.pairwise_map]
    refine hk.imp ?_
    intro a b hlt heq
    rw [heq] at hlt
    exact String.lt_irrefl _ hlt
  exact List.inj_on_of_nodup_map hd hg hg' h

theorem Separate.wins {groups : List Group} (h : Separate groups) {g : Group} (hg : g ∈ groups)
    {id : SourceId} {w : Listing} (hw : lastFor g.2 id = some w) : Wins groups id w := by
  have hid : id ∈ g.2.map (·.sourceId) := by
    rw [← lastFor_isSome_iff, hw]
    rfl
  refine ⟨g, hg, hw, fun g' hg' hid' => ?_⟩
  obtain rfl := h g hg g' hg' id hid hid'
  exact String.le_refl _

namespace Ledger

section

variable {l l' : Ledger} {groups : List Group} {c : Conditions} {digest : Option String}
  {reports : List PartitionReport}

/-- What groups have made of a ledger is what each of them asks for. -/
theorem Settled.nothing_due (h : Settled groups l l') (hs : l'.Sound)
    (hk : groups.Pairwise fun g g' => g.1 < g'.1) (huf : ∀ g ∈ groups, ∀ w ∈ g.2, w.uf = g.1)
    (hsep : Separate groups) {g : Group} (hg : g ∈ groups) (id : SourceId) :
    l'.view.due? g.1 g.2 id = none := by
  by_cases hid : id ∈ g.2.map (·.sourceId)
  · obtain ⟨w, hw⟩ := Option.isSome_iff_exists.mp ((lastFor_isSome_iff _ _).mpr hid)
    exact View.due?_of_shows hw (h.shown id w (hsep.wins hg hw))
  · have hinactive : ¬ l'.ActiveIn [g.1] id := by
      by_cases hlisted : Listed groups id
      · -- The offer is shown in the region of another group.
        obtain ⟨w, g', hg', hw, hmax⟩ := exists_wins hk hlisted
        have hshows := h.shown id w ⟨g', hg', hw, hmax⟩
        obtain rfl := sourceId_of_lastFor hw
        rintro ⟨head, hhead, -, hregion⟩
        rw [hs.uf_of_shows hshows hhead, huf g' hg' w (mem_of_lastFor hw), List.mem_singleton]
          at hregion
        rw [eq_of_keys hk hg' hg hregion] at hw
        exact hid (List.mem_map_of_mem (mem_of_lastFor hw))
      · intro hactive
        have hregions : l'.ActiveIn (groups.map (·.1)) id := by
          obtain ⟨head, hhead, hactive, hregion⟩ := hactive
          rw [List.mem_singleton] at hregion
          exact ⟨head, hhead, hactive, hregion ▸ List.mem_map_of_mem hg⟩
        by_cases hbefore : l.ActiveIn (groups.map (·.1)) id
        · exact (h.deleted id hlisted hbefore).not_activeIn _ hregions
        · exact hbefore (((h.others id hlisted hbefore).activeIn_iff _).mp hregions)
    rw [View.due?_of_unlisted hid, Option.map_eq_none_iff, ← Option.not_isSome_iff_eq_none,
      View.isSome_missing?_lastWins, hs.mem_gone_iff]
    rintro ⟨-, hactive⟩
    exact hinactive hactive

theorem Sound.ingestGroups_idle (hs : l.Sound)
    (hdue : ∀ g ∈ groups, ∀ id, l.view.due? g.1 g.2 id = none)
    (h : (ingestGroups c digest l groups).result = .ok reports) :
    (ingestGroups c digest l groups).ledger.revisions = l.revisions ∧
      ∀ r ∈ reports, r.result.created = 0 ∧ r.result.updated = 0 ∧ r.result.removed = 0 := by
  induction groups generalizing l reports with
  | nil =>
    cases h
    exact ⟨rfl, fun _ hr => absurd hr List.not_mem_nil⟩
  | cons group rest ih =>
    obtain ⟨report, reports', hfirst, hothers, rfl, hledger⟩ := ingestGroups_cons_eq_ok h
    have ht := hs.took hfirst
    obtain ⟨hcounts, hhistory⟩ := ht.reconciled.idle (hdue group (List.mem_cons_self ..))
    have hview := ht.sound.consistent.ext hs.consistent hhistory
    have hrevisions := revisions_eq_of_histories ht.framed.revisions hhistory
    obtain ⟨hrest, hzero⟩ := ih ht.sound
      (fun g hg => hview ▸ hdue g (List.mem_cons_of_mem _ hg)) hothers
    constructor
    · rw [hledger, hrest, hrevisions]
    · intro r hr
      rcases List.mem_cons.mp hr with rfl | hr
      · rw [hcounts]
        exact ⟨rfl, rfl, rfl⟩
      · exact hzero r hr

theorem Sound.revisions_ingestGroups (hs : l.Sound)
    (h : (ingestGroups c digest l groups).result = .ok reports) :
    l.revisions <+: (ingestGroups c digest l groups).ledger.revisions := by
  induction groups generalizing l reports with
  | nil => exact List.prefix_rfl
  | cons group rest ih =>
    obtain ⟨report, reports', hfirst, hothers, -, hledger⟩ := ingestGroups_cons_eq_ok h
    have ht := hs.took hfirst
    rw [hledger]
    exact ht.framed.revisions.trans (ih ht.sound hothers)

theorem Sound.exists_shows (hs : l.Sound)
    (h : (ingestGroups c digest l groups).result = .ok reports) {g : Group} (hg : g ∈ groups)
    {id : SourceId} {w : Listing} (hw : lastFor g.2 id = some w) :
    ∃ m : Ledger, m.Sound ∧ m.view.Shows w ∧ l.revisions <+: m.revisions ∧
      m.revisions <+: (ingestGroups c digest l groups).ledger.revisions := by
  induction groups generalizing l reports with
  | nil => cases hg
  | cons group rest ih =>
    obtain ⟨report, reports', hfirst, hothers, -, hledger⟩ := ingestGroups_cons_eq_ok h
    have ht := hs.took hfirst
    rw [hledger]
    rcases List.mem_cons.mp hg with rfl | hg
    · exact ⟨_, ht.sound, ht.reconciled.shown id w hw, ht.framed.revisions,
        ht.sound.revisions_ingestGroups hothers⟩
    · obtain ⟨m, hm, hshows, hbefore, hafter⟩ := ih ht.sound hothers hg
      exact ⟨m, hm, hshows, ht.framed.revisions.trans hbefore, hafter⟩

theorem Sound.shows_of_revisions_eq (hs : l.Sound)
    (h : (ingestGroups c digest l groups).result = .ok reports)
    (hsame : (ingestGroups c digest l groups).ledger.revisions = l.revisions) {g : Group}
    (hg : g ∈ groups) {id : SourceId} {w : Listing} (hw : lastFor g.2 id = some w) :
    l.view.Shows w := by
  obtain ⟨m, hm, hshows, hbefore, hafter⟩ := hs.exists_shows h hg hw
  rw [hsame] at hafter
  have hrevisions : m.revisions = l.revisions :=
    hafter.eq_of_length_le hbefore.length_le
  have hview : m.view = l.view :=
    hm.consistent.ext hs.consistent (histories_eq_of_revisions hrevisions)
  rwa [hview] at hshows

theorem Sound.separate_of_revisions_eq (hs : l.Sound)
    (hk : groups.Pairwise fun g g' => g.1 < g'.1) (huf : ∀ g ∈ groups, ∀ w ∈ g.2, w.uf = g.1)
    (h : (ingestGroups c digest l groups).result = .ok reports)
    (hsame : (ingestGroups c digest l groups).ledger.revisions = l.revisions) : Separate groups := by
  intro g hg g' hg' id hid hid'
  obtain ⟨w, hw⟩ := Option.isSome_iff_exists.mp ((lastFor_isSome_iff _ _).mpr hid)
  obtain ⟨w', hw'⟩ := Option.isSome_iff_exists.mp ((lastFor_isSome_iff _ _).mpr hid')
  have hshows := hs.shows_of_revisions_eq h hsame hg hw
  have hshows' := hs.shows_of_revisions_eq h hsame hg' hw'
  have heq : w = w' :=
    hshows.eq_of_sourceId hshows' ((sourceId_of_lastFor hw).trans (sourceId_of_lastFor hw').symm)
  apply eq_of_keys hk hg hg'
  rw [← huf g hg w (mem_of_lastFor hw), heq, huf g' hg' w' (mem_of_lastFor hw')]

end

/-- A snapshot that is ingested twice records nothing the second time, and counts nothing as
created, updated or removed, exactly if no offer is listed in two of its groups. -/
theorem Reachable.ingest_again_idle_iff {l : Ledger} (hl : l.Reachable) {c c' : Conditions}
    {snapshot : Snapshot} {requested : List String} {reports reports' : List PartitionReport}
    (h : (ingest c l snapshot requested).result = .ok reports)
    (h' : (ingest c' (ingest c l snapshot requested).ledger snapshot requested).result =
      .ok reports') :
    ((ingest c' (ingest c l snapshot requested).ledger snapshot requested).ledger.revisions =
        (ingest c l snapshot requested).ledger.revisions ∧
      ∀ r ∈ reports', r.result.created = 0 ∧ r.result.updated = 0 ∧ r.result.removed = 0) ↔
    Separate (groups snapshot.listings requested) := by
  have hk := pairwise_groups snapshot.listings requested
  have huf : ∀ g ∈ groups snapshot.listings requested, ∀ w ∈ g.2, w.uf = g.1 :=
    fun g hg w hw => uf_of_mem_groups hg hw
  have hs₁ : (ingest c l snapshot requested).ledger.Sound :=
    (reachable_ingestGroups hl c _ _).sound
  constructor
  · rintro ⟨hsame, -⟩
    exact hs₁.separate_of_revisions_eq hk huf h' hsame
  · intro hsep
    have hsettled : Settled _ l (ingest c l snapshot requested).ledger := hl.sound.settled hk huf h
    exact hs₁.ingestGroups_idle (fun g hg => hsettled.nothing_due hs₁ hk huf hsep hg) h'

/-- A snapshot with one region for each offer, and one that lists an offer in two regions. -/
theorem ingest_again_of_two_snapshots :
    let apart : Snapshot :=
      { listings := [{ sourceId := "a", uf := "RJ" }, { sourceId := "b", uf := "SP" }] }
    let shared : Snapshot :=
      { listings := [{ sourceId := "a", uf := "RJ" }, { sourceId := "a", uf := "SP" }] }
    let once (snapshot : Snapshot) : Ledger := (ingest ⟨⟨5⟩, []⟩ empty snapshot []).ledger
    let twice (snapshot : Snapshot) := ingest ⟨⟨9⟩, []⟩ (once snapshot) snapshot []
    (twice apart).ledger.revisions = (once apart).revisions ∧
      ∃ reports, (twice shared).result = .ok reports ∧
        ¬ ((twice shared).ledger.revisions = (once shared).revisions ∧
          ∀ r ∈ reports, r.result.created = 0 ∧ r.result.updated = 0 ∧ r.result.removed = 0) := by
  intro apart shared once twice
  have hruns : ∀ snapshot, ∃ reports reports',
      (ingest ⟨⟨5⟩, []⟩ empty snapshot []).result = .ok reports ∧
        (twice snapshot).result = .ok reports' := by
    intro snapshot
    obtain ⟨reports, h⟩ := sound_empty.ingestGroups_succeeds (c := ⟨⟨5⟩, []⟩) rfl snapshot.digest
      (groups snapshot.listings [])
    have hs : (once snapshot).Sound := (reachable_ingestGroups .empty _ _ _).sound
    obtain ⟨reports', h'⟩ := hs.ingestGroups_succeeds (c := ⟨⟨9⟩, []⟩) rfl snapshot.digest
      (groups snapshot.listings [])
    exact ⟨reports, reports', h, h'⟩
  obtain ⟨reports, reports', h, h'⟩ := hruns apart
  obtain ⟨reports₁, reports₁', h₁, h₁'⟩ := hruns shared
  constructor
  · exact ((Reachable.ingest_again_idle_iff .empty h h').mpr (by decide +kernel)).1
  · refine ⟨reports₁', h₁', fun hidle => ?_⟩
    exact absurd ((Reachable.ingest_again_idle_iff .empty h₁ h₁').mp hidle) (by decide +kernel)

end Ledger
end OfferLedger
