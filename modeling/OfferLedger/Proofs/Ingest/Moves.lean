import OfferLedger.Proofs.Ingest.Effect
import OfferLedger.Proofs.Reconcile.Due

/-! # Offers that move

A group makes at most one revision for an offer. So an offer that is listed in one region gets at most one
from a whole snapshot, unless the group of the region that it leaves is taken first: that group deletes
the offer, and the group that lists it brings it back. -/
namespace OfferLedger

theorem View.live_due? {v : View} {partition : PartitionKey} {listings : List Listing}
    {id : SourceId} {e : Entry} (hid : id ∈ listings.map (·.sourceId))
    (h : v.due? partition listings id = some e) : e.operation ≠ .delete := by
  rcases due?_cases h with ⟨-, -, he⟩ | ⟨-, -, r, -, he⟩ | ⟨r, hr, -⟩
  · rw [he]
    exact Operation.noConfusion
  · rw [he]
    exact Operation.noConfusion
  · exact absurd hid (notMem_of_missing? hr)

namespace Ledger

theorem reachable_ingestGroup {l : Ledger} (hl : l.Reachable) (c : Conditions)
    (digest : Option String) (group : Group) : (ingestGroup c digest l group).ledger.Reachable := by
  obtain ⟨partition, listings⟩ := group
  cases hstart : l.startBatch c partition digest with
  | error e =>
    simp only [ingestGroup, hstart]
    exact hl
  | ok opened =>
    obtain ⟨batch, l₀⟩ := opened
    have hrun := (hl.startBatch hstart).reconcile c partition listings batch
    cases hresult : ((reconcile partition listings batch).run (repository c) l₀).result with
    | error e =>
      simp only [ingestGroup, hstart, hresult]
      unfold closeFailed
      split
      · rename_i hfinish
        exact hrun.finishBatch hfinish
      · exact hrun
    | ok counts =>
      simp only [ingestGroup, hstart, hresult]
      split
      · exact hrun
      · rename_i hfinish
        exact hrun.finishBatch hfinish

theorem reachable_ingestGroups {l : Ledger} (hl : l.Reachable) (c : Conditions)
    (digest : Option String) (groups : List Group) :
    (ingestGroups c digest l groups).ledger.Reachable := by
  induction groups generalizing l with
  | nil => exact hl
  | cons group rest ih =>
    have hfirst := reachable_ingestGroup hl c digest group
    cases hresult : (ingestGroup c digest l group).result with
    | error e =>
      simp only [ingestGroups, hresult]
      exact hfirst
    | ok report =>
      simp only [ingestGroups, hresult]
      exact ih hfirst

theorem ingestGroups_append_eq_ok {l : Ledger} {c : Conditions} {digest : Option String}
    {before after : List Group} {reports : List PartitionReport}
    (h : (ingestGroups c digest l (before ++ after)).result = .ok reports) :
    (∃ reports', (ingestGroups c digest l before).result = .ok reports') ∧
      (∃ reports',
        (ingestGroups c digest (ingestGroups c digest l before).ledger after).result = .ok reports') ∧
      (ingestGroups c digest l (before ++ after)).ledger =
        (ingestGroups c digest (ingestGroups c digest l before).ledger after).ledger := by
  induction before generalizing l reports with
  | nil => exact ⟨⟨[], rfl⟩, ⟨reports, h⟩, rfl⟩
  | cons group rest ih =>
    obtain ⟨report, reports', hfirst, hothers, -, hledger⟩ := ingestGroups_cons_eq_ok h
    obtain ⟨⟨reports₁, h₁⟩, h₂, hafter⟩ := ih hothers
    have hrest : ingestGroups c digest l (group :: rest) =
        ⟨(ingestGroup c digest l group).progress ++
            (ingestGroups c digest (ingestGroup c digest l group).ledger rest).progress,
          .ok (report :: reports₁),
          (ingestGroups c digest (ingestGroup c digest l group).ledger rest).ledger⟩ := by
      simp only [ingestGroups, hfirst, h₁]
      rfl
    rw [hrest]
    exact ⟨⟨_, rfl⟩, h₂, hledger.trans hafter⟩

/-- The offer is active in a region of the listings, and is listed in a later one. -/
def Leaves (l : Ledger) (listings : List Listing) (id : SourceId) : Prop :=
  ∃ h w, l.head? id = some h ∧ h.isActive = true ∧ h.uf ∈ listings.map (·.uf) ∧
    w ∈ listings ∧ w.sourceId = id ∧ h.uf < w.uf

/-- The history is one revision longer at most, and not by a deletion if the offer is listed. -/
def Once (listings : List Listing) (l l' : Ledger) (id : SourceId) : Prop :=
  ∃ rows, l'.history id = l.history id ++ rows ∧ rows.length ≤ 1 ∧
    (id ∈ listings.map (·.sourceId) → ∀ row ∈ rows, row.revision.operation ≠ .delete)

/-- The history is two revisions longer: what was there is deleted, and an update has the last listing of
the offer. -/
def Moved (listings : List Listing) (l l' : Ledger) (id : SourceId) : Prop :=
  ∃ last w batch batch' removal update, l.view.latest? id = some last ∧
    lastFor listings id = some w ∧ l'.history id = l.history id ++ [removal, update] ∧
    removal.revision = ⟨last.version + 1, .delete, batch, last.listing⟩ ∧
    update.revision = ⟨last.version + 2, .update, batch', w⟩

section

variable {l l₁ l₂ l' : Ledger} {id : SourceId} {listings : List Listing}

theorem Untouched.once (h : Untouched l l' id) : Once listings l l' id :=
  ⟨[], h.1.trans (List.append_nil _).symm, by simp, fun _ _ hr => absurd hr List.not_mem_nil⟩

theorem Deleted.once (h : Deleted l l' id) (hid : id ∉ listings.map (·.sourceId)) :
    Once listings l l' id := by
  obtain ⟨-, -, row, -, -, hrow, -⟩ := h
  exact ⟨[row], hrow, by simp, fun hlisted => absurd hlisted hid⟩

theorem Once.between (h : Once listings l₁ l₂ id) (hbefore : Untouched l l₁ id)
    (hafter : Untouched l₂ l' id) : Once listings l l' id := by
  obtain ⟨rows, hrows, hrest⟩ := h
  exact ⟨rows, by rw [hafter.1, hrows, hbefore.1], hrest⟩

theorem Took.rows {group : Group} {report : PartitionReport} (ht : Took group report l l')
    (id : SourceId) :
    ∃ rows, l'.history id = l.history id ++ rows ∧ rows.map (·.revision) =
      ((l.view.due? group.1 group.2 id).map (·.revision report.batch)).toList :=
  rows_of_histories ht.framed.revisions (ht.reconciled.history_eq id)

theorem Took.once {group : Group} {report : PartitionReport} (ht : Took group report l l')
    (hid : id ∈ group.2.map (·.sourceId)) : Once listings l l' id := by
  obtain ⟨rows, hrows, hrevisions⟩ := ht.rows id
  refine ⟨rows, hrows, ?_, fun _ row hr => ?_⟩
  · rw [← List.length_map (f := fun row : RevisionRow => row.revision), hrevisions]
    cases l.view.due? group.1 group.2 id <;> simp
  · have hm := List.mem_map_of_mem (f := (·.revision)) hr
    rw [hrevisions, Option.mem_toList, Option.map_eq_some_iff] at hm
    obtain ⟨e, he, heq⟩ := hm
    rw [← heq]
    exact View.live_due? hid he

theorem Took.moved {group : Group} {report : PartitionReport}
    (ht : Took group report l₁ l₂) (hdeleted : Deleted l l₁ id) (hafter : Untouched l₂ l' id)
    {w : Listing} (hw : lastFor group.2 id = some w) (hlisted : lastFor listings id = some w) :
    Moved listings l l' id := by
  obtain ⟨hinactive, last, removal, batch, hlast, hremoval, hrevision⟩ := hdeleted
  have hlatest : l₁.view.latest? id = some removal.revision := by
    rw [latest?_view, hremoval, List.getLast?_concat]
    rfl
  have hshows : ¬ l₁.view.Shows w := by
    rintro ⟨hactive, -⟩
    rw [sourceId_of_lastFor hw, hinactive] at hactive
    cases hactive
  obtain ⟨rows, hrows, hrevisions⟩ := ht.rows id
  rw [View.due?_of_changed hw hlatest hshows] at hrevisions
  obtain ⟨update, rfl, hupdate⟩ := List.map_eq_singleton_iff.mp hrevisions
  refine ⟨last, w, batch, report.batch, removal, update, hlast, hlisted, ?_, hrevision, ?_⟩
  · rw [hafter.1, hrows, hremoval, List.append_assoc]
    rfl
  · rw [hupdate, hrevision]
    simp [Entry.revision]
    omega

end

theorem mem_of_mem_groups {listings : List Listing} {group : Group}
    (hg : group ∈ groups listings []) {id : SourceId} (hid : id ∈ group.2.map (·.sourceId)) :
    ∃ w ∈ listings, w.sourceId = id ∧ w.uf = group.1 := by
  obtain ⟨w, hw, hid⟩ := List.mem_map.mp hid
  rw [((mem_groups_iff listings [] group).mp hg).2, List.mem_filter, decide_eq_true_eq] at hw
  exact ⟨w, hw.1, hid, hw.2⟩

section

variable {listings : List Listing} {before after : List Group} {group : Group}
  (hgroups : groups listings [] = before ++ group :: after)
include hgroups

theorem mem_keys_before_iff (k : PartitionKey) :
    k ∈ before.map (·.1) ↔ k ∈ listings.map (·.uf) ∧ k < group.1 := by
  have hk := hgroups ▸ pairwise_groups listings []
  obtain ⟨-, hkrest, hlt⟩ := List.pairwise_append.mp hk
  have hlt' := (List.pairwise_cons.mp hkrest).1
  constructor
  · intro hm
    obtain ⟨g, hg, rfl⟩ := List.mem_map.mp hm
    have hmem : g ∈ groups listings [] := by
      rw [hgroups]
      exact List.mem_append_left _ hg
    have hkey := ((mem_groups_iff listings [] g).mp hmem).1
    exact ⟨(mem_groupKeys_nil_iff listings g.1).mp hkey, hlt g hg group (List.mem_cons_self ..)⟩
  · rintro ⟨hregion, hless⟩
    have hmem : (k, listings.filter (·.uf = k)) ∈ groups listings [] :=
      (mem_groups_iff listings [] _).mpr ⟨(mem_groupKeys_nil_iff listings k).mpr hregion, rfl⟩
    rw [hgroups] at hmem
    rcases List.mem_append.mp hmem with hg | hg
    · exact List.mem_map_of_mem (f := (·.1)) hg
    · rcases List.mem_cons.mp hg with rfl | hg
      · exact absurd hless (String.lt_irrefl _)
      · exact absurd hless (String.lt_asymm (hlt' _ hg))

theorem not_listed_of_other {id : SourceId}
    (hone : ∀ w ∈ listings, w.sourceId = id → w.uf = group.1) :
    ¬ Listed before id ∧ ¬ Listed after id := by
  have hk := hgroups ▸ pairwise_groups listings []
  obtain ⟨-, hkrest, hlt⟩ := List.pairwise_append.mp hk
  have hlt' := (List.pairwise_cons.mp hkrest).1
  have hkey : ∀ g ∈ groups listings [], id ∈ g.2.map (·.sourceId) → group.1 = g.1 := by
    intro g hg hmem
    obtain ⟨w, hw, heq, hregion⟩ := mem_of_mem_groups hg hmem
    exact (hone w hw heq).symm.trans hregion
  rw [hgroups] at hkey
  constructor
  · rintro ⟨g, hg, hmem⟩
    have hless := hlt g hg group (List.mem_cons_self ..)
    rw [hkey g (List.mem_append_left _ hg) hmem] at hless
    exact String.lt_irrefl _ hless
  · rintro ⟨g, hg, hmem⟩
    have hless := hlt' g hg
    rw [hkey g (List.mem_append_right _ (List.mem_cons_of_mem _ hg)) hmem] at hless
    exact String.lt_irrefl _ hless

end

section

variable {l : Ledger} (hl : l.Reachable) {c : Conditions}
include hl

theorem Reachable.once_or_moved_of_groups {digest : Option String} {before after : List Group}
    {group : Group} (hk : (before ++ group :: after).Pairwise fun g g' => g.1 < g'.1)
    (huf : ∀ g ∈ before ++ group :: after, ∀ w ∈ g.2, w.uf = g.1) {id : SourceId}
    (hbefore : ¬ Listed before id) (hafter : ¬ Listed after id) {w : Listing}
    (hw : lastFor group.2 id = some w) {listings : List Listing}
    (hlisted : lastFor listings id = some w) {reports : List PartitionReport}
    (h : (ingestGroups c digest l (before ++ group :: after)).result = .ok reports) :
    (l.ActiveIn (before.map (·.1)) id →
      Moved listings l (ingestGroups c digest l (before ++ group :: after)).ledger id) ∧
    (¬ l.ActiveIn (before.map (·.1)) id →
      Once listings l (ingestGroups c digest l (before ++ group :: after)).ledger id) := by
  obtain ⟨⟨reports₁, h₁⟩, ⟨reports₂, h₂⟩, hledger⟩ := ingestGroups_append_eq_ok h
  obtain ⟨report, reports₃, hgroup, h₃, -, hledger'⟩ := ingestGroups_cons_eq_ok h₂
  obtain ⟨hkbefore, hkrest, -⟩ := List.pairwise_append.mp hk
  obtain ⟨hlt, hkafter⟩ := List.pairwise_cons.mp hkrest
  have hs₁ := (reachable_ingestGroups hl c digest before).sound
  have ht := hs₁.took hgroup
  have hsettled := hl.sound.settled hkbefore
    (fun g hg => huf g (List.mem_append_left _ hg)) h₁
  have hsettled' := ht.sound.settled hkafter
    (fun g hg => huf g (List.mem_append_right _ (List.mem_cons_of_mem _ hg))) h₃
  have hlater := hsettled'.others id hafter
    (ht.not_activeIn (huf group (by simp)) hw (notMem_keys hlt))
  rw [hledger, hledger']
  constructor
  · intro hactive
    exact ht.moved (hsettled.deleted id hbefore hactive) hlater hw hlisted
  · intro hactive
    have hmem : id ∈ group.2.map (·.sourceId) := by
      rw [← lastFor_isSome_iff, hw]
      rfl
    exact (ht.once hmem).between (hsettled.others id hbefore hactive) hlater

/-- If no offer is listed in two regions, a snapshot that was ingested has made at most one revision
for each offer, and has deleted none that it lists. An offer that has left a region of the snapshot for
a later one is the exception: it was deleted and brought back. -/
theorem Reachable.once_or_moved {snapshot : Snapshot}
    (hone : ∀ v ∈ snapshot.listings, ∀ w ∈ snapshot.listings, v.sourceId = w.sourceId → v.uf = w.uf)
    {reports : List PartitionReport} (h : (ingest c l snapshot []).result = .ok reports)
    (id : SourceId) :
    (l.Leaves snapshot.listings id →
      Moved snapshot.listings l (ingest c l snapshot []).ledger id) ∧
    (¬ l.Leaves snapshot.listings id →
      Once snapshot.listings l (ingest c l snapshot []).ledger id) := by
  have hk := pairwise_groups snapshot.listings []
  have huf : ∀ g ∈ groups snapshot.listings [], ∀ w ∈ g.2, w.uf = g.1 :=
    fun g hg w hw => uf_of_mem_groups hg hw
  by_cases hid : id ∈ snapshot.listings.map (·.sourceId)
  · obtain ⟨v, hv, rfl⟩ := List.mem_map.mp hid
    have hone' : ∀ w ∈ snapshot.listings, w.sourceId = v.sourceId → w.uf = v.uf :=
      fun w hw heq => hone w hw v hv heq
    have hgroup : (v.uf, snapshot.listings.filter (·.uf = v.uf)) ∈ groups snapshot.listings [] :=
      (mem_groups_iff _ [] _).mpr
        ⟨(mem_groupKeys_nil_iff _ v.uf).mpr (List.mem_map_of_mem hv), rfl⟩
    obtain ⟨before, after, hgroups⟩ := List.append_of_mem hgroup
    obtain ⟨hbefore, hafter⟩ := not_listed_of_other hgroups hone'
    have hsame : lastFor (snapshot.listings.filter (·.uf = v.uf)) v.sourceId =
        lastFor snapshot.listings v.sourceId :=
      lastFor_filter fun w hw heq => decide_eq_true (hone' w hw heq)
    obtain ⟨w, hw⟩ := Option.isSome_iff_exists.mp ((lastFor_isSome_iff _ _).mpr hid)
    have hleaves : l.Leaves snapshot.listings v.sourceId ↔
        l.ActiveIn (before.map (·.1)) v.sourceId := by
      constructor
      · rintro ⟨head, w, hhead, hactive, hregion, hw, heq, hless⟩
        rw [hone' w hw heq] at hless
        exact ⟨head, hhead, hactive, (mem_keys_before_iff hgroups _).mpr ⟨hregion, hless⟩⟩
      · rintro ⟨head, hhead, hactive, hkey⟩
        obtain ⟨hregion, hless⟩ := (mem_keys_before_iff hgroups _).mp hkey
        exact ⟨head, v, hhead, hactive, hregion, hv, rfl, hless⟩
    unfold ingest at h ⊢
    rw [hleaves]
    rw [hgroups] at hk huf h ⊢
    exact hl.once_or_moved_of_groups hk huf hbefore hafter (hsame.trans hw) hw h
  · have hnot : ¬ Listed (groups snapshot.listings []) id := by
      rintro ⟨g, hg, hmem⟩
      obtain ⟨w, hw, rfl, -⟩ := mem_of_mem_groups hg hmem
      exact hid (List.mem_map_of_mem hw)
    have hsettled : Settled _ l (ingest c l snapshot []).ledger := hl.sound.settled hk huf h
    constructor
    · rintro ⟨-, w, -, -, -, hw, rfl, -⟩
      exact absurd (List.mem_map_of_mem hw) hid
    · intro _
      by_cases hactive : l.ActiveIn ((groups snapshot.listings []).map (·.1)) id
      · exact (hsettled.deleted id hnot hactive).once hid
      · exact (hsettled.others id hnot hactive).once

end

/-- Offer a moves to a region that comes later, while another offer is listed in the region it leaves. -/
theorem twice_though_listed_once :
    let l := (ingest ⟨⟨5⟩, []⟩ empty { listings := [{ sourceId := "a", uf := "RJ" }] } []).ledger
    let snapshot : Snapshot :=
      { listings := [{ sourceId := "b", uf := "RJ" }, { sourceId := "a", uf := "SP" }] }
    let l' := (ingest ⟨⟨9⟩, []⟩ l snapshot []).ledger
    l.Reachable ∧
      (∀ v ∈ snapshot.listings, ∀ w ∈ snapshot.listings, v.sourceId = w.sourceId → v.uf = w.uf) ∧
      (∃ reports, (ingest ⟨⟨9⟩, []⟩ l snapshot []).result = .ok reports) ∧
      (l'.history "a").map (·.revision.operation) = [.insert, .delete, .update] ∧
      ¬ Once snapshot.listings l l' "a" := by
  intro l snapshot l'
  have hl : l.Reachable := reachable_ingestGroups .empty _ _ _
  refine ⟨hl, by decide, hl.sound.ingestGroups_succeeds rfl _ _, by decide +kernel, ?_⟩
  rintro ⟨rows, hrows, hshort, -⟩
  have hbefore : (l.history "a").length = 1 := by decide +kernel
  have hafter : (l'.history "a").length = 3 := by decide +kernel
  rw [hrows, List.length_append] at hafter
  omega

theorem once_or_moved_of_later_region :
    let l := (ingest ⟨⟨5⟩, []⟩ empty { listings := [{ sourceId := "a", uf := "RJ" }] } []).ledger
    let snapshot : Snapshot :=
      { listings := [{ sourceId := "b", uf := "RJ" }, { sourceId := "a", uf := "SP" }] }
    let l' := (ingest ⟨⟨9⟩, []⟩ l snapshot []).ledger
    Moved snapshot.listings l l' "a" ∧ Once snapshot.listings l l' "b" := by
  intro l snapshot l'
  have hl : l.Reachable := reachable_ingestGroups .empty _ _ _
  have hone : ∀ v ∈ snapshot.listings, ∀ w ∈ snapshot.listings, v.sourceId = w.sourceId →
      v.uf = w.uf := by decide
  obtain ⟨reports, hresult⟩ := hl.sound.ingestGroups_succeeds (c := ⟨⟨9⟩, []⟩) rfl snapshot.digest
    (groups snapshot.listings [])
  have hleaves : l.Leaves snapshot.listings "a" :=
    ⟨⟨"a", "RJ", 1, true, ⟨5⟩, ⟨5⟩, 1⟩, { sourceId := "a", uf := "SP" }, by decide +kernel, rfl,
      by decide, by decide, rfl, by decide⟩
  have hstays : ¬ l.Leaves snapshot.listings "b" := by
    rintro ⟨head, -, hhead, -⟩
    have hnone : l.head? "b" = none := by decide +kernel
    rw [hnone] at hhead
    cases hhead
  exact ⟨(Reachable.once_or_moved hl hone hresult "a").1 hleaves,
    (Reachable.once_or_moved hl hone hresult "b").2 hstays⟩

end Ledger
end OfferLedger
