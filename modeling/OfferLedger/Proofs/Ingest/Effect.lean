import OfferLedger.Proofs.Ingest.Groups
import OfferLedger.Proofs.Snapshot.Partition

/-! # The effect of ingesting a snapshot

The groups of a snapshot are taken one after another on the same ledger. An offer can be removed with one
group and come back with a later one, or be taken over before its old region looks for what is
missing. What remains in the end is decided by the last group that lists the offer. -/
namespace OfferLedger

def Listed (groups : List Group) (id : SourceId) : Prop :=
  ∃ g ∈ groups, id ∈ g.2.map (·.sourceId)

/-- The last listing of an offer in the group that has the greatest key of those that list it. -/
def Wins (groups : List Group) (id : SourceId) (w : Listing) : Prop :=
  ∃ g ∈ groups, lastFor g.2 id = some w ∧
    ∀ g' ∈ groups, id ∈ g'.2.map (·.sourceId) → g'.1 ≤ g.1

theorem exists_wins {groups : List Group} (hk : groups.Pairwise fun g g' => g.1 < g'.1)
    {id : SourceId} (h : Listed groups id) : ∃ w, Wins groups id w := by
  induction groups with
  | nil =>
    obtain ⟨g, hg, -⟩ := h
    cases hg
  | cons g rest ih =>
    obtain ⟨hlt, hrest⟩ := List.pairwise_cons.mp hk
    by_cases hlater : Listed rest id
    · obtain ⟨w, g', hg', hw, hmax⟩ := ih hrest hlater
      refine ⟨w, g', List.mem_cons_of_mem _ hg', hw, ?_⟩
      intro g'' hg'' hid
      rcases List.mem_cons.mp hg'' with rfl | hg''
      · exact String.not_lt.mp (String.lt_asymm (hlt g' hg'))
      · exact hmax g'' hg'' hid
    · obtain ⟨g', hg', hid⟩ := h
      rcases List.mem_cons.mp hg' with rfl | hg'
      · obtain ⟨w, hw⟩ := Option.isSome_iff_exists.mp ((lastFor_isSome_iff _ _).mpr hid)
        refine ⟨w, g', List.mem_cons_self .., hw, ?_⟩
        intro g'' hg'' hid'
        rcases List.mem_cons.mp hg'' with rfl | hg''
        · exact String.not_lt.mp (String.lt_irrefl _)
        · exact absurd ⟨g'', hg'', hid'⟩ hlater
      · exact absurd ⟨g', hg', hid⟩ hlater

theorem wins_cons {g : Group} {rest : List Group} (hlt : ∀ g' ∈ rest, g.1 < g'.1) {id : SourceId}
    {w : Listing} (h : Wins (g :: rest) id w) :
    Wins rest id w ∨ lastFor g.2 id = some w ∧ ¬ Listed rest id := by
  obtain ⟨g', hg', hw, hmax⟩ := h
  rcases List.mem_cons.mp hg' with rfl | hg'
  · refine .inr ⟨hw, ?_⟩
    rintro ⟨g'', hg'', hid⟩
    exact String.not_lt.mpr (hmax g'' (List.mem_cons_of_mem _ hg'') hid) (hlt g'' hg'')
  · exact .inl ⟨g', hg', hw, fun g'' hg'' => hmax g'' (List.mem_cons_of_mem _ hg'')⟩

theorem not_listed_cons {g : Group} {rest : List Group} {id : SourceId}
    (h : ¬ Listed (g :: rest) id) : id ∉ g.2.map (·.sourceId) ∧ ¬ Listed rest id := by
  constructor
  · intro hid
    exact h ⟨g, List.mem_cons_self .., hid⟩
  · rintro ⟨g', hg', hid⟩
    exact h ⟨g', List.mem_cons_of_mem _ hg', hid⟩

theorem notMem_keys {k : PartitionKey} {groups : List Group} (hlt : ∀ g ∈ groups, k < g.1) :
    k ∉ groups.map (·.1) := by
  intro hm
  obtain ⟨g, hg, rfl⟩ := List.mem_map.mp hm
  exact String.lt_irrefl _ (hlt g hg)

namespace Ledger

/-- The offer is active in one of some regions. -/
def ActiveIn (l : Ledger) (keys : List PartitionKey) (id : SourceId) : Prop :=
  ∃ h, l.head? id = some h ∧ h.isActive = true ∧ h.uf ∈ keys

/-- The history and the head of the offer are as before, with the mark of when it was last seen. -/
def Untouched (l l' : Ledger) (id : SourceId) : Prop :=
  l'.history id = l.history id ∧ l'.head? id = l.head? id

/-- The offer is inactive, by one revision more, which is the deletion of what was there. -/
def Deleted (l l' : Ledger) (id : SourceId) : Prop :=
  l'.view.isActive id = false ∧ ∃ last row batch, l.view.latest? id = some last ∧
    l'.history id = l.history id ++ [row] ∧
    row.revision = ⟨last.version + 1, .delete, batch, last.listing⟩

section

variable {l l₁ l' : Ledger} {id : SourceId}

theorem Untouched.trans (h : Untouched l l₁ id) (h' : Untouched l₁ l' id) : Untouched l l' id :=
  ⟨h'.1.trans h.1, h'.2.trans h.2⟩

theorem Untouched.latest?_eq (h : Untouched l l' id) : l'.view.latest? id = l.view.latest? id := by
  rw [latest?_view, latest?_view, h.1]

theorem Untouched.isActive_eq (h : Untouched l l' id) :
    l'.view.isActive id = l.view.isActive id :=
  congrArg (·.any (·.isActive)) h.2

theorem Untouched.activeIn_iff (h : Untouched l l' id) (keys : List PartitionKey) :
    l'.ActiveIn keys id ↔ l.ActiveIn keys id := by
  rw [ActiveIn, ActiveIn, h.2]

theorem Untouched.shows {w : Listing} (h : Untouched l l' w.sourceId) (hw : l.view.Shows w) :
    l'.view.Shows w := by
  obtain ⟨hactive, hlisting⟩ := hw
  exact ⟨h.isActive_eq.trans hactive, by rw [h.latest?_eq, hlisting]⟩

theorem Deleted.not_activeIn (h : Deleted l l' id) (keys : List PartitionKey) :
    ¬ l'.ActiveIn keys id := by
  rintro ⟨head, hhead, hactive, -⟩
  have hinactive : (l'.head? id).any (·.isActive) = false := h.1
  rw [hhead, Option.any_some, hactive] at hinactive
  cases hinactive

theorem Deleted.then_untouched (h : Deleted l l₁ id) (h' : Untouched l₁ l' id) :
    Deleted l l' id := by
  obtain ⟨hactive, last, row, batch, hlast, hhistory, hrow⟩ := h
  exact ⟨h'.isActive_eq.trans hactive, last, row, batch, hlast, h'.1.trans hhistory, hrow⟩

theorem Untouched.then_deleted (h : Untouched l l₁ id) (h' : Deleted l₁ l' id) :
    Deleted l l' id := by
  obtain ⟨hactive, last, row, batch, hlast, hhistory, hrow⟩ := h'
  exact ⟨hactive, last, row, batch, h.latest?_eq ▸ hlast, h.1 ▸ hhistory, hrow⟩

end

/-- What groups make of the offers of a ledger: the winners are shown, the other offers of their
regions are deleted, and nothing else is touched. -/
structure Settled (groups : List Group) (l l' : Ledger) : Prop where
  shown : ∀ id w, Wins groups id w → l'.view.Shows w
  deleted : ∀ id, ¬ Listed groups id → l.ActiveIn (groups.map (·.1)) id → Deleted l l' id
  others : ∀ id, ¬ Listed groups id → ¬ l.ActiveIn (groups.map (·.1)) id → Untouched l l' id

section

variable {l l₁ l' : Ledger}

theorem Sound.uf_of_shows (hs : l.Sound) {w : Listing} (hw : l.view.Shows w) {h : Head}
    (hh : l.head? w.sourceId = some h) : h.uf = w.uf := by
  obtain ⟨row, hrow, hst⟩ := hs.exists_latest hh
  have hlisting := hw.2
  rw [latest?_view, hrow] at hlisting
  have huf : row.revision.listing.uf = h.uf := congrArg Standing.uf hst
  rw [← huf, ← Option.some.inj hlisting]

theorem Sound.mem_gone_iff (hs : l.Sound) (partition : PartitionKey) (listings : List Listing)
    (id : SourceId) : id ∈ l.view.gone partition listings ↔
      id ∉ listings.map (·.sourceId) ∧ l.ActiveIn [partition] id := by
  apply and_congr_right
  intro _
  constructor
  · rintro ⟨hactive, r, hr, huf⟩
    obtain ⟨h, hh, hregion⟩ := hs.exists_head_of_latest? hr
    have hhead : (l.head? id).any (·.isActive) = true := hactive
    rw [hh, Option.any_some] at hhead
    exact ⟨h, hh, hhead, List.mem_singleton.mpr (hregion.trans huf)⟩
  · rintro ⟨h, hh, hactive, huf⟩
    obtain ⟨row, hrow, hst⟩ := hs.exists_latest hh
    refine ⟨?_, row.revision, by rw [latest?_view, hrow]; rfl, ?_⟩
    · change (l.head? id).any (·.isActive) = true
      rw [hh, Option.any_some, hactive]
    · exact (congrArg Standing.uf hst).trans (List.mem_singleton.mp huf)

theorem Took.deleted {group : Group} {report : PartitionReport} (hs : l.Sound)
    (ht : Took group report l l') {id : SourceId} (hid : id ∉ group.2.map (·.sourceId))
    (hactive : l.ActiveIn [group.1] id) : Deleted l l' id := by
  have hgone := (hs.mem_gone_iff group.1 group.2 id).mpr ⟨hid, hactive⟩
  obtain ⟨r, hr, -⟩ := hgone.2.2
  obtain ⟨hgrown, hinactive⟩ := ht.reconciled.removed id hgone r hr
  obtain ⟨rows, hrows, hadded⟩ := rows_of_histories ht.framed.revisions hgrown
  obtain ⟨row, rfl, hrow⟩ := List.map_eq_singleton_iff.mp hadded
  exact ⟨hinactive, r, row, report.batch, hr, hrows, hrow⟩

theorem Took.untouched {group : Group} {report : PartitionReport} (hs : l.Sound)
    (ht : Took group report l l') {id : SourceId} (hid : id ∉ group.2.map (·.sourceId))
    (hactive : ¬ l.ActiveIn [group.1] id) : Untouched l l' id := by
  have hgone : id ∉ l.view.gone group.1 group.2 := by
    intro h
    exact hactive ((hs.mem_gone_iff group.1 group.2 id).mp h).2
  have hsame := history_eq_of_histories ht.framed.revisions (ht.reconciled.others id hid hgone).1
  exact ⟨hsame, ht.framed.head? id hid hsame⟩

theorem Took.not_activeIn {group : Group} {report : PartitionReport} (ht : Took group report l l')
    (huf : ∀ w ∈ group.2, w.uf = group.1) {id : SourceId} {w : Listing}
    (hw : lastFor group.2 id = some w) {keys : List PartitionKey} (hkey : group.1 ∉ keys) :
    ¬ l'.ActiveIn keys id := by
  rintro ⟨head, hhead, -, hregion⟩
  have hid := sourceId_of_lastFor hw
  subst hid
  rw [ht.sound.uf_of_shows (ht.reconciled.shown _ w hw) hhead, huf w (mem_of_lastFor hw)] at hregion
  exact hkey hregion

theorem ActiveIn.cons_iff {k : PartitionKey} {keys : List PartitionKey} {id : SourceId} :
    l.ActiveIn (k :: keys) id ↔ l.ActiveIn [k] id ∨ l.ActiveIn keys id := by
  constructor
  · rintro ⟨h, hh, hactive, huf⟩
    rcases List.mem_cons.mp huf with huf | huf
    · exact .inl ⟨h, hh, hactive, List.mem_singleton.mpr huf⟩
    · exact .inr ⟨h, hh, hactive, huf⟩
  · rintro (⟨h, hh, hactive, huf⟩ | ⟨h, hh, hactive, huf⟩)
    · exact ⟨h, hh, hactive, List.mem_cons.mpr (.inl (List.mem_singleton.mp huf))⟩
    · exact ⟨h, hh, hactive, List.mem_cons_of_mem _ huf⟩

theorem Settled.cons {group : Group} {rest : List Group} {report : PartitionReport} (hs : l.Sound)
    (hlt : ∀ g ∈ rest, group.1 < g.1) (huf : ∀ w ∈ group.2, w.uf = group.1)
    (ht : Took group report l l₁) (h : Settled rest l₁ l') : Settled (group :: rest) l l' := by
  have hkey := notMem_keys hlt
  constructor
  · intro id w hw
    rcases wins_cons hlt hw with hw | ⟨hw, hlater⟩
    · exact h.shown id w hw
    · -- No later group looks where the offer is active now.
      have hid := sourceId_of_lastFor hw
      subst hid
      have hlast := h.others _ hlater (ht.not_activeIn huf hw hkey)
      exact hlast.shows (ht.reconciled.shown _ w hw)
  · intro id hid hactive
    obtain ⟨hfirst, hlater⟩ := not_listed_cons hid
    by_cases hhere : l.ActiveIn [group.1] id
    · have hdeleted := ht.deleted hs hfirst hhere
      exact hdeleted.then_untouched (h.others id hlater (hdeleted.not_activeIn _))
    · have hsame := ht.untouched hs hfirst hhere
      have hthere := (ActiveIn.cons_iff.mp hactive).resolve_left hhere
      exact hsame.then_deleted (h.deleted id hlater ((hsame.activeIn_iff _).mpr hthere))
  · intro id hid hactive
    obtain ⟨hfirst, hlater⟩ := not_listed_cons hid
    rw [List.map_cons, ActiveIn.cons_iff, not_or] at hactive
    have hsame := ht.untouched hs hfirst hactive.1
    apply hsame.trans
    apply h.others id hlater
    rw [hsame.activeIn_iff]
    exact hactive.2

theorem settled_nil (l : Ledger) : Settled [] l l := by
  constructor
  · rintro id w ⟨g, hg, -⟩
    cases hg
  · rintro id - ⟨h, -, -, huf⟩
    cases huf
  · exact fun id _ _ => ⟨rfl, rfl⟩

theorem Sound.settled {c : Conditions} {digest : Option String} {groups : List Group}
    (hs : l.Sound) (hk : groups.Pairwise fun g g' => g.1 < g'.1)
    (huf : ∀ g ∈ groups, ∀ w ∈ g.2, w.uf = g.1) {reports : List PartitionReport}
    (h : (ingestGroups c digest l groups).result = .ok reports) :
    Settled groups l (ingestGroups c digest l groups).ledger := by
  induction groups generalizing l reports with
  | nil => exact settled_nil l
  | cons group rest ih =>
    obtain ⟨hlt, hrest⟩ := List.pairwise_cons.mp hk
    obtain ⟨report, reports', hfirst, hothers, -, hledger⟩ := ingestGroups_cons_eq_ok h
    have ht := hs.took hfirst
    rw [hledger]
    apply Settled.cons hs hlt (huf group (List.mem_cons_self ..)) ht
    exact ih ht.sound hrest (fun g hg => huf g (List.mem_cons_of_mem _ hg)) hothers

end

/-- Every listed offer has a winner, and once a snapshot was ingested, every winner is shown, the other
active offers of the regions are deleted, and no other offer was touched. Without a fault it is
ingested. -/
theorem Reachable.ingest_effect {l : Ledger} (hl : l.Reachable) (c : Conditions)
    (snapshot : Snapshot) (requested : List String) :
    (∀ id, Listed (groups snapshot.listings requested) id →
      ∃ w, Wins (groups snapshot.listings requested) id w) ∧
    (c.faults = [] → ∃ reports, (ingest c l snapshot requested).result = .ok reports) ∧
    ∀ reports, (ingest c l snapshot requested).result = .ok reports →
      Settled (groups snapshot.listings requested) l (ingest c l snapshot requested).ledger := by
  have hk := pairwise_groups snapshot.listings requested
  refine ⟨?_, ?_, ?_⟩
  · intro id hid
    exact exists_wins hk hid
  · intro hc
    exact hl.sound.ingestGroups_succeeds hc _ _
  · intro reports h
    exact hl.sound.settled hk (fun g hg w hw => uf_of_mem_groups hg hw) h

/-- Offer a moves to a region that comes later, and offer b is listed in two regions. -/
theorem Reachable.ingest_effect_of_moved :
    let l : Ledger := ⟨[⟨1, "RJ", none, ⟨0⟩, none⟩],
      [⟨⟨1, .insert, 1, { sourceId := "a", uf := "RJ" }⟩, ⟨5⟩, []⟩],
      [⟨"a", "RJ", 1, true, ⟨5⟩, ⟨5⟩, 1⟩]⟩
    let snapshot : Snapshot := { listings := [{ sourceId := "b", uf := "RJ" },
      { sourceId := "b", uf := "SP" }, { sourceId := "a", uf := "SP" }] }
    (∃ reports, (ingest ⟨⟨9⟩, []⟩ l snapshot []).result = .ok reports) ∧
      (ingest ⟨⟨9⟩, []⟩ l snapshot []).ledger.view.Shows { sourceId := "a", uf := "SP" } ∧
      (ingest ⟨⟨9⟩, []⟩ l snapshot []).ledger.view.Shows { sourceId := "b", uf := "SP" } := by
  intro l snapshot
  have hopen : Reachable ⟨[⟨1, "RJ", none, ⟨0⟩, none⟩], [], []⟩ :=
    .startBatch (c := ⟨⟨0⟩, []⟩) .empty rfl
  have hlive : Call.Live (.append [⟨{ sourceId := "a", uf := "RJ" }, 1, .insert⟩] 1) := by decide
  have hl : l.Reachable := hopen.call ⟨⟨5⟩, []⟩ hlive
  obtain ⟨-, hsucceeds, heffect⟩ := Reachable.ingest_effect hl ⟨⟨9⟩, []⟩ snapshot []
  obtain ⟨reports, hresult⟩ := hsucceeds rfl
  have hsettled := heffect reports hresult
  have hregion : ("SP", [{ sourceId := "b", uf := "SP" }, { sourceId := "a", uf := "SP" }]) ∈
      groups snapshot.listings [] := by decide
  refine ⟨⟨reports, hresult⟩, hsettled.shown "a" _ ?a, hsettled.shown "b" _ ?b⟩
  case a => exact ⟨_, hregion, by decide, by decide⟩
  case b => exact ⟨_, hregion, by decide, by decide⟩

end Ledger
end OfferLedger
