import OfferLedger.Proofs.Reconcile.Planning
import OfferLedger.Proofs.Reconcile.Writes
import OfferLedger.Proofs.Store.Ledger
import OfferLedger.Proofs.Store.Memory

/-! # The effect of a reconciliation

Seen through its five calls, a reconciliation appends the entries of its plan and then removes what is
missing. Every store ends up with exactly the listings of the batch active in the region, and nothing
else has moved. -/
namespace OfferLedger

/-- What a store shows after a batch was reconciled, against what it showed before. -/
structure Reconciled (partition : PartitionKey) (listings : List Listing) (batch : BatchId)
    (before after : View) (counts : Counts) : Prop where
  shown : ∀ id l, lastFor listings id = some l → after.Shows l
  created : ∀ id ∈ before.created listings, ∀ l, lastFor listings id = some l →
    after.history id = [⟨1, .insert, batch, l⟩]
  updated : ∀ id ∈ before.updated listings, ∀ l r, lastFor listings id = some l →
    before.latest? id = some r →
    after.history id = before.history id ++ [⟨r.version + 1, .update, batch, l⟩]
  skipped : ∀ id ∈ before.skipped listings, after.history id = before.history id
  removed : ∀ id ∈ before.gone partition listings, ∀ r, before.latest? id = some r →
    after.history id = before.history id ++ [⟨r.version + 1, .delete, batch, r.listing⟩] ∧
      after.isActive id = false
  others : ∀ id, id ∉ listings.map (·.sourceId) → id ∉ before.gone partition listings →
    after.history id = before.history id ∧ after.isActive id = before.isActive id
  countCreated : counts.created = (before.created listings).encard
  countUpdated : counts.updated = (before.updated listings).encard
  countSkipped : counts.skipped = (before.skipped listings).encard
  countRemoved : counts.removed = (before.gone partition listings).encard
  countListed : counts.created + counts.updated + counts.skipped =
    (listings.map (·.sourceId)).toFinset.card

section

variable {partition : PartitionKey} {listings : List Listing} {batch : BatchId} {before after : View}
  {counts : Counts} (h : Reconciled partition listings batch before after counts) {id : SourceId}
include h

theorem Reconciled.isActive_of_listed (hid : id ∈ listings.map (·.sourceId)) :
    after.isActive id = true := by
  obtain ⟨l, hl⟩ := Option.isSome_iff_exists.mp ((lastFor_isSome_iff _ _).mpr hid)
  have hshows := h.shown id l hl
  rw [← sourceId_of_lastFor hl]
  exact hshows.1

theorem Reconciled.isActive_of_gone (hid : id ∈ before.gone partition listings) :
    after.isActive id = false := by
  have ⟨_, _, r, hr, _⟩ := hid
  exact (h.removed id hid r hr).2

end

namespace View

theorem Consistent.isActive_congr {v w : View} (hv : v.Consistent) (hw : w.Consistent)
    {id : SourceId} (h : v.history id = w.history id) : v.isActive id = w.isActive id := by
  rw [hv.isActive, hw.isActive, latest?, latest?, h]

theorem Consistent.shows_congr {v w : View} (hv : v.Consistent) (hw : w.Consistent) {l : Listing}
    (h : v.history l.sourceId = w.history l.sourceId) : v.Shows l ↔ w.Shows l := by
  rw [Shows, Shows, hv.isActive_congr hw h, latest?, latest?, h]

theorem Consistent.shows_of_append {v : View} (hv : v.Consistent) {l : Listing}
    {revisions : List Revision} {version : Int} {op : Operation} {batch : BatchId}
    (h : v.history l.sourceId = revisions ++ [⟨version, op, batch, l⟩]) (hop : op ≠ .delete) :
    v.Shows l := by
  have hlatest : v.latest? l.sourceId = some ⟨version, op, batch, l⟩ := by
    rw [latest?, h, List.getLast?_concat]
  refine ⟨?_, by rw [hlatest]; rfl⟩
  rw [hv.isActive, hlatest]
  simpa [Revision.isDelete] using hop

end View

section

variable {before mid after : View} {partition : PartitionKey} {listings : List Listing}
  {batch : BatchId} {known : SourceId → Option Known}
  (hknown : ∀ id, known id = (lastFor listings id).bind before.known?)
include hknown

variable (hmid : mid.history = before.history.grown batch
  ((Plan.classify known (lastWins listings)).inserts ++
    (Plan.classify known (lastWins listings)).updates))
include hmid

theorem Plan.history_of_created {l : Listing} (hl : lastFor listings l.sourceId = some l)
    (hr : before.latest? l.sourceId = none) :
    mid.history l.sourceId = [⟨1, .insert, batch, l⟩] := by
  have he := List.mem_append_left (Plan.classify known (lastWins listings)).updates
    ((Plan.mem_inserts_iff hknown ⟨l, 1, .insert⟩).mpr ⟨hl, hr, rfl⟩)
  have hnil : before.history l.sourceId = [] := (before.latest?_eq_none_iff _).mp hr
  have h : before.history.grown batch _ l.sourceId =
      before.history l.sourceId ++ [⟨1, .insert, batch, l⟩] :=
    Histories.grown_of_mem (Plan.nodup_written hknown) he
  rw [hmid, h, hnil]
  rfl

theorem Plan.history_of_updated {l : Listing} {r : Revision}
    (hl : lastFor listings l.sourceId = some l) (hr : before.latest? l.sourceId = some r)
    (hshows : ¬ before.Shows l) :
    mid.history l.sourceId =
      before.history l.sourceId ++ [⟨r.version + 1, .update, batch, l⟩] := by
  have he := List.mem_append_right (Plan.classify known (lastWins listings)).inserts
    ((Plan.mem_updates_iff hknown ⟨l, r.version + 1, .update⟩).mpr ⟨hl, hshows, r, hr, rfl⟩)
  rw [hmid]
  exact Histories.grown_of_mem (Plan.nodup_written hknown) he

theorem Plan.history_of_rest {id : SourceId}
    (h : ∀ l, lastFor listings id = some l → before.Shows l) :
    mid.history id = before.history id := by
  rw [hmid]
  refine Histories.grown_of_notMem fun hm => ?_
  obtain ⟨e, he, rfl⟩ := List.mem_map.mp hm
  rcases List.mem_append.mp he with he | he
  · obtain ⟨hl, hnone, -⟩ := (Plan.mem_inserts_iff hknown e).mp he
    have hshows := (h _ hl).2
    rw [hnone] at hshows
    cases hshows
  · obtain ⟨hl, hshows, -⟩ := (Plan.mem_updates_iff hknown e).mp he
    exact hshows (h _ hl)

variable (hb : before.Consistent) (hm : mid.Consistent)
include hb hm

theorem Plan.shows {l : Listing} (hl : lastFor listings l.sourceId = some l) : mid.Shows l := by
  cases hr : before.latest? l.sourceId with
  | none =>
    have hh : mid.history l.sourceId = [] ++ [⟨1, .insert, batch, l⟩] :=
      Plan.history_of_created hknown hmid hl hr
    exact hm.shows_of_append hh (by decide)
  | some r =>
    by_cases hshows : before.Shows l
    · refine (hm.shows_congr hb (Plan.history_of_rest hknown hmid fun l' hl' => ?_)).mpr hshows
      rw [hl] at hl'
      cases hl'
      exact hshows
    · exact hm.shows_of_append (Plan.history_of_updated hknown hmid hl hr hshows) (by decide)

theorem Plan.history_of_unlisted {id : SourceId} (hid : id ∉ listings.map (·.sourceId)) :
    mid.history id = before.history id ∧ mid.isActive id = before.isActive id := by
  have h : mid.history id = before.history id := by
    refine Plan.history_of_rest hknown hmid fun l hl => ?_
    rw [(lastFor_eq_none_iff listings id).mpr hid] at hl
    cases hl
  exact ⟨h, hm.isActive_congr hb h⟩

theorem Plan.gone_eq (partition : PartitionKey) :
    mid.gone partition listings = before.gone partition listings := by
  ext id
  unfold View.gone
  rw [Set.mem_ofPred_eq, Set.mem_ofPred_eq]
  refine and_congr_right fun hid => ?_
  obtain ⟨hh, ha⟩ := Plan.history_of_unlisted hknown hmid hb hm hid
  rw [ha, View.latest?, View.latest?, hh]

omit hknown hmid hb hm in
theorem View.removed_of_notMem {id : SourceId} (h : id ∉ mid.gone partition listings) :
    mid.removed partition ((lastWins listings).map (·.sourceId)) batch id = mid.history id := by
  have hnone : mid.missing? partition ((lastWins listings).map (·.sourceId)) id = none := by
    rw [← Option.not_isSome_iff_eq_none, View.isSome_missing?_lastWins]
    exact h
  rw [View.removed, hnone]

theorem Plan.reconciled (ha : after.Consistent)
    (hafter : after.history = mid.removed partition ((lastWins listings).map (·.sourceId)) batch)
    {n : Nat}
    (hn : {id | (mid.missing? partition ((lastWins listings).map (·.sourceId)) id).isSome}.encard =
      n) :
    Reconciled partition listings batch before after
      ⟨(Plan.classify known (lastWins listings)).inserts.length,
        (Plan.classify known (lastWins listings)).updates.length,
        (Plan.classify known (lastWins listings)).touches.length, n⟩ := by
  have hgone := Plan.gone_eq hknown hmid hb hm partition
  have hkept : ∀ id, id ∉ mid.gone partition listings → after.history id = mid.history id := by
    intro id hid
    rw [hafter, View.removed_of_notMem hid]
  have hlisted : ∀ l, lastFor listings l.sourceId = some l →
      after.history l.sourceId = mid.history l.sourceId := by
    intro l hl
    refine hkept _ fun hid => hid.1 ?_
    rw [← lastFor_isSome_iff, hl]
    rfl
  constructor
  · intro id l hl
    have hid := sourceId_of_lastFor hl
    subst hid
    exact (ha.shows_congr hm (hlisted l hl)).mpr (Plan.shows hknown hmid hb hm hl)
  · rintro id ⟨_, _, hnone⟩ l hl
    have hid := sourceId_of_lastFor hl
    subst hid
    rw [hlisted l hl, Plan.history_of_created hknown hmid hl hnone]
  · rintro id ⟨l', hl', -, hshows⟩ l r hl hr
    obtain rfl : l = l' := Option.some.inj (hl.symm.trans hl')
    have hid := sourceId_of_lastFor hl
    subst hid
    rw [hlisted l hl, Plan.history_of_updated hknown hmid hl hr hshows]
  · rintro id ⟨l, hl, hshows⟩
    have hid := sourceId_of_lastFor hl
    subst hid
    rw [hlisted l hl]
    refine Plan.history_of_rest hknown hmid fun l' hl' => ?_
    rw [hl] at hl'
    cases hl'
    exact hshows
  · intro id hid r hr
    have hh := (Plan.history_of_unlisted hknown hmid hb hm hid.1).1
    have hr' : mid.latest? id = some r := by rw [View.latest?, hh, ← View.latest?, hr]
    rw [← hgone] at hid
    have hgrown : after.history id = before.history id ++ [r.removal.revision batch] := by
      rw [hafter, View.removed, View.missing?_lastWins hid hr', hh]
    refine ⟨hgrown, ?_⟩
    rw [ha.isActive, View.latest?, hgrown, List.getLast?_concat]
    rfl
  · intro id hid hnot
    obtain ⟨hh, hactive⟩ := Plan.history_of_unlisted hknown hmid hb hm hid
    rw [← hgone] at hnot
    have h := hkept id hnot
    exact ⟨h.trans hh, (ha.isActive_congr hm h).trans hactive⟩
  · exact (Plan.encard_created hknown).symm
  · exact (Plan.encard_updated hknown).symm
  · exact (Plan.encard_skipped hknown).symm
  · rw [← hgone, ← hn]
    congr 1
    ext id
    exact View.isSome_missing?_lastWins id
  · rw [Plan.length_classify, length_lastWins]

end

namespace Store

variable {σ : Type} (S : Store σ) {s : σ} {batch : BatchId}

theorem append_or_skip (hs : S.Sound s) (hb : S.HasBatch s batch) {entries : List Entry}
    (hw : (Call.append entries batch).WellFormed) (hf : ∀ e ∈ entries, (S.view s).history.Fits e) :
    ∃ s', (entries.isEmpty = true → s' = s) ∧
      (entries.isEmpty = false → S.repository (.append entries batch) s = (.ok (), s')) ∧
      S.Sound s' ∧ S.HasBatch s' batch ∧
      (S.view s').history = (S.view s).history.grown batch entries := by
  cases entries with
  | nil => exact ⟨s, fun _ => rfl, fun h => (by cases h), hs, hb, (Histories.grown_nil _ _).symm⟩
  | cons e rest =>
    obtain ⟨s', h, hh⟩ := S.append hs hb hw hf
    have hcall := S.call hs hw.live
    rw [h] at hcall
    exact ⟨s', fun h => (by cases h), fun _ => h, hcall.1, (hcall.2 batch).mpr hb, hh⟩

theorem touch_or_skip (hs : S.Sound s) (hb : S.HasBatch s batch) (ids : List SourceId) :
    ∃ s', (ids.isEmpty = true → s' = s) ∧
      (ids.isEmpty = false → S.repository (.touch ids batch) s = (.ok (), s')) ∧
      S.Sound s' ∧ S.HasBatch s' batch ∧ (S.view s').history = (S.view s).history := by
  cases ids with
  | nil => exact ⟨s, fun _ => rfl, fun h => (by cases h), hs, hb, rfl⟩
  | cons id rest =>
    obtain ⟨s', h, hh⟩ := S.touch hs hb (id :: rest)
    have hcall := S.call hs (c := .touch (id :: rest) batch) trivial
    rw [h] at hcall
    exact ⟨s', fun h => (by cases h), fun _ => h, hcall.1, (hcall.2 batch).mpr hb, hh⟩

theorem reconcile (hs : S.Sound s) (hb : S.HasBatch s batch) (partition : PartitionKey)
    (listings : List Listing) :
    ∃ counts s', (OfferLedger.reconcile partition listings batch).Returns S.repository s counts s' ∧
      Reconciled partition listings batch (S.view s) (S.view s') counts := by
  have hc := S.consistent hs
  obtain ⟨known, hfind, hget⟩ := S.find hs (lastWins listings)
  have hknown : ∀ id, Keyed.get? known id = (lastFor listings id).bind (S.view s).known? := by
    intro id
    rw [hget, lastFor_lastWins]
  -- The insertions fit, and the updates, being for other offers, still do afterwards.
  obtain ⟨s₁, hskip₁, hcall₁, hs₁, hb₁, hh₁⟩ := S.append_or_skip hs hb
    (Plan.wellFormed_inserts hknown batch) fun e he => Plan.fits_inserts hknown he
  have hfits : ∀ e ∈ (Plan.classify (Keyed.get? known) (lastWins listings)).updates,
      (S.view s₁).history.Fits e := by
    intro e he
    have hd := Plan.nodup_written hknown
    rw [List.map_append, List.nodup_append] at hd
    rw [hh₁, Histories.fits_grown_of_ne fun hm => hd.2.2 _ hm _ (List.mem_map_of_mem he) rfl]
    exact Plan.fits_updates hknown hc he
  obtain ⟨s₂, hskip₂, hcall₂, hs₂, hb₂, hh₂⟩ := S.append_or_skip hs₁ hb₁
    (Plan.wellFormed_updates hknown hc batch) hfits
  obtain ⟨s₃, hskip₃, hcall₃, hs₃, hb₃, hh₃⟩ := S.touch_or_skip hs₂ hb₂
    (Plan.classify (Keyed.get? known) (lastWins listings)).touches
  obtain ⟨n, s₄, hcall₄, hn, hh₄⟩ := S.removeMissing hs₃ hb₃ partition
    ((lastWins listings).map (·.sourceId))
  have hs₄ := (S.call hs₃ (c := .removeMissing partition ((lastWins listings).map (·.sourceId)) batch)
    trivial).1
  rw [hcall₄] at hs₄
  refine ⟨_, s₄, ?_, Plan.reconciled hknown ?_ hc (S.consistent hs₃) (S.consistent hs₄) hh₄ hn⟩
  · unfold OfferLedger.reconcile
    refine Program.Returns.bind (Program.returns_tell _ _) ?_
    refine Program.Returns.bind (Program.returns_perform hfind) ?_
    refine Program.Returns.bind (Program.returns_tell _ _) ?_
    refine Program.Returns.bind (Program.returns_tell _ _) ?_
    refine Program.returns_unless hskip₁ hcall₁ ?_
    refine Program.Returns.bind (Program.returns_tell _ _) ?_
    refine Program.returns_unless hskip₂ hcall₂ ?_
    refine Program.Returns.bind (Program.returns_tell _ _) ?_
    refine Program.returns_unless hskip₃ hcall₃ ?_
    refine Program.Returns.bind (Program.returns_tell _ _) ?_
    exact Program.Returns.bind (Program.returns_perform hcall₄) (Program.returns_pure _ _)
  · rw [hh₃, hh₂, hh₁, Histories.grown_grown]

end Store
/-- Also a run that was stopped by an error leaves a reachable store. -/
theorem MemoryStore.Reachable.reconcile {s : MemoryStore} (h : s.Reachable)
    (partition : PartitionKey) (listings : List Listing) (batch : BatchId) :
    ((OfferLedger.reconcile partition listings batch).run MemoryStore.repository s).state.Reachable :=
  (calls_reconcile partition listings batch).run (fun c _ _ h => .call c h) h

theorem Ledger.Reachable.reconcile {l : Ledger} (h : l.Reachable) (c : Conditions)
    (partition : PartitionKey) (listings : List Listing) (batch : BatchId) :
    ((OfferLedger.reconcile partition listings batch).run (repository c) l).state.Reachable :=
  (calls_reconcile partition listings batch).run (fun _ _ hc h => .call c h hc) h

/-- A reconciliation on which nothing fails succeeds in either store, with exactly the effect that the
batch asks for. The ledger keeps every recorded row as it is. -/
theorem reconcile_effect (partition : PartitionKey) (listings : List Listing) (batch : BatchId) :
    (∀ s : MemoryStore, s.Reachable →
      ∃ counts s', (reconcile partition listings batch).Returns MemoryStore.repository s counts s' ∧
        Reconciled partition listings batch s.view s'.view counts) ∧
    ∀ (c : Conditions) (l : Ledger), l.Reachable → c.faults = [] → l.hasBatch batch = true →
      ∃ counts l', (reconcile partition listings batch).Returns (Ledger.repository c) l counts l' ∧
        Reconciled partition listings batch l.view l'.view counts ∧
        ∀ id, l.history id <+: l'.history id := by
  constructor
  · intro s hs
    exact MemoryStore.store.reconcile hs.sound trivial partition listings
  · rintro ⟨now, faults⟩ l hl rfl hb
    obtain ⟨counts, l', hrun, hrec⟩ := (Ledger.store now).reconcile hl.sound hb partition listings
    have hkept : Ledger.Kept l ((reconcile partition listings batch).run
        (Ledger.repository ⟨now, []⟩) l).state :=
      (calls_reconcile partition listings batch).run
        (fun c l₁ hc hk => hk.trans (hk.sound.call ⟨now, []⟩ hc)) hl.sound.kept
    refine ⟨counts, l', hrun, hrec, fun id => ?_⟩
    exact hrun.2 ▸ hkept.history id

/-- One offer of each kind: x is new, a has changed, c was removed before, b is shown as listed, d is not
listed, and r is of another region. Offer a is listed twice. -/
theorem reconcile_effect_on_each_kind :
    let offer (id city : String) : Listing := { sourceId := id, uf := "SP", city := city }
    let first : Call := .append [⟨offer "a" "", 1, .insert⟩, ⟨offer "b" "", 1, .insert⟩,
      ⟨offer "c" "", 1, .insert⟩, ⟨offer "d" "", 1, .insert⟩,
      ⟨{ sourceId := "r", uf := "RJ" }, 1, .insert⟩] 1
    let removal : Call := .removeMissing "SP" ["a", "b", "d"] 1
    let s := (MemoryStore.repository removal (MemoryStore.repository first {}).2).2
    let opened : Ledger := ⟨[⟨1, "SP", none, ⟨0⟩, none⟩, ⟨2, "SP", none, ⟨0⟩, none⟩], [], []⟩
    let l := (Ledger.repository ⟨⟨6⟩, []⟩ removal (Ledger.repository ⟨⟨5⟩, []⟩ first opened).2).2
    let listings :=
      [offer "a" "", offer "x" "", offer "b" "", offer "c" "", offer "a" "SANTOS"]
    (∀ v ∈ [s.view, l.view], "x" ∈ v.created listings ∧ "a" ∈ v.updated listings ∧
      "c" ∈ v.updated listings ∧ v.isActive "c" = false ∧ "b" ∈ v.skipped listings ∧
      "d" ∈ v.gone "SP" listings ∧ "r" ∉ v.gone "SP" listings ∧ v.isActive "r" = true) ∧
    (∃ s', (reconcile "SP" listings 2).Returns MemoryStore.repository s ⟨1, 2, 1, 1⟩ s' ∧
      Reconciled "SP" listings 2 s.view s'.view ⟨1, 2, 1, 1⟩) ∧
    ∃ counts l', (reconcile "SP" listings 2).Returns (Ledger.repository ⟨⟨9⟩, []⟩) l counts l' ∧
      Reconciled "SP" listings 2 l.view l'.view counts ∧
      ∀ id, l.history id <+: l'.history id := by
  intro offer first removal s opened l listings
  have hs : s.Reachable := .call removal (.call first .empty)
  have hopened : opened.Reachable :=
    .startBatch (c := ⟨⟨0⟩, []⟩) (.startBatch (c := ⟨⟨0⟩, []⟩) .empty rfl) rfl
  have hfirst := hopened.call ⟨⟨5⟩, []⟩ (show first.Live by decide)
  have hl : l.Reachable := hfirst.call ⟨⟨6⟩, []⟩ (show removal.Live by decide)
  refine ⟨?_, ?_, ?_⟩
  · have hlatest : ∀ v ∈ [s.view, l.view],
        v.latest? "r" = some ⟨1, .insert, 1, { sourceId := "r", uf := "RJ" }⟩ := by decide +kernel
    intro v hv
    have hother : "r" ∉ v.gone "SP" listings := by
      rintro ⟨-, -, r, hr, huf⟩
      rw [hlatest v hv] at hr
      cases hr
      exact absurd huf (by decide)
    rcases List.mem_pair.mp hv with rfl | rfl
    all_goals
      refine ⟨⟨offer "x" "", ?_, ?_⟩, ⟨offer "a" "SANTOS", ?_, ?_, ?_⟩, ⟨offer "c" "", ?_, ?_, ?_⟩, ?_,
        ⟨offer "b" "", ?_, ?_⟩, ⟨?_, ?_, ⟨1, .insert, 1, offer "d" ""⟩, ?_, ?_⟩, hother, ?_⟩
      all_goals decide +kernel
  · obtain ⟨counts, s', hrun, hrec⟩ := (reconcile_effect "SP" listings 2).1 s hs
    have hresult : ((reconcile "SP" listings 2).run MemoryStore.repository s).result =
        .ok ⟨1, 2, 1, 1⟩ := by decide +kernel
    obtain rfl : counts = ⟨1, 2, 1, 1⟩ := Except.ok.inj (hrun.1.symm.trans hresult)
    exact ⟨s', hrun, hrec⟩
  · exact (reconcile_effect "SP" listings 2).2 ⟨⟨9⟩, []⟩ l hl rfl (by decide +kernel)

end OfferLedger
