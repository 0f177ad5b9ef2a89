import OfferLedger.Proofs.Reconcile.Due

/-! # Running again after a failure

A run that was stopped leaves a store on which some of what was due is made. What is due then is the rest
of it, whichever call has failed, so a second run ends where an uninterrupted one would have ended. -/
namespace OfferLedger

/-- What a revision says apart from the batch it was made in. -/
def Revision.entry (r : Revision) : Entry := ⟨r.listing, r.version, r.operation⟩

/-- A store that was left half way and reconciled again shows what an uninterrupted run shows, and has
kept what was made the first time. -/
structure Resumed (stopped whole resumed : View) : Prop where
  entries : ∀ id, (resumed.history id).map Revision.entry = (whole.history id).map Revision.entry
  isActive : ∀ id, resumed.isActive id = whole.isActive id
  kept : ∀ id, stopped.history id <+: resumed.history id

theorem View.Consistent.isActive_of_entries {v w : View} (hv : v.Consistent) (hw : w.Consistent)
    {id : SourceId}
    (h : (v.history id).map Revision.entry = (w.history id).map Revision.entry) :
    v.isActive id = w.isActive id := by
  have hlast : ∀ u : View, (u.latest? id).any (fun r => !r.isDelete) =
      ((u.history id).map Revision.entry).getLast?.any fun e => !decide (e.operation = .delete) := by
    intro u
    rw [List.getLast?_map, Option.any_map]
    rfl
  rw [hv.isActive, hw.isActive, hlast, hlast, h]

section

variable {partition : PartitionKey} {listings : List Listing} {batch first again : BatchId}
  {before now once twice : View} {counts counts' : Counts}

/-- For each offer either all that was due is made, or all of it is still due. -/
theorem Partway.entries (h : Partway partition listings batch before now)
    (hb : before.Consistent) (hn : now.Consistent)
    (honce : Reconciled partition listings first before once counts)
    (htwice : Reconciled partition listings again now twice counts') (id : SourceId) :
    (twice.history id).map Revision.entry = (once.history id).map Revision.entry := by
  rw [htwice.history_eq, honce.history_eq]
  rcases h id with hsame | ⟨e, he, hmade⟩
  · rw [hn.due?_congr hb hsame, hsame]
    cases before.due? partition listings id <;> simp [Revision.entry, Entry.revision]
  · rw [hn.due?_of_made he hb hmade, he, hmade]
    simp [Revision.entry, Entry.revision]

theorem Partway.resumed (h : Partway partition listings batch before now)
    (hb : before.Consistent) (hn : now.Consistent) (ho : once.Consistent) (ht : twice.Consistent)
    (honce : Reconciled partition listings first before once counts)
    (htwice : Reconciled partition listings again now twice counts') :
    Resumed now once twice := by
  have hentries := h.entries hb hn honce htwice
  refine ⟨hentries, fun id => ht.isActive_of_entries ho (hentries id), fun id => ?_⟩
  rw [htwice.history_eq]
  exact List.prefix_append _ _

end

theorem Store.sound_of_returns {σ : Type} (S : Store σ) {s s' : σ} (hs : S.Sound s)
    {partition : PartitionKey} {listings : List Listing} {batch : BatchId} {counts : Counts}
    (h : (OfferLedger.reconcile partition listings batch).Returns S.repository s counts s') :
    S.Sound s' := by
  have hcall : ∀ c s, Call.Live c → S.Sound s → S.Sound (S.repository c s).2 :=
    fun _ _ hc hs => (S.call hs hc).1
  rw [← h.2]
  exact (calls_reconcile partition listings batch).run hcall hs

theorem Store.reconcile_sound {σ : Type} (S : Store σ) {s : σ} {batch : BatchId} (hs : S.Sound s)
    (hb : S.HasBatch s batch) (partition : PartitionKey) (listings : List Listing) :
    ∃ counts s',
      (OfferLedger.reconcile partition listings batch).Returns S.repository s counts s' ∧
      S.Sound s' ∧ Reconciled partition listings batch (S.view s) (S.view s') counts := by
  obtain ⟨counts, s', hrun, hrec⟩ := S.reconcile hs hb partition listings
  exact ⟨counts, s', hrun, S.sound_of_returns hs hrun, hrec⟩

/-- However a run has ended whose calls answered or failed without effect, a second run without a failure
returns, and so does a run without a failure from where the first one began. For every offer they leave
the same history, apart from batches and times, and the same activity. Batches can have been opened and
closed in the ledger before the second run. -/
theorem resumed_after_failure (partition : PartitionKey) (listings : List Listing)
    (batch : BatchId) :
    (∀ s : MemoryStore, s.Reachable → ∀ result s',
      (reconcile partition listings batch).Ends MemoryStore.answers s result s' →
      ∀ again, ∃ counts whole counts' resumed,
        (reconcile partition listings batch).Returns MemoryStore.repository s counts whole ∧
        (reconcile partition listings again).Returns MemoryStore.repository s' counts' resumed ∧
        Resumed s'.view whole.view resumed.view) ∧
    ∀ l : Ledger, l.Reachable → l.hasBatch batch = true → ∀ result l',
      (reconcile partition listings batch).Ends Ledger.answers l result l' →
      ∀ batches again, Ledger.hasBatch { l' with batches := batches } again = true →
      ∀ c c' : Conditions, c.faults = [] → c'.faults = [] → ∃ counts whole counts' resumed,
        (reconcile partition listings batch).Returns (Ledger.repository c) l counts whole ∧
        (reconcile partition listings again).Returns (Ledger.repository c')
          { l' with batches := batches } counts' resumed ∧
        Resumed l'.view whole.view resumed.view := by
  constructor
  · intro s hs result s' hends again
    have hopen : ∀ s batch, MemoryStore.store.HasBatch s batch := fun _ _ => trivial
    obtain ⟨hs', hpart⟩ := MemoryStore.faithful.partway hs.sound hends
    obtain ⟨counts, whole, hrun, hwhole⟩ :=
      MemoryStore.store.reconcile hs.sound (hopen s batch) partition listings
    obtain ⟨counts', resumed, hrun', hresumed⟩ :=
      MemoryStore.store.reconcile hs' (hopen s' again) partition listings
    have hw := MemoryStore.store.sound_of_returns hs.sound hrun
    have hr := MemoryStore.store.sound_of_returns hs' hrun'
    exact ⟨counts, whole, counts', resumed, hrun, hrun',
      hpart.resumed hs.sound.consistent hs'.consistent hw.consistent hr.consistent hwhole hresumed⟩
  · rintro l hl hb result l' hends batches again hagain ⟨now, faults⟩ ⟨now', faults'⟩ rfl rfl
    obtain ⟨hs', hpart⟩ := Ledger.faithful.partway hl.sound hends
    have hs'' := hs'.withBatches batches
    obtain ⟨counts, whole, hrun, hwhole⟩ :=
      (Ledger.store now).reconcile hl.sound hb partition listings
    obtain ⟨counts', resumed, hrun', hresumed⟩ :=
      (Ledger.store now').reconcile hs'' hagain partition listings
    have hw := (Ledger.store now).sound_of_returns hl.sound hrun
    have hr := (Ledger.store now').sound_of_returns hs'' hrun'
    exact ⟨counts, whole, counts', resumed, hrun, hrun',
      hpart.resumed hl.sound.consistent hs'.consistent hw.consistent hr.consistent hwhole hresumed⟩

/-- A run that has inserted an offer and could not remove the other one, in both stores. The ledger is
reconciled again in a batch of its own. -/
theorem resumed_after_failed_removal :
    let s : MemoryStore := ((reconcile "SP" [{ sourceId := "a", uf := "SP" }] 1).run
      MemoryStore.repository {}).state
    let s' := ((reconcile "SP" [{ sourceId := "b", uf := "SP" }] 2).run
      (MemoryStore.repository.refusing .delete) s).state
    let l : Ledger := ((reconcile "SP" [{ sourceId := "a", uf := "SP" }] 1).run
      (Ledger.repository ⟨⟨5⟩, []⟩) ⟨[⟨1, "SP", none, ⟨0⟩, none⟩], [], []⟩).state
    let l' := ((reconcile "SP" [{ sourceId := "b", uf := "SP" }] 1).run
      (Ledger.repository ⟨⟨9⟩, [.deletes]⟩) l).state
    (∃ counts whole counts' resumed,
      (reconcile "SP" [{ sourceId := "b", uf := "SP" }] 2).Returns
        MemoryStore.repository s counts whole ∧
      (reconcile "SP" [{ sourceId := "b", uf := "SP" }] 3).Returns
        MemoryStore.repository s' counts' resumed ∧
      Resumed s'.view whole.view resumed.view) ∧
    ∃ counts whole counts' resumed,
      (reconcile "SP" [{ sourceId := "b", uf := "SP" }] 1).Returns
        (Ledger.repository ⟨⟨9⟩, []⟩) l counts whole ∧
      (reconcile "SP" [{ sourceId := "b", uf := "SP" }] 2).Returns
        (Ledger.repository ⟨⟨11⟩, []⟩)
        { l' with batches := l'.batches ++ [⟨2, "SP", none, ⟨10⟩, none⟩] } counts' resumed ∧
      Resumed l'.view whole.view resumed.view := by
  intro s s' l l'
  have hs : s.Reachable := MemoryStore.Reachable.empty.reconcile _ _ _
  have hopen : Ledger.Reachable ⟨[⟨1, "SP", none, ⟨0⟩, none⟩], [], []⟩ :=
    .startBatch (c := ⟨⟨0⟩, []⟩) .empty rfl
  have hl : l.Reachable := hopen.reconcile _ _ _ _
  exact ⟨(resumed_after_failure "SP" [{ sourceId := "b", uf := "SP" }] 2).1 s hs _ s'
      (Program.ends_run (MemoryStore.repository.orFails_refusing .delete) _ _) 3,
    (resumed_after_failure "SP" [{ sourceId := "b", uf := "SP" }] 1).2 l hl (by decide +kernel) _ l'
      (Program.ends_run (fun _ _ => ⟨_, .inl rfl⟩) _ _) _ 2 (by decide +kernel)
      ⟨⟨9⟩, []⟩ ⟨⟨11⟩, []⟩ rfl rfl⟩

end OfferLedger
