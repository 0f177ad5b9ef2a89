import OfferLedger.Proofs.Reconcile.Resume

/-! # The order of two regions

What is shown after a reconciliation is the batch, with what was shown of other offers in other
regions. So two regions can be reconciled in either order if no offer is listed in both. An offer
that moves from one to the other is updated in the one order, and is removed and brought back in the
other one. -/
namespace OfferLedger

def View.shown (v : View) : Set Listing := {l | v.Shows l}

section

variable {partition other : PartitionKey} {listings a b : List Listing} {batch batch' : BatchId}
  {before mid after : View} {counts counts' : Counts}

theorem Reconciled.mem_shown_iff (h : Reconciled partition listings batch before after counts)
    (l : Listing) :
    l ∈ after.shown ↔ lastFor listings l.sourceId = some l ∨
      (l.sourceId ∉ listings.map (·.sourceId) ∧ l ∈ before.shown ∧ l.uf ≠ partition) := by
  change after.Shows l ↔ _ ∨ (_ ∧ before.Shows l ∧ _)
  cases hl : lastFor listings l.sourceId with
  | some l' =>
    have hshows := h.shown _ _ hl
    have hid : l.sourceId ∈ listings.map (·.sourceId) := by
      rw [← lastFor_isSome_iff, hl]
      rfl
    constructor
    · intro hafter
      exact .inl (congrArg some (hshows.eq_of_sourceId hafter (sourceId_of_lastFor hl)))
    · rintro (heq | ⟨hnot, -⟩)
      · rwa [Option.some.inj heq] at hshows
      · exact absurd hid hnot
  | none =>
    have hid := (lastFor_eq_none_iff listings l.sourceId).mp hl
    by_cases hgone : l.sourceId ∈ before.gone partition listings
    · have ⟨_, _, r, hr, huf⟩ := hgone
      constructor
      · rintro ⟨hactive, -⟩
        rw [h.isActive_of_gone hgone] at hactive
        cases hactive
      · rintro (heq | ⟨-, hshows, hne⟩)
        · cases heq
        · have hlisting := hshows.2
          rw [hr] at hlisting
          rw [← Option.some.inj hlisting] at hne
          exact absurd huf hne
    · obtain ⟨hhistory, hactive⟩ := h.others _ hid hgone
      have hsame : after.Shows l ↔ before.Shows l := by
        rw [View.Shows, View.Shows, hactive, View.latest?, View.latest?, hhistory]
      rw [hsame]
      constructor
      · intro hshows
        refine .inr ⟨hid, hshows, fun huf => hgone ?_⟩
        obtain ⟨r, hr, rfl⟩ := Option.map_eq_some_iff.mp hshows.2
        exact ⟨hid, hshows.1, r, hr, huf⟩
      · rintro (heq | ⟨-, hshows, -⟩)
        · cases heq
        · exact hshows

/-- After two regions both batches are shown, with what was shown of other offers in other regions.
-/
theorem Reconciled.mem_shown_iff_of_two (hne : partition ≠ other) (ha : ∀ l ∈ a, l.uf = partition)
    (hd : (a.map (·.sourceId)).Disjoint (b.map (·.sourceId)))
    (h : Reconciled partition a batch before mid counts)
    (h' : Reconciled other b batch' mid after counts') (l : Listing) :
    l ∈ after.shown ↔ (lastFor a l.sourceId = some l ∨ lastFor b l.sourceId = some l) ∨
      (l.sourceId ∉ a.map (·.sourceId) ∧ l.sourceId ∉ b.map (·.sourceId)) ∧ l ∈ before.shown ∧
        l.uf ≠ partition ∧ l.uf ≠ other := by
  rw [h'.mem_shown_iff, h.mem_shown_iff]
  constructor
  · rintro (hb | ⟨hb, hl | ⟨hl, hshown, hp⟩, hq⟩)
    · exact .inl (.inr hb)
    · exact .inl (.inl hl)
    · exact .inr ⟨⟨hl, hb⟩, hshown, hp, hq⟩
  · rintro ((hl | hb) | ⟨⟨hl, hb⟩, hshown, hp, hq⟩)
    · -- What the first batch lists is neither listed by the second one nor in its region.
      have huf := ha l (mem_of_lastFor hl)
      have hid : l.sourceId ∈ a.map (·.sourceId) := List.mem_map_of_mem (mem_of_lastFor hl)
      exact .inr ⟨fun hb => hd hid hb, .inl hl, huf ▸ hne⟩
    · exact .inl hb
    · exact .inr ⟨hb, .inr ⟨hl, hshown, hp⟩, hq⟩

theorem Reconciled.shown_comm {mid' after' : View} {i j i' j' : BatchId}
    {counts₁ counts₂ counts₁' counts₂' : Counts} (hne : partition ≠ other)
    (ha : ∀ l ∈ a, l.uf = partition) (hb : ∀ l ∈ b, l.uf = other)
    (hd : (a.map (·.sourceId)).Disjoint (b.map (·.sourceId)))
    (h₁ : Reconciled partition a i before mid counts₁)
    (h₂ : Reconciled other b j mid after counts₂)
    (h₁' : Reconciled other b i' before mid' counts₁')
    (h₂' : Reconciled partition a j' mid' after' counts₂') : after.shown = after'.shown := by
  ext l
  rw [h₁.mem_shown_iff_of_two hne ha hd h₂, h₁'.mem_shown_iff_of_two hne.symm hb hd.symm h₂']
  rw [or_comm (a := lastFor a l.sourceId = some l), and_comm (a := l.sourceId ∉ a.map (·.sourceId)),
    and_comm (a := l.uf ≠ partition)]

end

/-- Two regions whose batches list different offers can be reconciled in either order: every run
returns, and the same offers are active in the end, with the same listings. Batches can have been
opened and closed in the ledger between the two runs of an order. -/
theorem reconcile_regions_comm (partition other : PartitionKey) (a b : List Listing)
    (hne : partition ≠ other) (ha : ∀ l ∈ a, l.uf = partition) (hb : ∀ l ∈ b, l.uf = other)
    (hd : (a.map (·.sourceId)).Disjoint (b.map (·.sourceId))) :
    (∀ s : MemoryStore, s.Reachable → ∀ i j i' j', ∃ counts₁ s₁ counts₂ s₂ counts₁' s₁' counts₂' s₂',
      (reconcile partition a i).Returns MemoryStore.repository s counts₁ s₁ ∧
      (reconcile other b j).Returns MemoryStore.repository s₁ counts₂ s₂ ∧
      (reconcile other b i').Returns MemoryStore.repository s counts₁' s₁' ∧
      (reconcile partition a j').Returns MemoryStore.repository s₁' counts₂' s₂' ∧
      s₂.view.shown = s₂'.view.shown) ∧
    ∀ l : Ledger, l.Reachable → ∀ i i', l.hasBatch i = true → l.hasBatch i' = true →
      ∀ c d c' d' : Conditions, c.faults = [] → d.faults = [] → c'.faults = [] → d'.faults = [] →
      ∃ counts₁ l₁ counts₁' l₁',
        (reconcile partition a i).Returns (Ledger.repository c) l counts₁ l₁ ∧
        (reconcile other b i').Returns (Ledger.repository c') l counts₁' l₁' ∧
        ∀ batches j, Ledger.hasBatch { l₁ with batches := batches } j = true →
        ∀ batches' j', Ledger.hasBatch { l₁' with batches := batches' } j' = true →
        ∃ counts₂ l₂ counts₂' l₂',
          (reconcile other b j).Returns (Ledger.repository d)
            { l₁ with batches := batches } counts₂ l₂ ∧
          (reconcile partition a j').Returns (Ledger.repository d')
            { l₁' with batches := batches' } counts₂' l₂' ∧
          l₂.view.shown = l₂'.view.shown := by
  constructor
  · intro s hs i j i' j'
    have hopen : ∀ s batch, MemoryStore.store.HasBatch s batch := fun _ _ => trivial
    obtain ⟨counts₁, s₁, hrun₁, hs₁, h₁⟩ :=
      MemoryStore.store.reconcile_sound hs.sound (hopen s i) partition a
    obtain ⟨counts₂, s₂, hrun₂, -, h₂⟩ :=
      MemoryStore.store.reconcile_sound hs₁ (hopen s₁ j) other b
    obtain ⟨counts₁', s₁', hrun₁', hs₁', h₁'⟩ :=
      MemoryStore.store.reconcile_sound hs.sound (hopen s i') other b
    obtain ⟨counts₂', s₂', hrun₂', -, h₂'⟩ :=
      MemoryStore.store.reconcile_sound hs₁' (hopen s₁' j') partition a
    exact ⟨counts₁, s₁, counts₂, s₂, counts₁', s₁', counts₂', s₂', hrun₁, hrun₂, hrun₁', hrun₂',
      h₁.shown_comm hne ha hb hd h₂ h₁' h₂'⟩
  · rintro l hl i i' hi hi' ⟨now, faults⟩ ⟨later, faults₁⟩ ⟨now', faults₂⟩ ⟨later', faults₃⟩
      rfl rfl rfl rfl
    obtain ⟨counts₁, l₁, hrun₁, hs₁, h₁⟩ :=
      (Ledger.store now).reconcile_sound hl.sound hi partition a
    obtain ⟨counts₁', l₁', hrun₁', hs₁', h₁'⟩ :=
      (Ledger.store now').reconcile_sound hl.sound hi' other b
    refine ⟨counts₁, l₁, counts₁', l₁', hrun₁, hrun₁', fun batches j hj batches' j' hj' => ?_⟩
    obtain ⟨counts₂, l₂, hrun₂, -, h₂⟩ :=
      (Ledger.store later).reconcile_sound (Ledger.Sound.withBatches hs₁ batches) hj other b
    obtain ⟨counts₂', l₂', hrun₂', -, h₂'⟩ :=
      (Ledger.store later').reconcile_sound (Ledger.Sound.withBatches hs₁' batches') hj' partition a
    exact ⟨counts₂, l₂, counts₂', l₂', hrun₂, hrun₂', h₁.shown_comm hne ha hb hd h₂ h₁' h₂'⟩

/-- An offer moves from each region to the other, and one is in neither batch. -/
theorem reconcile_regions_comm_of_moved :
    let s : MemoryStore := ((reconcile "SP" [{ sourceId := "m", uf := "SP" },
      { sourceId := "n", uf := "RJ" }, { sourceId := "x", uf := "SP" }] 1).run
      MemoryStore.repository {}).state
    let l : Ledger := ((reconcile "SP" [{ sourceId := "m", uf := "SP" },
      { sourceId := "n", uf := "RJ" }, { sourceId := "x", uf := "SP" }] 1).run
      (Ledger.repository ⟨⟨5⟩, []⟩) ⟨[⟨1, "SP", none, ⟨0⟩, none⟩], [], []⟩).state
    let a : List Listing := [{ sourceId := "n", uf := "SP" }]
    let b : List Listing := [{ sourceId := "m", uf := "RJ" }]
    (∃ counts₁ s₁ counts₂ s₂ counts₁' s₁' counts₂' s₂',
      (reconcile "SP" a 2).Returns MemoryStore.repository s counts₁ s₁ ∧
      (reconcile "RJ" b 3).Returns MemoryStore.repository s₁ counts₂ s₂ ∧
      (reconcile "RJ" b 2).Returns MemoryStore.repository s counts₁' s₁' ∧
      (reconcile "SP" a 3).Returns MemoryStore.repository s₁' counts₂' s₂' ∧
      s₂.view.shown = s₂'.view.shown) ∧
    ∃ counts₁ l₁ counts₁' l₁' counts₂ l₂ counts₂' l₂',
      (reconcile "SP" a 1).Returns (Ledger.repository ⟨⟨6⟩, []⟩) l counts₁ l₁ ∧
      (reconcile "RJ" b 1).Returns (Ledger.repository ⟨⟨6⟩, []⟩) l counts₁' l₁' ∧
      (reconcile "RJ" b 2).Returns (Ledger.repository ⟨⟨8⟩, []⟩)
        { l₁ with batches := l₁.batches ++ [⟨2, "RJ", none, ⟨7⟩, none⟩] } counts₂ l₂ ∧
      (reconcile "SP" a 2).Returns (Ledger.repository ⟨⟨8⟩, []⟩)
        { l₁' with batches := l₁'.batches ++ [⟨2, "SP", none, ⟨7⟩, none⟩] } counts₂' l₂' ∧
      l₂.view.shown = l₂'.view.shown := by
  intro s l a b
  have hs : s.Reachable := MemoryStore.Reachable.empty.reconcile _ _ _
  have hopen : Ledger.Reachable ⟨[⟨1, "SP", none, ⟨0⟩, none⟩], [], []⟩ :=
    .startBatch (c := ⟨⟨0⟩, []⟩) .empty rfl
  have hl : l.Reachable := hopen.reconcile _ _ _ _
  have hb : l.hasBatch 1 = true := by decide +kernel
  have hcomm := reconcile_regions_comm "SP" "RJ" a b (by decide) (by simp [a]) (by simp [b])
    (by simp [a, b])
  obtain ⟨counts₁, l₁, counts₁', l₁', hrun₁, hrun₁', hrest⟩ :=
    hcomm.2 l hl 1 1 hb hb ⟨⟨6⟩, []⟩ ⟨⟨8⟩, []⟩ ⟨⟨6⟩, []⟩ ⟨⟨8⟩, []⟩ rfl rfl rfl rfl
  obtain ⟨counts₂, l₂, counts₂', l₂', h⟩ :=
    hrest (l₁.batches ++ [⟨2, "RJ", none, ⟨7⟩, none⟩]) 2 (by simp [Ledger.hasBatch])
      (l₁'.batches ++ [⟨2, "SP", none, ⟨7⟩, none⟩]) 2 (by simp [Ledger.hasBatch])
  exact ⟨hcomm.1 s hs 2 3 2 3, counts₁, l₁, counts₁', l₁', counts₂, l₂, counts₂', l₂', hrun₁, hrun₁', h⟩

end OfferLedger
