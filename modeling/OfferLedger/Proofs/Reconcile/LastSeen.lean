import OfferLedger.Proofs.Concurrent.Basic
import OfferLedger.Proofs.Reconcile.Success
import OfferLedger.Proofs.Store.Marks

/-! # The run that has last seen an offer

A run that lists an offer marks it, whichever of its three writes the offer is in. In the ledger no
run that leaves it out does, so the mark is the batch of the latest run that has listed the offer.
In memory the run that removes an offer marks it too. -/
namespace OfferLedger

/-- What a run makes of the marks: those of the listed offers are the batch, and those of the offers
that it removes are as the store has them. -/
structure Marked (partition : PartitionKey) (listings : List Listing) (batch : BatchId)
    (removal : BatchId → Option BatchId → Option BatchId) (before : View) (marks marks' : Marks) :
    Prop where
  listed : ∀ id ∈ listings.map (·.sourceId), marks' id = some batch
  removed : ∀ id ∈ before.gone partition listings, marks' id = removal batch (marks id)
  others : ∀ id, id ∉ listings.map (·.sourceId) → id ∉ before.gone partition listings →
    marks' id = marks id

theorem Plan.mem_written_iff {v : View} {known : SourceId → Option Known} {listings : List Listing}
    (hknown : ∀ id, known id = (lastFor listings id).bind v.known?) (id : SourceId) :
    id ∈ (classify known (lastWins listings)).inserts.map (·.listing.sourceId) ++
        ((classify known (lastWins listings)).updates.map (·.listing.sourceId) ++
          (classify known (lastWins listings)).touches) ↔
      id ∈ listings.map (·.sourceId) := by
  have hlisted : ∀ l, lastFor listings id = some l → id ∈ listings.map (·.sourceId) := by
    intro l hl
    rw [← lastFor_isSome_iff, hl]
    rfl
  rw [List.mem_append, List.mem_append, mem_touches_iff hknown]
  constructor
  · rintro (hid | hid | ⟨l, hl, -⟩)
    · obtain ⟨e, he, rfl⟩ := List.mem_map.mp hid
      exact hlisted _ ((mem_inserts_iff hknown e).mp he).1
    · obtain ⟨e, he, rfl⟩ := List.mem_map.mp hid
      exact hlisted _ ((mem_updates_iff hknown e).mp he).1
    · exact hlisted l hl
  · intro hid
    obtain ⟨l, hl⟩ := Option.isSome_iff_exists.mp ((lastFor_isSome_iff _ _).mpr hid)
    obtain rfl := sourceId_of_lastFor hl
    by_cases hshows : v.Shows l
    · exact .inr (.inr ⟨l, hl, hshows⟩)
    · cases hr : v.latest? l.sourceId with
      | none =>
        have he := (mem_inserts_iff hknown ⟨l, 1, .insert⟩).mpr ⟨hl, hr, rfl⟩
        exact .inl (List.mem_map_of_mem (f := fun e : Entry => e.listing.sourceId) he)
      | some r =>
        have he := (mem_updates_iff hknown ⟨l, r.version + 1, .update⟩).mpr
          ⟨hl, hshows, r, hr, rfl⟩
        exact .inr (.inl (List.mem_map_of_mem (f := fun e : Entry => e.listing.sourceId) he))

section

variable {σ : Type} {answers : Answers σ} {view : σ → View} {Sound : σ → Prop} {marks : σ → Marks}
  {removal : BatchId → Option BatchId → Option BatchId}
  (M : Marking answers view Sound marks removal) {s s' : σ} (hs : Sound s) {batch : BatchId}
include M hs

theorem Marking.append_or_skip {entries : List Entry} (hlive : (Call.append entries batch).Live)
    (h : answers.Unless entries.isEmpty (.append entries batch) s s') :
    marks s' = (marks s).put batch (entries.map (·.listing.sourceId)) := by
  cases entries with
  | nil =>
    obtain rfl := h.1 rfl
    rfl
  | cons e rest =>
    obtain ⟨_, hans⟩ := h.2 rfl
    exact M.append hs hlive hans

theorem Marking.touch_or_skip {ids : List SourceId} (hknown : ∀ id ∈ ids, (view s).latest? id ≠ none)
    (h : answers.Unless ids.isEmpty (.touch ids batch) s s') : marks s' = (marks s).put batch ids := by
  cases ids with
  | nil =>
    obtain rfl := h.1 rfl
    rfl
  | cons id rest =>
    obtain ⟨_, hans⟩ := h.2 rfl
    exact M.touch hs hknown hans

theorem Marking.marked (E : Effective answers view Sound) {partition : PartitionKey}
    {listings : List Listing} {counts : Counts}
    (h : (reconcile partition listings batch).Ends answers s (.ok counts) s') :
    Marked partition listings batch removal (view s) (marks s) (marks s') := by
  obtain ⟨known, s₁, s₂, s₃, n, hknown, hstages, -⟩ := E.stages hs h
  have hv := E.consistent hs
  have hs₃ := hstages.sound₃
  -- What is touched is known by then, so that every store marks it.
  have htouches : ∀ id ∈ (Plan.classify (Keyed.get? known) (lastWins listings)).touches,
      (view s₂).latest? id ≠ none := by
    intro id hid
    obtain ⟨l, hl, -⟩ := (Plan.mem_touches_iff hknown id).mp hid
    obtain rfl := sourceId_of_lastFor hl
    have hshows := Plan.shows hknown hstages.history₂ hv (E.consistent hstages.sound₂) hl
    intro hnone
    have hlisting := hshows.2
    rw [hnone] at hlisting
    cases hlisting
  have hm₁ := M.append_or_skip hs (Plan.wellFormed_inserts hknown batch).live hstages.inserted
  have hm₂ := M.append_or_skip hstages.sound₁ (Plan.wellFormed_updates hknown hv batch).live
    hstages.updated
  have hm₃ := M.touch_or_skip hstages.sound₂ htouches hstages.touched
  rw [hm₂, hm₁, Marks.put_put, Marks.put_put] at hm₃
  -- Together the three writes mark exactly what is listed.
  have hmark : ∀ id, marks s₃ id =
      if id ∈ listings.map (·.sourceId) then some batch else marks s id := by
    intro id
    rw [hm₃, Marks.put]
    simp only [Plan.mem_written_iff hknown]
  have hgone := Plan.gone_eq hknown hstages.history₃ hv (E.consistent hs₃) partition
  have hkept : ∀ id, id ∉ (view s).gone partition listings → marks s' id = marks s₃ id := by
    intro id hid
    rw [← hgone, ← View.isSome_missing?_lastWins, Option.not_isSome_iff_eq_none] at hid
    exact M.kept hs₃ hstages.removed id hid
  constructor
  · intro id hid
    rw [hkept id fun hm => hm.1 hid, hmark, if_pos hid]
  · intro id hid
    have hmissing := hid
    rw [← hgone, ← View.isSome_missing?_lastWins] at hmissing
    rw [M.removed hs₃ hstages.removed id hmissing, hmark, if_neg hid.1]
  · intro id hid hnot
    rw [hkept id hnot, hmark, if_neg hid]

end

/-- Of some runs, the latest first, the latest one that has listed the offer. -/
def latestListing? (tasks : List Task) (id : SourceId) : Option Task :=
  tasks.find? fun t => id ∈ t.listings.map (·.sourceId)

section

variable {t : Task} {tasks : List Task} {id : SourceId}

theorem latestListing?_cons_of_mem (h : id ∈ t.listings.map (·.sourceId)) :
    latestListing? (t :: tasks) id = some t :=
  List.find?_cons_of_pos (by simpa using h)

theorem latestListing?_cons_of_notMem (h : id ∉ t.listings.map (·.sourceId)) :
    latestListing? (t :: tasks) id = latestListing? tasks id :=
  List.find?_cons_of_neg (by simpa using h)

end

namespace MemoryStore

inductive After : List Task → MemoryStore → Prop where
  | empty : After [] {}
  | run {tasks s s'} {t : Task} {counts : Counts} : After tasks s →
      t.program.Ends answers s (.ok counts) s' → After (t :: tasks) s'

theorem After.of_run {tasks : List Task} {s : MemoryStore} (h : After tasks s) {t : Task}
    {counts : Counts} (hrun : (t.program.run repository s).result = .ok counts) :
    After (t :: tasks) (t.program.run repository s).state := by
  have hends : t.program.Ends answers s (t.program.run repository s).result
      (t.program.run repository s).state := Program.ends_run (fun _ _ => .inl rfl) t.program s
  rw [hrun] at hends
  exact h.run hends

/-- What the mark of an offer is after some runs: that of an active offer is from the latest run
that has listed it, and that of an inactive one is from a run that has not. -/
structure Seen (tasks : List Task) (s : MemoryStore) (id : SourceId) : Prop where
  listed : s.latest? id ≠ none → (latestListing? tasks id).isSome
  active : s.isActive id = true → s.lastSeenBatch? id = (latestListing? tasks id).map (·.batch)
  inactive : s.latest? id ≠ none → s.isActive id = false →
    ∃ t ∈ tasks, id ∉ t.listings.map (·.sourceId) ∧ s.lastSeenBatch? id = some t.batch

section

variable {tasks : List Task} {s s' : MemoryStore} {t : Task} {id : SourceId}

theorem Seen.of_listed (hid : id ∈ t.listings.map (·.sourceId)) (hactive : s'.isActive id = true)
    (hmark : s'.lastSeenBatch? id = some t.batch) : Seen (t :: tasks) s' id := by
  have hlatest : latestListing? (t :: tasks) id = some t := latestListing?_cons_of_mem hid
  constructor
  · intro _
    rw [hlatest]
    rfl
  · intro _
    rw [hlatest, hmark]
    rfl
  · intro _ hinactive
    rw [hactive] at hinactive
    cases hinactive

theorem Seen.of_removed (h : Seen tasks s id) (hid : id ∉ t.listings.map (·.sourceId))
    (hknown : s.latest? id ≠ none) (hinactive : s'.isActive id = false)
    (hmark : s'.lastSeenBatch? id = some t.batch) : Seen (t :: tasks) s' id := by
  constructor
  · intro _
    rw [latestListing?_cons_of_notMem hid]
    exact h.listed hknown
  · intro hactive
    rw [hinactive] at hactive
    cases hactive
  · intro _ _
    exact ⟨t, List.mem_cons_self .., hid, hmark⟩

theorem Seen.of_same (h : Seen tasks s id) (hid : id ∉ t.listings.map (·.sourceId))
    (hlatest : s'.latest? id = s.latest? id) (hmark : s'.lastSeenBatch? id = s.lastSeenBatch? id) :
    Seen (t :: tasks) s' id := by
  have hactive : s'.isActive id = s.isActive id := by rw [isActive, isActive, hlatest]
  constructor
  · rw [hlatest, latestListing?_cons_of_notMem hid]
    exact h.listed
  · rw [hactive, hmark, latestListing?_cons_of_notMem hid]
    exact h.active
  · rw [hlatest, hactive, hmark]
    intro hknown hinactive
    obtain ⟨t', ht', hrest⟩ := h.inactive hknown hinactive
    exact ⟨t', List.mem_cons_of_mem _ ht', hrest⟩

theorem Seen.run {counts : Counts} (hs : s.Sound) (h : Seen tasks s id)
    (hrun : t.program.Ends answers s (.ok counts) s') : Seen (t :: tasks) s' id := by
  have hrec := (effective.reconciled hs hrun).2
  have hmarked := marking.marked hs effective hrun
  by_cases hid : id ∈ t.listings.map (·.sourceId)
  · exact Seen.of_listed hid (hrec.isActive_of_listed hid) (hmarked.listed id hid)
  · by_cases hgone : id ∈ s.view.gone t.partition t.listings
    · have ⟨_, _, r, hr, _⟩ := hgone
      have hknown : s.latest? id ≠ none := fun hnone => by
        rw [show s.latest? id = some r from hr] at hnone
        cases hnone
      exact h.of_removed hid hknown (hrec.isActive_of_gone hgone) (hmarked.removed id hgone)
    · have hhistory := (hrec.others id hid hgone).1
      exact h.of_same hid (congrArg List.getLast? hhistory) (hmarked.others id hid hgone)

theorem After.seen (h : After tasks s) : s.Sound ∧ ∀ id, Seen tasks s id := by
  induction h with
  | empty => exact ⟨sound_empty, fun _ => ⟨fun h => absurd rfl h, fun h => Bool.noConfusion h,
      fun h => absurd rfl h⟩⟩
  | run _ hrun ih =>
    obtain ⟨hs, hseen⟩ := ih
    exact ⟨(effective.reconciled hs hrun).1, fun id => (hseen id).run hs hrun⟩

theorem Seen.mark_iff (h : Seen tasks s id) (hd : (tasks.map (·.batch)).Nodup)
    (hknown : s.latest? id ≠ none) :
    ∃ t, latestListing? tasks id = some t ∧
      (s.lastSeenBatch? id = some t.batch ↔ s.isActive id = true) := by
  obtain ⟨t, ht⟩ := Option.isSome_iff_exists.mp (h.listed hknown)
  refine ⟨t, ht, ?_⟩
  constructor
  · intro hmark
    by_contra hid
    obtain ⟨t', ht', hnot, hmark'⟩ := h.inactive hknown (by simpa using hid)
    -- Runs with one batch are the same, but only one of these lists the offer.
    have hbatch : t.batch = t'.batch := Option.some.inj (hmark.symm.trans hmark')
    have heq := List.inj_on_of_nodup_map hd (List.mem_of_find?_eq_some ht) ht' hbatch
    have hlisted := List.find?_some ht
    rw [heq] at hlisted
    exact hnot (by simpa using hlisted)
  · intro hid
    rw [h.active hid, ht]
    rfl

end

end MemoryStore

namespace Ledger

/-- A new ledger after runs that have succeeded, the latest first, with batches opened and closed in
between. -/
inductive After : List Task → Ledger → Prop where
  | empty : After [] Ledger.empty
  | run {tasks l l'} {t : Task} {counts : Counts} : After tasks l →
      t.program.Ends answers l (.ok counts) l' → After (t :: tasks) l'
  | startBatch {tasks l l'} {c : Conditions} {partition : PartitionKey} {digest : Option String}
      {batch : BatchId} : After tasks l → l.startBatch c partition digest = .ok (batch, l') →
      After tasks l'
  | finishBatch {tasks l l'} {c : Conditions} {batch : BatchId} {listingsSeen : Nat}
      {outcome : BatchOutcome} : After tasks l →
      l.finishBatch c batch listingsSeen outcome = .ok l' → After tasks l'

theorem After.of_run {tasks : List Task} {l : Ledger} (h : After tasks l) {t : Task}
    (c : Conditions) {counts : Counts} (hrun : (t.program.run (repository c) l).result = .ok counts) :
    After (t :: tasks) (t.program.run (repository c) l).state := by
  have hends := ends_repository c t.program l
  rw [hrun] at hends
  exact h.run hends

theorem After.seen {tasks : List Task} {l : Ledger} (h : After tasks l) :
    l.Sound ∧ ∀ id, l.marks id = (latestListing? tasks id).map (·.batch) := by
  induction h with
  | empty => exact ⟨sound_empty, fun _ => rfl⟩
  | @run tasks l l' t counts _ hrun ih =>
    obtain ⟨hs, hmarks⟩ := ih
    have hmarked := marking.marked hs effective hrun
    refine ⟨(effective.reconciled hs hrun).1, fun id => ?_⟩
    by_cases hlisted : id ∈ t.listings.map (·.sourceId)
    · rw [hmarked.listed id hlisted, latestListing?_cons_of_mem hlisted]
      rfl
    · rw [latestListing?_cons_of_notMem hlisted, ← hmarks]
      by_cases hgone : id ∈ l.view.gone t.partition t.listings
      · exact hmarked.removed id hgone
      · exact hmarked.others id hlisted hgone
  | startBatch _ h ih =>
    obtain ⟨-, rfl⟩ := startBatch_eq_ok h
    exact ⟨ih.1.withBatches _, ih.2⟩
  | finishBatch _ h ih =>
    obtain rfl := finishBatch_eq_ok h
    exact ⟨ih.1.withBatches _, ih.2⟩

end Ledger

/-- After runs that have succeeded in batches of their own, a head has the batch of the latest run
that has listed its offer. In memory that is the mark of the active offers and of no other known
one, so the two stores agree on exactly those. -/
theorem lastSeen_of_runs (tasks : List Task) (hd : (tasks.map (·.batch)).Nodup) :
    (∀ s, MemoryStore.After tasks s → ∀ id, s.latest? id ≠ none →
      ∃ t, latestListing? tasks id = some t ∧
        (s.lastSeenBatch? id = some t.batch ↔ s.isActive id = true)) ∧
    (∀ l, Ledger.After tasks l → ∀ id,
      (l.head? id).map (·.lastSeenBatch) = (latestListing? tasks id).map (·.batch)) ∧
    ∀ s l, MemoryStore.After tasks s → Ledger.After tasks l → ∀ id, s.latest? id ≠ none →
      (s.lastSeenBatch? id = (l.head? id).map (·.lastSeenBatch) ↔ s.isActive id = true) := by
  refine ⟨fun s hs id hknown => (hs.seen.2 id).mark_iff hd hknown, fun l hl id => hl.seen.2 id, ?_⟩
  intro s l hs hl id hknown
  obtain ⟨t, ht, hmark⟩ := (hs.seen.2 id).mark_iff hd hknown
  have hhead : (l.head? id).map (·.lastSeenBatch) = some t.batch := by
    have h := hl.seen.2 id
    rw [ht] at h
    exact h
  rw [hhead]
  exact hmark

/-- The second run lists one offer of two, and the other one is removed. -/
theorem lastSeen_of_two_runs :
    let first : Task := ⟨"SP", [{ sourceId := "a", uf := "SP" }, { sourceId := "b", uf := "SP" }], 1⟩
    let second : Task := ⟨"SP", [{ sourceId := "b", uf := "SP" }], 2⟩
    let s := (first.program.run MemoryStore.repository {}).state
    let s' := (second.program.run MemoryStore.repository s).state
    let l := (first.program.run (Ledger.repository ⟨⟨5⟩, []⟩)
      ⟨[⟨1, "SP", none, ⟨0⟩, none⟩, ⟨2, "SP", none, ⟨0⟩, none⟩], [], []⟩).state
    let l' := (second.program.run (Ledger.repository ⟨⟨9⟩, []⟩) l).state
    (l'.head? "a").map (·.lastSeenBatch) = some 1 ∧ (l'.head? "b").map (·.lastSeenBatch) = some 2 ∧
      s'.lastSeenBatch? "a" ≠ (l'.head? "a").map (·.lastSeenBatch) ∧
      s'.lastSeenBatch? "b" = (l'.head? "b").map (·.lastSeenBatch) := by
  intro first second s s' l l'
  have hrun : (first.program.run MemoryStore.repository {}).result = .ok ⟨2, 0, 0, 0⟩ := by
    decide +kernel
  have hrun' : (second.program.run MemoryStore.repository s).result = .ok ⟨0, 0, 1, 1⟩ := by
    decide +kernel
  have hs' : MemoryStore.After [second, first] s' := (MemoryStore.After.empty.of_run hrun).of_run hrun'
  have hopen : Ledger.After [] ⟨[⟨1, "SP", none, ⟨0⟩, none⟩], [], []⟩ :=
    .startBatch (c := ⟨⟨0⟩, []⟩) .empty rfl
  have hopen' : Ledger.After []
      ⟨[⟨1, "SP", none, ⟨0⟩, none⟩, ⟨2, "SP", none, ⟨0⟩, none⟩], [], []⟩ :=
    .startBatch (c := ⟨⟨0⟩, []⟩) hopen rfl
  have hkept : (first.program.run (Ledger.repository ⟨⟨5⟩, []⟩)
      ⟨[⟨1, "SP", none, ⟨0⟩, none⟩, ⟨2, "SP", none, ⟨0⟩, none⟩], [], []⟩).result =
      .ok ⟨2, 0, 0, 0⟩ := by decide +kernel
  have hkept' : (second.program.run (Ledger.repository ⟨⟨9⟩, []⟩) l).result = .ok ⟨0, 0, 1, 1⟩ := by
    decide +kernel
  have hl' : Ledger.After [second, first] l' := (hopen'.of_run _ hkept).of_run _ hkept'
  obtain ⟨-, hheads, hagree⟩ := lastSeen_of_runs [second, first] (by decide)
  refine ⟨hheads l' hl' "a", hheads l' hl' "b", ?_, ?_⟩
  · intro hsame
    have hactive := (hagree s' l' hs' hl' "a" (by decide +kernel)).mp hsame
    exact absurd hactive (by decide +kernel)
  · exact (hagree s' l' hs' hl' "b" (by decide +kernel)).mpr (by decide +kernel)

/-- In memory a removal moves the mark of its offer to a batch that has not listed it. -/
theorem removal_marked_in_memory :
    let first : Task := ⟨"SP", [{ sourceId := "a", uf := "SP" }], 1⟩
    let second : Task := ⟨"SP", [], 2⟩
    let held := first.program.run MemoryStore.repository {}
    let held' := second.program.run MemoryStore.repository held.state
    let kept := first.program.run (Ledger.repository ⟨⟨5⟩, []⟩)
      ⟨[⟨1, "SP", none, ⟨0⟩, none⟩, ⟨2, "SP", none, ⟨0⟩, none⟩], [], []⟩
    let kept' := second.program.run (Ledger.repository ⟨⟨9⟩, []⟩) kept.state
    held.result = .ok ⟨1, 0, 0, 0⟩ ∧ held'.result = .ok ⟨0, 0, 0, 1⟩ ∧
      kept.result = .ok ⟨1, 0, 0, 0⟩ ∧ kept'.result = .ok ⟨0, 0, 0, 1⟩ ∧
      (latestListing? [second, first] "a").map (·.batch) = some 1 ∧
      held'.state.lastSeenBatch? "a" = some 2 ∧
      (kept'.state.head? "a").map (·.lastSeenBatch) = some 1 := by
  decide +kernel

end OfferLedger
