import OfferLedger.Ingest
import OfferLedger.Proofs.Ledger.Frame
import OfferLedger.Proofs.Ledger.Heads
import OfferLedger.Proofs.Reconcile.Success

/-! # One group after another

A group that was taken to its end had its batch opened, was reconciled as if nothing were wrong with the
ledger, and had its batch closed. Nothing keeps a group from being taken but a fault. -/
namespace OfferLedger.Ledger

variable {l l' : Ledger} {c : Conditions} {digest : Option String}

theorem hasBatch_startBatch {partition : PartitionKey} {batch : BatchId}
    (h : l.startBatch c partition digest = .ok (batch, l')) : l'.hasBatch batch = true := by
  obtain ⟨-, rfl⟩ := startBatch_eq_ok h
  simp [hasBatch]

theorem exists_startBatch (hc : c.faults = []) (l : Ledger) (partition : PartitionKey)
    (digest : Option String) : ∃ batch l', l.startBatch c partition digest = .ok (batch, l') := by
  rw [startBatch, hc]
  exact ⟨_, _, rfl⟩

theorem exists_finishBatch (hc : Fault.batchClose ∉ c.faults) (l : Ledger) (batch : BatchId)
    (listingsSeen : Nat) (outcome : BatchOutcome) :
    ∃ l', l.finishBatch c batch listingsSeen outcome = .ok l' := by
  rw [finishBatch]
  exact ⟨_, if_neg (by simp [hc])⟩

theorem ingestGroup_eq_ok {group : Group} {report : PartitionReport}
    (h : (ingestGroup c digest l group).result = .ok report) :
    ∃ l₀ l₁, l.startBatch c group.1 digest = .ok (report.batch, l₀) ∧
      (reconcile group.1 group.2 report.batch).Returns (repository c) l₀ report.result l₁ ∧
      l₁.finishBatch c report.batch group.2.length (.succeeded report.result) =
        .ok (ingestGroup c digest l group).ledger := by
  obtain ⟨partition, listings⟩ := group
  cases hstart : l.startBatch c partition digest with
  | error e =>
    simp only [ingestGroup, hstart] at h
    cases h
  | ok opened =>
    obtain ⟨batch, l₀⟩ := opened
    cases hrun : ((reconcile partition listings batch).run (repository c) l₀).result with
    | error e =>
      simp only [ingestGroup, hstart, hrun] at h
      cases h
    | ok counts =>
      cases hfinish : ((reconcile partition listings batch).run (repository c) l₀).state.finishBatch
        c batch listings.length (.succeeded counts) with
      | error e =>
        simp only [ingestGroup, hstart, hrun, hfinish] at h
        cases h
      | ok l₂ =>
        simp only [ingestGroup, hstart, hrun, hfinish] at h ⊢
        cases h
        exact ⟨l₀, _, rfl, ⟨hrun, rfl⟩, hfinish⟩

theorem ingestGroup_of_returns {group : Group} {l₀ l₁ l₂ : Ledger} {batch : BatchId} {counts : Counts}
    (hstart : l.startBatch c group.1 digest = .ok (batch, l₀))
    (hrun : (reconcile group.1 group.2 batch).Returns (repository c) l₀ counts l₁)
    (hfinish : l₁.finishBatch c batch group.2.length (.succeeded counts) = .ok l₂) :
    (ingestGroup c digest l group).result = .ok ⟨group.1, batch, group.2.length, counts⟩ := by
  obtain ⟨hr, rfl⟩ := hrun
  simp only [ingestGroup, hstart, hr, hfinish]

theorem ingestGroups_cons_eq_ok {group : Group} {rest : List Group} {reports : List PartitionReport}
    (h : (ingestGroups c digest l (group :: rest)).result = .ok reports) :
    ∃ report reports', (ingestGroup c digest l group).result = .ok report ∧
      (ingestGroups c digest (ingestGroup c digest l group).ledger rest).result = .ok reports' ∧
      reports = report :: reports' ∧
      (ingestGroups c digest l (group :: rest)).ledger =
        (ingestGroups c digest (ingestGroup c digest l group).ledger rest).ledger := by
  cases hfirst : (ingestGroup c digest l group).result with
  | error e =>
    simp only [ingestGroups, hfirst] at h
    cases h
  | ok report =>
    have hledger : (ingestGroups c digest l (group :: rest)).ledger =
        (ingestGroups c digest (ingestGroup c digest l group).ledger rest).ledger := by
      simp only [ingestGroups, hfirst]
    cases hothers : (ingestGroups c digest (ingestGroup c digest l group).ledger rest).result with
    | error e =>
      simp only [ingestGroups, hfirst, hothers] at h
      cases h
    | ok reports' =>
      simp only [ingestGroups, hfirst, hothers] at h
      cases h
      exact ⟨report, reports', rfl, rfl, rfl, hledger⟩

/-- What a group did that was taken to its end. -/
structure Took (group : Group) (report : PartitionReport) (l l' : Ledger) : Prop where
  sound : l'.Sound
  framed : Framed (group.2.map (·.sourceId)) l l'
  reconciled : Reconciled group.1 group.2 report.batch l.view l'.view report.result

section

variable (hs : l.Sound)
include hs

theorem Sound.reconciled_of_returns {partition : PartitionKey} {listings : List Listing}
    {batch : BatchId} {counts : Counts}
    (h : (reconcile partition listings batch).Returns (repository c) l counts l') :
    l'.Sound ∧ Framed (listings.map (·.sourceId)) l l' ∧
      Reconciled partition listings batch l.view l'.view counts := by
  have hends := ends_repository c (reconcile partition listings batch) l
  rw [h.1, h.2] at hends
  obtain ⟨hs', hrec⟩ := effective.reconciled hs hends
  obtain ⟨-, marked, hf, hmarked⟩ := hs.framed_of_ends hends
  refine ⟨hs', hf.mono fun id hid => ?_, hrec⟩
  obtain ⟨w, hw, -⟩ := hmarked id hid
  exact (lastFor_isSome_iff _ _).mp (Option.isSome_of_eq_some hw)

theorem Sound.took {group : Group} {report : PartitionReport}
    (h : (ingestGroup c digest l group).result = .ok report) :
    Took group report l (ingestGroup c digest l group).ledger := by
  obtain ⟨l₀, l₁, hstart, hrun, hfinish⟩ := ingestGroup_eq_ok h
  obtain ⟨-, rfl⟩ := startBatch_eq_ok hstart
  rw [finishBatch_eq_ok hfinish]
  obtain ⟨hs₁, hf, hrec⟩ := (hs.withBatches _).reconciled_of_returns hrun
  exact ⟨hs₁.withBatches _, ⟨hf.nodup, hf.revisions, hf.head?⟩, hrec⟩

theorem Sound.ingestGroup_succeeds (hc : c.faults = []) (digest : Option String) (group : Group) :
    ∃ report, (ingestGroup c digest l group).result = .ok report := by
  obtain ⟨batch, l₀, hstart⟩ := exists_startBatch hc l group.1 digest
  have hs₀ : l₀.Sound := by
    obtain ⟨-, rfl⟩ := startBatch_eq_ok hstart
    exact hs.withBatches _
  obtain ⟨counts, l₁, hrun, -⟩ :=
    (store c.now).reconcile hs₀ (hasBatch_startBatch hstart) group.1 group.2
  have hconditions : (store c.now).repository = repository c := by
    cases c
    cases hc
    rfl
  rw [hconditions] at hrun
  have hclose : Fault.batchClose ∉ c.faults := by simp [hc]
  obtain ⟨l₂, hfinish⟩ := exists_finishBatch hclose l₁ batch group.2.length (.succeeded counts)
  exact ⟨_, ingestGroup_of_returns hstart hrun hfinish⟩

theorem Sound.ingestGroups_succeeds (hc : c.faults = []) (digest : Option String)
    (groups : List Group) : ∃ reports, (ingestGroups c digest l groups).result = .ok reports := by
  induction groups generalizing l with
  | nil => exact ⟨[], rfl⟩
  | cons group rest ih =>
    obtain ⟨report, hfirst⟩ := hs.ingestGroup_succeeds hc digest group
    obtain ⟨reports, hothers⟩ := ih (hs.took hfirst).sound
    refine ⟨report :: reports, ?_⟩
    simp only [ingestGroups, hfirst, hothers]
    rfl

end
end OfferLedger.Ledger
