import OfferLedger.Proofs.Ingest.Effect
import OfferLedger.Proofs.Reconcile.Due
import OfferLedger.Proofs.Reconcile.Success

/-! # Attempts at the groups of a snapshot

Any repository call of a group can fail. The group then ends the run, but what it has made stays, and its
batch is closed with the error. An attempt is a group whose batch could be closed, in one way or the
other. -/
namespace OfferLedger.Ledger

/-- A group whose batch was opened and closed, with the calls in between answered in any way. -/
inductive Attempt (digest : Option String) (group : Group) :
    Ledger → Except IngestError PartitionReport → Ledger → Prop where
  | taken {l l₀ l₁ l' : Ledger} {c c' : Conditions} {batch : BatchId} {counts : Counts} :
      l.startBatch c group.1 digest = .ok (batch, l₀) →
      (reconcile group.1 group.2 batch).Ends answers l₀ (.ok counts) l₁ →
      l₁.finishBatch c' batch group.2.length (.succeeded counts) = .ok l' →
      Attempt digest group l (.ok ⟨group.1, batch, group.2.length, counts⟩) l'
  | failed {l l₀ l₁ l' : Ledger} {c c' : Conditions} {batch : BatchId} {cause : RepositoryError} :
      l.startBatch c group.1 digest = .ok (batch, l₀) →
      (reconcile group.1 group.2 batch).Ends answers l₀ (.error cause) l₁ →
      l₁.finishBatch c' batch group.2.length (.failed cause.message) = .ok l' →
      Attempt digest group l (.error (.repository group.1 batch cause)) l'

/-- The first of some groups, up to the end or to one that failed. -/
inductive Attempts (digest : Option String) :
    List Group → List Group → Ledger → Except IngestError (List PartitionReport) → Ledger → Prop where
  | done (l : Ledger) : Attempts digest [] [] l (.ok []) l
  | next {group : Group} {rest attempted : List Group} {l l₁ l' : Ledger} {report : PartitionReport}
      {r : Except IngestError (List PartitionReport)} :
      Attempt digest group l (.ok report) l₁ → Attempts digest rest attempted l₁ r l' →
      Attempts digest (group :: rest) (group :: attempted) l (r.map (report :: ·)) l'
  | stop {group : Group} {rest : List Group} {l l' : Ledger} {e : IngestError} :
      Attempt digest group l (.error e) l' → Attempts digest (group :: rest) [group] l (.error e) l'

/-- The ledgers that snapshots lead to, with all groups that were attempted. -/
inductive FromSnapshots : List Group → Ledger → Prop where
  | empty : FromSnapshots [] Ledger.empty
  | ingest {groups attempted : List Group} {l l' : Ledger} {snapshot : Snapshot}
      {requested : List String} {r : Except IngestError (List PartitionReport)} :
      FromSnapshots groups l →
      Attempts snapshot.digest (OfferLedger.groups snapshot.listings requested) attempted l r l' →
      FromSnapshots (groups ++ attempted) l'

section

variable {c : Conditions} {digest : Option String} {l : Ledger}

theorem attempt_ingestGroup (hc : Fault.batchClose ∉ c.faults) {group : Group}
    (h : ∀ cause, (ingestGroup c digest l group).result ≠ .error (.database cause)) :
    Attempt digest group l (ingestGroup c digest l group).result
      (ingestGroup c digest l group).ledger := by
  obtain ⟨partition, listings⟩ := group
  cases hstart : l.startBatch c partition digest with
  | error e =>
    simp only [ingestGroup, hstart] at h
    exact absurd rfl (h e)
  | ok opened =>
    obtain ⟨batch, l₀⟩ := opened
    have hends := ends_repository c (reconcile partition listings batch) l₀
    cases hrun : ((reconcile partition listings batch).run (repository c) l₀).result with
    | error cause =>
      rw [hrun] at hends
      obtain ⟨l', hfinish⟩ := exists_finishBatch hc
        ((reconcile partition listings batch).run (repository c) l₀).state batch listings.length
        (.failed cause.message)
      simp only [ingestGroup, hstart, hrun, closeFailed, hfinish]
      exact .failed hstart hends hfinish
    | ok counts =>
      rw [hrun] at hends
      obtain ⟨l', hfinish⟩ := exists_finishBatch hc
        ((reconcile partition listings batch).run (repository c) l₀).state batch listings.length
        (.succeeded counts)
      simp only [ingestGroup, hstart, hrun, hfinish]
      exact .taken hstart hends hfinish

theorem attempts_ingestGroups (hc : Fault.batchClose ∉ c.faults) {groups : List Group}
    (h : ∀ cause, (ingestGroups c digest l groups).result ≠ .error (.database cause)) :
    ∃ attempted, Attempts digest groups attempted l (ingestGroups c digest l groups).result
      (ingestGroups c digest l groups).ledger := by
  induction groups generalizing l with
  | nil => exact ⟨[], .done l⟩
  | cons group rest ih =>
    cases hfirst : (ingestGroup c digest l group).result with
    | error e =>
      simp only [ingestGroups, hfirst] at h ⊢
      have hattempt : Attempt digest group l _ _ := attempt_ingestGroup hc fun cause heq => by
        rw [hfirst] at heq
        cases heq
        exact h cause rfl
      rw [hfirst] at hattempt
      exact ⟨[group], .stop hattempt⟩
    | ok report =>
      simp only [ingestGroups, hfirst] at h ⊢
      have hattempt : Attempt digest group l _ _ := attempt_ingestGroup hc fun cause heq => by
        rw [hfirst] at heq
        cases heq
      rw [hfirst] at hattempt
      obtain ⟨attempted, hrest⟩ := @ih (ingestGroup c digest l group).ledger fun cause heq => by
        rw [heq] at h
        exact h cause rfl
      exact ⟨group :: attempted, .next hattempt hrest⟩

theorem attempts_ingest (hc : Fault.batchClose ∉ c.faults) {snapshot : Snapshot}
    {requested : List String}
    (h : ∀ cause, (ingest c l snapshot requested).result ≠ .error (.database cause)) :
    ∃ attempted, Attempts snapshot.digest (groups snapshot.listings requested) attempted l
      (ingest c l snapshot requested).result (ingest c l snapshot requested).ledger :=
  attempts_ingestGroups hc h

end

/-- However an attempt has ended, its batch is the last one and is closed, and its group was reconciled
part of the way. -/
structure Attempted (group : Group) (outcome : BatchOutcome) (l l' : Ledger) (b : Batch) : Prop where
  sound : l'.Sound
  batches : l'.batches = l.batches ++ [b]
  id : b.id = l.batches.length + 1
  partition : b.partition = group.1
  closing : ∃ finishedAt, b.closing = some ⟨finishedAt, group.2.length, outcome⟩
  partway : Partway group.1 group.2 b.id l.view l'.view
  framed : ∃ marked, Framed marked l l' ∧ ∀ id ∈ marked, id ∈ l.view.skipped group.2

section

variable {l l₀ l₁ l' : Ledger} (hs : l.Sound) (hids : ∀ b ∈ l.batches, b.id ≤ l.batches.length)
include hs hids

theorem attempted_of_ends {group : Group} {digest : Option String} {c c' : Conditions}
    {batch : BatchId} {r : Except RepositoryError Counts} {outcome : BatchOutcome}
    (hstart : l.startBatch c group.1 digest = .ok (batch, l₀))
    (hends : (reconcile group.1 group.2 batch).Ends answers l₀ r l₁)
    (hfinish : l₁.finishBatch c' batch group.2.length outcome = .ok l') :
    ∃ b, b.id = batch ∧ Attempted group outcome l l' b := by
  obtain ⟨hbatch, rfl⟩ := startBatch_eq_ok hstart
  obtain rfl := finishBatch_eq_ok hfinish
  have hs₀ := hs.withBatches (l.batches ++ [⟨batch, group.1, digest, c.now, none⟩])
  obtain ⟨hk, marked, hf, hmarked⟩ := hs₀.framed_of_ends hends
  have hpartway := (faithful.partway hs₀ hends).2
  refine ⟨⟨batch, group.1, digest, c.now, some ⟨c'.now, group.2.length, outcome⟩⟩, rfl,
    hk.sound.withBatches _, ?_, hbatch, rfl, ⟨c'.now, rfl⟩, hpartway, marked,
    ⟨hf.nodup, hf.revisions, hf.head?⟩, hmarked⟩
  have hearlier : ∀ b ∈ l.batches, (if b.id = batch then
      { b with closing := some ⟨c'.now, group.2.length, outcome⟩ } else b) = b := by
    intro b hb
    have hlt : b.id < batch := hbatch ▸ Int.lt_add_one_of_le (hids b hb)
    exact if_neg hlt.ne
  change l₁.batches.map _ = _
  rw [hk.batches]
  change (l.batches ++ [_]).map _ = _
  rw [List.map_append, List.map_congr_left hearlier, List.map_id']
  simp

theorem Attempt.cases {group : Group} {digest : Option String}
    {r : Except IngestError PartitionReport} (h : Attempt digest group l r l') :
    ∃ b, (∃ counts, r = .ok ⟨group.1, b.id, group.2.length, counts⟩ ∧
        Attempted group (.succeeded counts) l l' b ∧
        Reconciled group.1 group.2 b.id l.view l'.view counts) ∨
      ∃ cause, r = .error (.repository group.1 b.id cause) ∧
        Attempted group (.failed cause.message) l l' b := by
  cases h with
  | taken hstart hends hfinish =>
    obtain ⟨b, rfl, hattempted⟩ := attempted_of_ends hs hids hstart hends hfinish
    obtain ⟨-, rfl⟩ := startBatch_eq_ok hstart
    obtain ⟨-, hreconciled⟩ := effective.reconciled (hs.withBatches _) hends
    obtain rfl := finishBatch_eq_ok hfinish
    exact ⟨b, .inl ⟨_, rfl, hattempted, hreconciled⟩⟩
  | failed hstart hends hfinish =>
    obtain ⟨b, rfl, hattempted⟩ := attempted_of_ends hs hids hstart hends hfinish
    exact ⟨b, .inr ⟨_, rfl, hattempted⟩⟩

end
end OfferLedger.Ledger
