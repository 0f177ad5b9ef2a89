import OfferLedger.Ledger.Batches
import OfferLedger.Ledger.Write
import OfferLedger.Snapshot.Basic
import OfferLedger.Snapshot.Partition

/-! # Ingesting a snapshot

The regions of a snapshot are reconciled in ascending order of their keys, each in a batch of its own.
The first region that fails ends the run: its batch is closed with the error, and what the regions
before it did stays. -/
namespace OfferLedger

inductive IngestError where
  | repository (partition : PartitionKey) (batch : BatchId) (cause : RepositoryError)
  | database (cause : DatabaseError)
  deriving DecidableEq, Repr

def IngestError.message : IngestError → String
  | .repository partition batch cause =>
    s!"partition {partition} (batch {batch}) failed: {cause.message}"
  | .database cause => s!"database error: {cause.message}"

structure PartitionReport where
  partition : PartitionKey
  batch : BatchId
  listingsSeen : Nat
  result : Counts
  deriving DecidableEq, Repr

def PartitionReport.toJson (r : PartitionReport) : Json :=
  .obj [("partitionKey", .str r.partition), ("batchId", .int r.batch),
    ("listingsSeen", .nat r.listingsSeen), ("result", r.result.toJson)]

namespace Ledger

/-- How ingesting ended: what was reported for each region, the result, and the ledger it left. -/
structure Ingested (α : Type) where
  progress : List (PartitionKey × Progress)
  result : Except IngestError α
  ledger : Ledger

/-- Closes a batch that failed. That it cannot be closed is passed over. -/
def closeFailed (c : Conditions) (l : Ledger) (batch : BatchId) (listingsSeen : Nat)
    (cause : RepositoryError) : Ledger :=
  match l.finishBatch c batch listingsSeen (.failed cause.message) with
  | .ok l => l
  | .error _ => l

def ingestGroup (c : Conditions) (digest : Option String) (l : Ledger) (group : Group) :
    Ingested PartitionReport :=
  let (partition, listings) := group
  match l.startBatch c partition digest with
  | .error e => ⟨[], .error (.database e), l⟩
  | .ok (batch, l) =>
    let seen := listings.length
    let run := (reconcile partition listings batch).run (repository c) l
    let progress := run.progress.map fun p => (partition, p)
    match run.result with
    | .error e =>
      ⟨progress, .error (.repository partition batch e), closeFailed c run.state batch seen e⟩
    | .ok counts =>
      match run.state.finishBatch c batch seen (.succeeded counts) with
      | .error e => ⟨progress, .error (.database e), run.state⟩
      | .ok l => ⟨progress, .ok ⟨partition, batch, seen, counts⟩, l⟩

def ingestGroups (c : Conditions) (digest : Option String) :
    Ledger → List Group → Ingested (List PartitionReport)
  | l, [] => ⟨[], .ok [], l⟩
  | l, group :: rest =>
    let first := ingestGroup c digest l group
    match first.result with
    | .error e => ⟨first.progress, .error e, first.ledger⟩
    | .ok report =>
      let others := ingestGroups c digest first.ledger rest
      ⟨first.progress ++ others.progress, others.result.map (report :: ·), others.ledger⟩

/-- Reconciles the requested regions of a snapshot, or all of them if none is requested. -/
def ingest (c : Conditions) (l : Ledger) (snapshot : Snapshot) (requested : List String) :
    Ingested (List PartitionReport) :=
  ingestGroups c snapshot.digest l (groups snapshot.listings requested)

end Ledger
end OfferLedger
