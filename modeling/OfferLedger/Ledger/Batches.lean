import OfferLedger.Ledger.Basic

/-! # Batches of the ledger

A batch is opened before its region is reconciled and closed afterwards, with what was counted or with
the error that ended it. Batches are numbered from 1 in the order in which they were opened. -/
namespace OfferLedger

namespace Ledger

def startBatch (c : Conditions) (l : Ledger) (partition : PartitionKey) (digest : Option String) :
    Except DatabaseError (BatchId × Ledger) :=
  if c.faults.contains .batchStart then .error (.unavailable .batchStart)
  else
    let id : BatchId := l.batches.length + 1
    .ok (id, { l with batches := l.batches ++ [⟨id, partition, digest, c.now, none⟩] })

/-- Closing a batch again replaces its closing, and closing an unknown one does nothing. -/
def finishBatch (c : Conditions) (l : Ledger) (batch : BatchId) (listingsSeen : Nat)
    (outcome : BatchOutcome) : Except DatabaseError Ledger :=
  if l.hasBatch batch && c.faults.contains .batchClose then .error (.unavailable .batchClose)
  else
    let closing : BatchClosing := ⟨c.now, listingsSeen, outcome⟩
    .ok { l with
      batches := l.batches.map fun b => if b.id = batch then { b with closing := some closing } else b }

def recentCount : Nat := 50

/-- The batches that were opened last, latest first, by the text of the time and then by number. -/
def recentBatches (l : Ledger) : List Batch :=
  let later (a b : Batch) : Bool :=
    ((b.startedAt.textOrder a.startedAt).then (compare b.id a.id)).isLE
  (l.batches.mergeSort later).take recentCount

end Ledger

def BatchOutcome.counts? : BatchOutcome → Option Counts
  | .succeeded counts => some counts
  | .failed _ => none

def BatchOutcome.message? : BatchOutcome → Option String
  | .succeeded _ => none
  | .failed message => some message

namespace Batch

def outcome? (b : Batch) : Option BatchOutcome := b.closing.map (·.outcome)

def counts? (b : Batch) : Option Counts := b.outcome?.bind (·.counts?)

def message? (b : Batch) : Option String := b.outcome?.bind (·.message?)

/-- A count as it is kept: 64 bits with a sign, so that from 2^63 on it is negative. -/
def keptCount (n : Nat) : Int := Int.bmod n 18446744073709551616

def toJson (b : Batch) : Json :=
  let moment (t : Timestamp) : Json := .str (toString t)
  let count (f : Counts → Nat) : Json := Json.ofOption (fun c => Json.int (keptCount (f c))) b.counts?
  .obj [("id", .int b.id), ("partitionKey", .str b.partition),
    ("contentSha256", Json.ofOption .str b.digest),
    ("startedAt", moment b.startedAt),
    ("finishedAt", Json.ofOption (fun c => moment c.finishedAt) b.closing),
    ("listingsSeen", Json.ofOption (fun c => Json.int (keptCount c.listingsSeen)) b.closing),
    ("created", count (·.created)), ("updated", count (·.updated)),
    ("skipped", count (·.skipped)), ("removed", count (·.removed)),
    ("success", .bool b.counts?.isSome),
    ("errorMessage", Json.ofOption .str b.message?)]

end Batch
end OfferLedger
