import OfferLedger.Query.Condition
import OfferLedger.Reconcile.Basic
import OfferLedger.Timestamp

/-! # The ledger

Three tables: the batches, every revision ever recorded, and one head for each offer. A head says
which revision is the latest, whether the offer is active, and when it was first and last seen.
Revisions are only ever added; heads are replaced. -/
namespace OfferLedger

/-- A recorded revision. Its damage is empty unless its cells were tampered with. -/
structure RevisionRow where
  revision : Revision
  recordedAt : Timestamp
  damage : List Damage := []
  deriving DecidableEq, Repr

def RevisionRow.sourceId (row : RevisionRow) : SourceId := row.revision.sourceId

def RevisionRow.version (row : RevisionRow) : Int := row.revision.version

structure Head where
  sourceId : SourceId
  uf : PartitionKey
  latestVersion : Int
  isActive : Bool
  firstSeen : Timestamp
  lastSeen : Timestamp
  lastSeenBatch : BatchId
  deriving DecidableEq, Repr

inductive BatchOutcome where
  | succeeded (counts : Counts)
  | failed (message : String)
  deriving DecidableEq, Repr

structure BatchClosing where
  finishedAt : Timestamp
  listingsSeen : Nat
  outcome : BatchOutcome
  deriving DecidableEq, Repr

/-- One reconciliation of one region. It has no closing while it runs, or if it never ended. -/
structure Batch where
  id : BatchId
  partition : PartitionKey
  digest : Option String
  startedAt : Timestamp
  closing : Option BatchClosing := none
  deriving DecidableEq, Repr

structure Ledger where
  batches : List Batch := []
  revisions : List RevisionRow := []
  heads : List Head := []
  deriving DecidableEq, Repr

/-- The time at which something is done to a ledger, and what fails then: of several faults that forbid
one write, the first is reported. -/
structure Conditions where
  now : Timestamp
  faults : List Fault := []
  deriving DecidableEq, Repr

namespace Ledger

def empty : Ledger := {}

def hasBatch (l : Ledger) (batch : BatchId) : Bool := l.batches.any (·.id = batch)

def head? (l : Ledger) (id : SourceId) : Option Head := l.heads.find? (·.sourceId = id)

def row? (l : Ledger) (id : SourceId) (version : Int) : Option RevisionRow :=
  l.revisions.find? fun row => row.sourceId = id && row.version = version

/-- The recorded revisions of an offer, oldest first. -/
def history (l : Ledger) (id : SourceId) : List RevisionRow :=
  l.revisions.filter (·.sourceId = id)

end Ledger

/-- An offer as it is stored: its head with the latest revision. -/
structure Stored where
  head : Head
  row : RevisionRow
  deriving DecidableEq, Repr

namespace Ledger

def stored? (l : Ledger) (h : Head) : Option Stored :=
  (l.row? h.sourceId h.latestVersion).map fun row => ⟨h, row⟩

def join (l : Ledger) (heads : List Head) : List Stored := heads.filterMap l.stored?

def active (l : Ledger) : List Stored := l.join (l.heads.filter (·.isActive))

end Ledger

namespace Damage

def all : List Damage := [cityBlob, priceText]

def place : Damage → Nat
  | cityBlob => 1
  | priceText => 7

end Damage

namespace RevisionRow

/-- Reads the listing of a row whose ten columns begin at a position. Of two damaged cells the first
one is reported. -/
def readListing (firstColumn : Nat) (row : RevisionRow) : Except DatabaseError Listing :=
  match Damage.all.find? row.damage.contains with
  | some d => .error (.unreadable d (firstColumn + d.place))
  | none => .ok row.revision.listing

theorem readListing_of_sound (firstColumn : Nat) (row : RevisionRow) (h : row.damage = []) :
    row.readListing firstColumn = .ok row.revision.listing := by
  simp [readListing, h, Damage.all]

def cell (row : RevisionRow) (f : Field) : Query.Cell :=
  if f = .city && row.damage.contains .cityBlob then .blob
  else if f = .askingPrice && row.damage.contains .priceText then .text ""
  else (Query.paramOf (row.revision.listing.value f)).cell

end RevisionRow

/-- Damage that was found in a call of a repository means that what is stored is corrupt. -/
def DatabaseError.inRepository : DatabaseError → RepositoryError
  | .unreadable d column => .corrupt (DatabaseError.unreadable d column).message
  | e => .database e

end OfferLedger
