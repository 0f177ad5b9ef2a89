import OfferLedger.Filter.Sort
import OfferLedger.Ledger.Basic

/-! # Reading the ledger

The active offers, selected by a condition and ordered by sort clauses, one page at a time, and the
history of one offer. A row that cannot be read makes the answer that would hold it fail. -/
namespace OfferLedger

structure CurrentOffer where
  version : Int
  listing : Listing
  createdAt : Timestamp
  lastSeenAt : Timestamp
  deriving DecidableEq, Repr

def CurrentOffer.toJson (o : CurrentOffer) : Json :=
  .obj (("version", .int o.version) :: o.listing.toFields ++
    [("createdAt", .str (toString o.createdAt)), ("lastSeenAt", .str (toString o.lastSeenAt))])

def Stored.read (s : Stored) : Except DatabaseError CurrentOffer :=
  (s.row.readListing 2).map fun listing =>
    ⟨s.row.version, listing, s.head.firstSeen, s.head.lastSeen⟩

namespace SortClause

def compareStored (c : SortClause) (a b : Stored) : Ordering :=
  let o := match c.field with
    | .field f => (a.row.cell f).order (b.row.cell f)
    | .createdAt => a.head.firstSeen.textOrder b.head.firstSeen
  match c.direction with
  | .asc => o
  | .desc => o.swap

def orderStored (clauses : List SortClause) (a b : Stored) : Ordering :=
  (orNewest clauses).foldr (fun c rest => (c.compareStored a b).then rest)
    (compareOfLessAndEq a.head.sourceId b.head.sourceId)

end SortClause

namespace Ledger

def selects (filter : Option Filter) (s : Stored) : Bool :=
  filter.all fun f => (Query.conditionOf f).holds (Query.paramsOf f) s.row.cell

def select (l : Ledger) (filter : Option Filter) (clauses : List SortClause) : List Stored :=
  (l.active.filter (selects filter)).mergeSort fun a b =>
    (SortClause.orderStored clauses a b).isLE

def query (l : Ledger) (filter : Option Filter) (clauses : List SortClause) (limit offset : Nat) :
    Except DatabaseError (List CurrentOffer) :=
  (((l.select filter clauses).drop offset).take limit).mapM Stored.read

/-- The history of an offer in the order of its versions, none if it is unknown. -/
def readHistory (l : Ledger) (id : SourceId) : Except DatabaseError (List RevisionRow) :=
  ((l.history id).mergeSort fun a b => a.version ≤ b.version).mapM fun row =>
    (row.readListing 5).map fun _ => row

def activeIds (l : Ledger) (partition : PartitionKey) : List SourceId :=
  ((l.heads.filter fun h => h.uf = partition && h.isActive).map (·.sourceId)).mergeSort (· ≤ ·)

end Ledger

def RevisionRow.toJson (row : RevisionRow) : Json :=
  .obj [("sourceId", .str row.sourceId), ("version", .int row.version),
    ("operation", .str row.revision.operation.name), ("batchId", .int row.revision.batch),
    ("recordedAt", .str (toString row.recordedAt)), ("listing", row.revision.listing.toJson)]

end OfferLedger
