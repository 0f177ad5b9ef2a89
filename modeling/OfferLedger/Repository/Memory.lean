import OfferLedger.Filter.Match
import OfferLedger.Keyed
import OfferLedger.Repository.Basic

/-! # A repository in memory

The histories themselves, each with its revisions oldest first, and the batch in which each offer was
last written or touched. The latest revision says whether an offer is active. -/
namespace OfferLedger

structure MemoryStore where
  histories : Keyed SourceId (List Revision) := []
  lastSeen : Keyed SourceId BatchId := []
  deriving DecidableEq, Repr

namespace MemoryStore

def history (s : MemoryStore) (id : SourceId) : List Revision := (s.histories.get? id).getD []

def latest? (s : MemoryStore) (id : SourceId) : Option Revision := (s.history id).getLast?

def isActive (s : MemoryStore) (id : SourceId) : Bool := (s.latest? id).any fun r => !r.isDelete

def lastSeenBatch? (s : MemoryStore) (id : SourceId) : Option BatchId := s.lastSeen.get? id

/-- The listings of the active offers, in the order in which the offers were first stored. -/
def active (s : MemoryStore) : List Listing :=
  s.histories.values.filterMap fun revisions =>
    match revisions.getLast? with
    | some r => if r.isDelete then none else some r.listing
    | none => none

def current (s : MemoryStore) (filter : Option Filter) : List Listing :=
  (s.active.filter fun l => filter.all (·.selects l)).mergeSort fun a b => a.sourceId ≤ b.sourceId

def known? (s : MemoryStore) (incoming : Listing) : Option Known :=
  (s.latest? incoming.sourceId).map fun r =>
    ⟨r.version, !r.isDelete, r.isDelete || r.listing ≠ incoming⟩

def find (s : MemoryStore) (listings : List Listing) : Keyed SourceId Known :=
  Keyed.ofList (listings.filterMap fun l => (s.known? l).map fun k => (l.sourceId, k))

def nextVersion (s : MemoryStore) (id : SourceId) : Int := (s.history id).length + 1

/-- Appends one revision, which has to continue its history. -/
def appendOne (s : MemoryStore) (e : Entry) (batch : BatchId) : Except RepositoryError MemoryStore :=
  let id := e.listing.sourceId
  if e.version ≠ s.nextVersion id then .error (.versionConflict id e.version)
  else
    .ok {
      histories := s.histories.put id (s.history id ++ [⟨e.version, e.operation, batch, e.listing⟩])
      lastSeen := s.lastSeen.put id batch }

def appendAll (batch : BatchId) : MemoryStore → List Entry → Except RepositoryError Unit × MemoryStore
  | s, [] => (.ok (), s)
  | s, e :: rest =>
    match s.appendOne e batch with
    | .ok s => appendAll batch s rest
    | .error err => (.error err, s)

/-- The first entry that does not continue the history of its offer as it is before the call. -/
def firstConflict? (s : MemoryStore) (entries : List Entry) : Option Entry :=
  entries.find? fun e => e.version ≠ s.nextVersion e.listing.sourceId

/-- All entries are checked against the state before the call, then appended one after another. -/
def append (s : MemoryStore) (entries : List Entry) (batch : BatchId) :
    Except RepositoryError Unit × MemoryStore :=
  match s.firstConflict? entries with
  | some e => (.error (.versionConflict e.listing.sourceId e.version), s)
  | none => appendAll batch s entries

/-- Marks every id, also an unknown one. -/
def touch (s : MemoryStore) (ids : List SourceId) (batch : BatchId) : MemoryStore :=
  { s with lastSeen := ids.foldl (fun t id => t.put id batch) s.lastSeen }

/-- The deletions of the active offers of a region that are not listed. -/
def missing (s : MemoryStore) (partition : PartitionKey) (activeIds : List SourceId) : List Entry :=
  (s.active.filter fun l => l.uf = partition && !activeIds.contains l.sourceId).map fun l =>
    ⟨l, s.nextVersion l.sourceId, .delete⟩

def removeMissing (s : MemoryStore) (partition : PartitionKey) (activeIds : List SourceId)
    (batch : BatchId) : Except RepositoryError Nat × MemoryStore :=
  let entries := s.missing partition activeIds
  let (result, state) := appendAll batch s entries
  (result.map fun _ => entries.length, state)

def repository : Repository MemoryStore
  | .find listings, s => (.ok (s.find listings), s)
  | .append entries batch, s => s.append entries batch
  | .touch ids batch, s => (.ok (), s.touch ids batch)
  | .removeMissing partition activeIds batch, s => s.removeMissing partition activeIds batch

end MemoryStore
end OfferLedger
