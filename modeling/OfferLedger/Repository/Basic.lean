import OfferLedger.Listing.Basic

/-! # Repositories

The history of an offer is a list of revisions, numbered from 1. A repository answers four calls on
the histories. Calls are values, so that a run of calls can be recorded, interrupted and interleaved
with another one; a call that fails may leave any state behind. -/
namespace OfferLedger

abbrev BatchId := Int

inductive Operation where
  | insert
  | update
  | delete
  deriving DecidableEq, Repr

namespace Operation

def all : List Operation := [insert, update, delete]

def name : Operation → String
  | insert => "insert"
  | update => "update"
  | delete => "delete"

def ofName? (s : String) : Option Operation := all.find? (·.name == s)

def unknownMessage (s : String) : String := s!"unknown operation '{s}'"

end Operation

/-- One entry of a history, with the listing as it was then. A deletion carries the last listing. -/
structure Revision where
  version : Int
  operation : Operation
  batch : BatchId
  listing : Listing
  deriving DecidableEq, Repr

def Revision.sourceId (r : Revision) : SourceId := r.listing.sourceId

def Revision.isDelete (r : Revision) : Bool := r.operation = .delete

/-- A revision to be appended: version 1, or one more than the latest version. -/
structure Entry where
  listing : Listing
  version : Int
  operation : Operation
  deriving DecidableEq, Repr

/-- What a repository knows of an offer that was asked about. An inactive offer counts as changed. -/
structure Known where
  latestVersion : Int
  isActive : Bool
  changed : Bool
  deriving DecidableEq, Repr

inductive Fault where
  | revisions
  | updates
  | deletes
  | touches
  | batchStart
  | batchClose
  | frozenHeads
  deriving DecidableEq, Repr

def Fault.message : Fault → String
  | .revisions => "store unavailable"
  | .updates => "updates unavailable"
  | .deletes => "deletes unavailable"
  | .touches => "touch unavailable"
  | .batchStart | .batchClose => "batch table locked"
  | .frozenHeads => "heads frozen"

inductive Damage where
  | cityBlob
  | priceText
  deriving DecidableEq, Repr

inductive DatabaseError where
  | versionBelowOne
  | unknownBatch
  | noRows
  | unavailable (fault : Fault)
  | unreadable (damage : Damage) (column : Nat)
  deriving DecidableEq, Repr

def DatabaseError.message : DatabaseError → String
  | .versionBelowOne => "CHECK constraint failed: version >= 1"
  | .unknownBatch => "FOREIGN KEY constraint failed"
  | .noRows => "Query returned no rows"
  | .unavailable fault => fault.message
  | .unreadable .cityBlob column => s!"Invalid column type Blob at index: {column}, name: city"
  | .unreadable .priceText column =>
    s!"Invalid column type Text at index: {column}, name: asking_price"

inductive RepositoryError where
  | database (cause : DatabaseError)
  | versionConflict (sourceId : SourceId) (version : Int)
  | corrupt (message : String)
  deriving DecidableEq, Repr

def RepositoryError.message : RepositoryError → String
  | .database cause => s!"database error: {cause.message}"
  | .versionConflict id version =>
    s!"version conflict on offer {id}: version {version} already exists or its predecessor moved"
  | .corrupt message => s!"stored data is unreadable: {message}"

inductive Call where
  | find (listings : List Listing)
  | append (entries : List Entry) (batch : BatchId)
  | touch (ids : List SourceId) (batch : BatchId)
  | removeMissing (partition : PartitionKey) (activeIds : List SourceId) (batch : BatchId)
  deriving DecidableEq, Repr

@[reducible] def Call.Reply : Call → Type
  | .find _ => List (SourceId × Known)
  | .append .. => Unit
  | .touch .. => Unit
  | .removeMissing .. => Nat

abbrev Repository (σ : Type) := (c : Call) → σ → Except RepositoryError c.Reply × σ

def Repository.recorded (repo : Repository σ) : Repository (σ × List Call) := fun c s =>
  let (reply, state) := repo c s.1
  (reply, state, s.2 ++ [c])

end OfferLedger
