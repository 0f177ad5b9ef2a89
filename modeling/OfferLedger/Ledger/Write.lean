import OfferLedger.Chunks
import OfferLedger.Ledger.Basic

/-! # The ledger as a repository

A revision is recorded together with moving the head of its offer from the version before, so that of
two writers that saw the same version only one succeeds. A call that fails leaves the ledger as it
was. -/
namespace OfferLedger

def Fault.forbids (op : Operation) : Fault → Bool
  | .revisions => true
  | .updates => op = .update
  | .deletes => op = .delete
  | _ => false

namespace Ledger

def chunkSize : Nat := 500

def headsOf (l : Ledger) (ids : List SourceId) : List Head :=
  l.heads.filter fun h => ids.contains h.sourceId

/-- What is known of a stored offer, given the listings that came in. Of several for one offer the last
one counts. -/
def knownOf (incoming : List Listing) (s : Stored) (listing : Listing) : Known where
  latestVersion := s.head.latestVersion
  isActive := s.head.isActive
  changed := !s.head.isActive ||
    incoming.reverse.find? (·.sourceId = s.head.sourceId) ≠ some listing

/-- Offers are read by source id, and the first one that cannot be read is reported. -/
def findChunk (l : Ledger) (incoming : List Listing) :
    Except RepositoryError (List (SourceId × Known)) :=
  let heads := (l.headsOf (incoming.map (·.sourceId))).mergeSort fun a b => a.sourceId ≤ b.sourceId
  (l.join heads).mapM fun s =>
    match s.row.readListing 3 with
    | .error e => .error e.inRepository
    | .ok listing => .ok (s.head.sourceId, knownOf incoming s listing)

/-- A later chunk has the last word on an offer. -/
def find (l : Ledger) (listings : List Listing) : Except RepositoryError (Keyed SourceId Known) :=
  ((chunks chunkSize listings).mapM l.findChunk).map fun found => Keyed.ofList found.flatten

/-- Adds a row for a revision. Its number has to be positive and free, and its batch to exist. -/
def record (c : Conditions) (batch : BatchId) (l : Ledger) (e : Entry) :
    Except RepositoryError Ledger :=
  match c.faults.find? (·.forbids e.operation) with
  | some fault => .error (.database (.unavailable fault))
  | none =>
    if e.version < 1 then .error (.database .versionBelowOne)
    else if (l.row? e.listing.sourceId e.version).isSome then
      .error (.versionConflict e.listing.sourceId e.version)
    else if !l.hasBatch batch then .error (.database .unknownBatch)
    else
      .ok { l with
        revisions := l.revisions ++ [⟨⟨e.version, e.operation, batch, e.listing⟩, c.now, []⟩] }

def moveHead (c : Conditions) (l : Ledger) (id : SourceId) (version : Int) (move : Head → Head) :
    Option Ledger :=
  let isAt := fun h : Head => h.sourceId = id && h.latestVersion = version
  if !c.faults.contains .frozenHeads && l.heads.any isAt then
    some { l with heads := l.heads.map fun h => if isAt h then move h else h }
  else none

def addHead (c : Conditions) (l : Ledger) (listing : Listing) (batch : BatchId) : Option Ledger :=
  if (l.head? listing.sourceId).isSome then none
  else
    some { l with
      heads := l.heads ++ [⟨listing.sourceId, listing.uf, 1, true, c.now, c.now, batch⟩] }

def advance (c : Conditions) (batch : BatchId) (e : Entry) (h : Head) : Head :=
  { h with
    uf := e.listing.uf
    latestVersion := e.version
    isActive := true
    lastSeen := c.now
    lastSeenBatch := batch }

def orConflict (e : Entry) : Option Ledger → Except RepositoryError Ledger
  | some l => .ok l
  | none => .error (.versionConflict e.listing.sourceId e.version)

def appendOne (c : Conditions) (batch : BatchId) (l : Ledger) (e : Entry) :
    Except RepositoryError Ledger := do
  let l ← l.record c batch e
  orConflict e <|
    if e.version = 1 then l.addHead c e.listing batch
    else l.moveHead c e.listing.sourceId (e.version - 1) (advance c batch e)

def append (c : Conditions) (l : Ledger) (entries : List Entry) (batch : BatchId) :
    Except RepositoryError Ledger :=
  entries.foldlM (appendOne c batch) l

def touchChunk (c : Conditions) (batch : BatchId) (l : Ledger) (ids : List SourceId) :
    Except RepositoryError Ledger :=
  if (l.headsOf ids).isEmpty then .ok l
  else if c.faults.contains .touches then .error (.database (.unavailable .touches))
  else if !l.hasBatch batch then .error (.database .unknownBatch)
  else
    .ok { l with
      heads := l.heads.map fun h =>
        if ids.contains h.sourceId then { h with lastSeen := c.now, lastSeenBatch := batch } else h }

def touch (c : Conditions) (l : Ledger) (ids : List SourceId) (batch : BatchId) :
    Except RepositoryError Ledger :=
  (chunks chunkSize ids).foldlM (touchChunk c batch) l

/-- The deletions of the active offers of a region that are not listed, in the order of the heads. All
active offers of the region are read for it. -/
def missing (l : Ledger) (partition : PartitionKey) (activeIds : List SourceId) :
    Except RepositoryError (List Entry) := do
  let heads := l.heads.filter fun h => h.uf = partition && h.isActive
  let entries ← (l.join heads).mapM fun s =>
    match s.row.readListing 2 with
    | .error e => Except.error e.inRepository
    | .ok listing => .ok ⟨listing, s.head.latestVersion + 1, .delete⟩
  .ok (entries.filter fun e => !activeIds.contains e.listing.sourceId)

def deactivate (e : Entry) (h : Head) : Head :=
  { h with latestVersion := e.version, isActive := false }

def removeOne (c : Conditions) (batch : BatchId) (l : Ledger) (e : Entry) :
    Except RepositoryError Ledger := do
  let l ← l.record c batch e
  orConflict e (l.moveHead c e.listing.sourceId (e.version - 1) (deactivate e))

def removeMissing (c : Conditions) (l : Ledger) (partition : PartitionKey)
    (activeIds : List SourceId) (batch : BatchId) : Except RepositoryError (Nat × Ledger) := do
  let entries ← l.missing partition activeIds
  let l ← entries.foldlM (removeOne c batch) l
  .ok (entries.length, l)

/-- The answer of a call with the ledger it made, or its error with the ledger as it was. -/
def commit (l : Ledger) : Except RepositoryError (α × Ledger) → Except RepositoryError α × Ledger
  | .ok (a, l) => (.ok a, l)
  | .error e => (.error e, l)

def repository (c : Conditions) : Repository Ledger
  | .find listings, l => (l.find listings, l)
  | .append entries batch, l => l.commit ((l.append c entries batch).map ((), ·))
  | .touch ids batch, l => l.commit ((l.touch c ids batch).map ((), ·))
  | .removeMissing partition activeIds batch, l =>
    l.commit (l.removeMissing c partition activeIds batch)

end Ledger
end OfferLedger
