import OfferLedger.CommandLine.Arguments
import OfferLedger.CommandLine.Opening
import OfferLedger.Ingest
import OfferLedger.Settings.Basic

/-! # Running a command

The settings are read before the ledger is opened, and the ledger before the snapshot is read. What
was ingested is printed as a list of reports. Runs follow one another in a directory. -/
namespace OfferLedger.CommandLine

inductive Task where
  | stop (output : Output)
  | serve (settings : Settings)
  | ingest (settings : Settings) (snapshot : String) (requested : List String)
  deriving DecidableEq, Repr

def Task.of (arguments : List String) (lookup : String → Option String) : Task :=
  match readArguments arguments with
  | .error output => .stop output
  | .ok command =>
    match Settings.ofLookup lookup with
    | .error e => .stop (.failure "loading configuration" [e.message])
    | .ok settings =>
      match command with
      | .serve => .serve settings
      | .ingest snapshot requested => .ingest settings snapshot requested

def openFailure (path : String) (e : OpenError) : Output :=
  .failure s!"initializing database at {path}" (e.causes path)

def snapshotCauses (bytes : List UInt8) : Snapshot.ReadError → List String
  | .json e =>
    let message := e.message bytes
    [s!"snapshot is not a JSON array of listings: {message}", message]
  | .invalid position e => [Snapshot.invalidMessage position e]

def databaseCauses (e : DatabaseError) : List String := [s!"database error: {e.message}", e.message]

def ingestCauses : IngestError → List String
  | .database e => databaseCauses e
  | e@(.repository _ _ (.database cause)) => e.message :: databaseCauses cause
  | e@(.repository _ _ cause) => [e.message, cause.message]

def reportText (reports : List PartitionReport) : String :=
  (Json.arr (reports.map (·.toJson))).pretty ++ "\n"

def readOnlyCauses : List String :=
  let message := OpenError.readOnly.message ""
  [s!"database error: {message}", message, OpenError.readOnly.kindMessage]

/-- Ingests the bytes of a snapshot, or reports why there are none. A ledger that is only read is found
out by the first batch. -/
def ingestFile (now : Timestamp) (opened : Opened) (path : String) (requested : List String)
    (bytes : Except FileError (List UInt8)) : Output × Ledger :=
  let context := s!"ingesting {path}"
  let l := opened.ledger
  match bytes with
  | .error e => (.failure context [e.readMessage path, e.message], l)
  | .ok bytes =>
    match Snapshot.ofBytes bytes with
    | .error e => (.failure context (snapshotCauses bytes e), l)
    | .ok snapshot =>
      if !opened.isWritable && !(groups snapshot.listings requested).isEmpty then
        (.failure context readOnlyCauses, l)
      else
        let done := l.ingest ⟨now, []⟩ snapshot requested
        match done.result with
        | .error e => (.failure context (ingestCauses e), done.ledger)
        | .ok reports => (.success (reportText reports), done.ledger)

def withLedger (settings : Settings) (d : Directory)
    (act : Opened → Directory → Output × Ledger) : Output × Directory :=
  let path := settings.databasePath
  match Location.ofText path with
  | .error e => (openFailure path (.badLocation e), d)
  | .ok place =>
    match place.openIn.run d with
    | (.error e, d) => (openFailure path e, d)
    | (.ok opened, d) =>
      let (output, l) := act opened d
      (output, opened.close place l d)

def run (now : Timestamp) (arguments : List String) (lookup : String → Option String)
    (d : Directory) : Output × Directory :=
  match Task.of arguments lookup with
  | .stop output => (output, d)
  | .serve settings => withLedger settings d fun opened _ => (.success "", opened.ledger)
  | .ingest settings snapshot requested =>
    withLedger settings d fun opened d =>
      ingestFile now opened snapshot requested (d.read snapshot)

end OfferLedger.CommandLine
