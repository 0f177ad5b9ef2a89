import OfferLedger.CommandLine.Directory
import OfferLedger.CommandLine.Location
import OfferLedger.Ledger.Archive

/-! # Opening a ledger

A place is opened for writing if it allows that. A file without content becomes a ledger then, and a
file with other content than a ledger is refused. Beside the file of a ledger lie its journal, or its log
with an index, while it is changed; what is found there when it is opened was left by a run that did not
end. Ledgers that runs share are changed by a log. -/
namespace OfferLedger.CommandLine

inductive OpenError where
  | badLocation (cause : LocationError)
  | cannotOpen
  | cannotRead
  | cannotLock
  | locked
  | pendingJournal
  | cannotKeepJournal
  | notLedger
  | readOnly
  deriving DecidableEq, Repr

namespace OpenError

def message (path : String) : OpenError → String
  | badLocation cause => cause.message
  | cannotOpen => s!"unable to open database file: {path}"
  | cannotRead | cannotLock => "disk I/O error"
  | locked => "database is locked"
  | cannotKeepJournal => "unable to open database file"
  | notLedger => "file is not a database"
  | pendingJournal | readOnly => "attempt to write a readonly database"

def kindMessage : OpenError → String
  | badLocation (.accessNotAllowed _) => "Error code 3: Access permission denied"
  | badLocation _ => "Error code 1: SQL error or missing database"
  | cannotOpen | cannotKeepJournal => "Error code 14: Unable to open the database file"
  | cannotRead => "Error code 10: Some kind of disk I/O error occurred"
  | cannotLock => "Error code 3850: I/O error in the advisory file locking logic"
  | locked => "Error code 5: The database file is locked"
  | pendingJournal =>
    "Error code 776: Database has hot journal that must be rolled back (requires write access)"
  | notLedger => "Error code 26: File opened that is not a database file"
  | readOnly => "Error code 8: Attempt to write a readonly database"

def causes (path : String) (e : OpenError) : List String := [e.message path, e.kindMessage]

end OpenError

def journalName (name : String) : String := name ++ "-journal"

def logName (name : String) : String := name ++ "-wal"

def indexName (name : String) : String := name ++ "-shm"

def lockName (name : String) : String := name ++ ".lock"

structure Opened where
  ledger : Ledger
  isWritable : Bool
  file : Option String := none
  journaling : Journaling := .rollback
  hasLog : Bool := false
  deriving DecidableEq, Repr

/-- A step of opening a ledger. It changes the directory also if it fails. -/
abbrev Opening (α : Type) := ExceptT OpenError (StateM Directory) α

namespace Location

/-- A single run that may write keeps the index of the log to itself. -/
def hasIndex (place : Location) : Bool := place.reach ≠ .exclusive || place.access = .readOnly

def openLog (place : Location) (name : String) (first : List UInt8) (d : Directory) : Directory :=
  let d := if d.holds (logName name) then d else d.put (logName name) first
  if place.hasIndex then d.put (indexName name) [0x18, 0xE2, 0x2D, 0x00] else d

def closeLog (place : Location) (name : String) (d : Directory) : Directory :=
  if place.access = .readOnly then d
  else
    let d := d.erase (logName name)
    if place.hasIndex then d.erase (indexName name) else d

/-- The file of a place. A missing one is made if that is allowed, and it stays also if the ledger cannot
be opened then. -/
def findFile (place : Location) : Opening String := do
  let d ← get
  let some target := d.target? place.path | throw .cannotOpen
  if place.pattern.any (!d.hasPath ·) then throw .cannotRead
  match target with
  | .file name =>
    if !d.contains name then
      if place.access ≠ .create then throw .cannotOpen
      set (d.put name [])
    return name
  | .folder => throw (if place.access = .readOnly then .cannotRead else .cannotOpen)
  | .elsewhere => throw .cannotOpen

def checkLock (place : Location) (name : String) : Opening Unit := do
  if place.hasLockFile then
    if Path.isNameTooLong (lockName name) then throw .cannotLock
    if (← get).contains (lockName name) then throw .locked

/-- Removes a journal that was left, which holds nothing to take back. Without the right to write it has
to stay, unless other runs are not regarded, and a ledger that has one cannot be opened then. With a lock
file any journal is taken for that of another run. -/
def dropJournal (place : Location) (name : String) (isUnused : Bool) : Opening Unit := do
  if (← get).holds (journalName name) && !place.hasLockFile then
    if place.access ≠ .readOnly || isUnused && !place.isShareable then
      modify (·.erase (journalName name))
    else if !isUnused then throw .pendingJournal

def findLog (place : Location) (name : String) (isUnused : Bool) : Opening Bool := do
  if !(← get).holds (logName name) then return false
  if isUnused then
    modify (·.erase (logName name))
    return false
  if !place.isShareable then throw .cannotKeepJournal
  modify (place.openLog name [])
  return true

def openUnused (place : Location) (name : String) : Opening Opened := do
  if !place.isWritable then throw .readOnly
  if Path.isNameTooLong (journalName name) then throw .cannotKeepJournal
  modify (·.erase (journalName name))
  if place.isShareable then
    modify (place.openLog name [0x37])
    return ⟨.empty, true, name, .writeAhead, true⟩
  else return ⟨.empty, true, name, .rollback, false⟩

def openLedger (place : Location) (name : String) (l : Ledger) (journaling : Journaling) :
    Opening Opened := do
  if journaling = .writeAhead && !place.isShareable then throw .cannotKeepJournal
  if journaling = .rollback && place.isShareable then
    if !place.isWritable then throw .readOnly
    modify (·.erase (journalName name))
  if place.isShareable then
    modify (place.openLog name [])
    return ⟨l, place.isWritable, name, .writeAhead, true⟩
  else return ⟨l, place.isWritable, name, .rollback, false⟩

def openFrozen (name : String) (bytes : List UInt8) : Except OpenError Opened :=
  if Ledger.isUnused bytes then .error .readOnly
  else
    match Ledger.ofBytes? bytes with
    | none => .error .notLedger
    | some (l, journaling) => .ok ⟨l, false, name, journaling, false⟩

def openFile (place : Location) (name : String) : Opening Opened := do
  let bytes := ((← get).get? name).getD []
  if place.frozen then return ← openFrozen name bytes
  place.checkLock name
  let isUnused := Ledger.isUnused bytes
  place.dropJournal name isUnused
  let hasLog ← place.findLog name isUnused
  if isUnused then place.openUnused name
  else
    match Ledger.ofBytes? bytes with
    | none =>
      if hasLog then modify (place.closeLog name)
      throw .notLedger
    | some (l, journaling) =>
      if hasLog then return ⟨l, place.isWritable, name, journaling, true⟩
      else place.openLedger name l journaling

def openIn (place : Location) : Opening Opened := do
  if place.inMemory then
    if place.isWritable then return ⟨.empty, true, none, .rollback, false⟩ else throw .readOnly
  else
    let name ← place.findFile
    let opened ← place.openFile name
    if opened.isWritable then modify (·.put name (opened.ledger.toBytes opened.journaling))
    return opened

end Location

namespace Opened

def close (o : Opened) (place : Location) (l : Ledger) (d : Directory) : Directory :=
  match o.file with
  | none => d
  | some name =>
    let d :=
      if o.hasLog then place.closeLog name d
      else if l ≠ o.ledger then d.erase (journalName name)
      else d
    if o.isWritable then d.put name (l.toBytes o.journaling) else d

end Opened
end OfferLedger.CommandLine
