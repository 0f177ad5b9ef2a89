import OfferLedger.CommandLine.Run
import OfferLedger.Service.Route
import Std.Time.DateTime.Timestamp

/-! # The program

Runs the command of the arguments on the files of the system. Served requests are read from the
standard input, a method and a target on each line. -/
namespace OfferLedger.CommandLine

def now : IO Timestamp := do
  let t ← Std.Time.Timestamp.now
  return ⟨t.toNanosecondsSinceUnixEpoch.val⟩

def fileError : IO.Error → FileError
  | .noFileOrDirectory .. => .missing
  | .permissionDenied .. => .denied
  | .invalidArgument _ 36 _ => .nameTooLong
  | .inappropriateType _ number _ => if number = 20 then .notDirectory else .isDirectory
  | e => ⟨toString e, 5⟩

def readFile (path : String) : IO (Except FileError (List UInt8)) := do
  try
    return .ok (← IO.FS.readBinFile path).toList
  catch e =>
    return .error (fileError e)

def hasPath (path : String) : IO Bool := do
  match ← readFile path with
  | .ok _ => return true
  | .error e => return e = .isDirectory

def load (folder : String) (names : List String) : IO Directory :=
  names.foldlM (fun d name => do
    match ← readFile (folder ++ name) with
    | .ok bytes => return d.put name bytes
    | .error _ => return d) []

def store (folder : String) (names : List String) (before after : Directory) : IO Unit := do
  for name in names do
    match after.get? name with
    | some bytes =>
      unless before.get? name = some bytes do
        IO.FS.writeBinFile (folder ++ name) ⟨bytes.toArray⟩
    | none => if before.contains name then IO.FS.removeFile (folder ++ name)

def finish (output : Output) : IO UInt32 := do
  IO.print output.stdout
  IO.eprint output.stderr
  return output.exit.toUInt32

partial def serve (settings : Settings) (l : Ledger) : IO Unit := do
  let line ← (← IO.getStdin).getLine
  if line.isEmpty then return
  match (Text.words line.toList).map String.ofList with
  | [method, uri] =>
    let response := Service.respond l settings.pageLimit method (.parse uri)
    IO.println s!"{response.status} {(response.body.getD .null).compact}"
  | _ => pure ()
  serve settings l

/-- Opens the ledger of the settings and does something with it, which leaves a ledger. Of the folder
around its file only the files that belong to it are looked at. -/
def withFile (settings : Settings) (act : Opened → IO (Output × Ledger)) : IO UInt32 := do
  let path := settings.databasePath
  match Location.ofText path with
  | .error e => finish (openFailure path (.badLocation e))
  | .ok place =>
    if let some pattern := place.pattern then
      unless place.inMemory || (← hasPath pattern) do
        return ← finish (openFailure path .cannotRead)
    let trail := Trail.ofPath place.path
    let name := trail.names.head?.getD ""
    let folder := if trail.up.names.isEmpty then trail.up.text else trail.up.text ++ "/"
    let names := [name, journalName name, logName name, indexName name, lockName name]
    let near : Location :=
      if place.inMemory then place else { place with path := "./" ++ name, pattern := none }
    let before ← load folder names
    let (result, present) := near.openIn.run before
    try store folder names before present
    catch _ => return ← finish (openFailure path .cannotOpen)
    match result with
    | .error e => finish (openFailure path e)
    | .ok opened =>
      let (output, l) ← act opened
      store folder names present (opened.close near l present)
      finish output

def perform : Task → IO UInt32
  | .stop output => finish output
  | .serve settings => withFile settings fun opened => do
    serve settings opened.ledger
    return (.success "", opened.ledger)
  | .ingest settings snapshot requested => withFile settings fun opened => do
    return ingestFile (← now) opened snapshot requested (← readFile snapshot)

def environment : IO (String → Option String) := do
  let read (key : Settings.Key) : IO (String × Option String) := do
    return (key.name, ← IO.getEnv key.name)
  let values ← [Settings.Key.databasePath, .address, .maxWorkers, .pageLimit].mapM read
  return fun name => (values.lookup name).join

end OfferLedger.CommandLine

def main (arguments : List String) : IO UInt32 := do
  OfferLedger.CommandLine.perform
    (.of arguments (← OfferLedger.CommandLine.environment))
