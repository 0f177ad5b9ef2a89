import OfferLedger.CommandLine.Output

/-! # Arguments of the command line

There are two commands, and help on both. Options may stand on either side of the snapshot; after two
dashes there are no options. -/
namespace OfferLedger.CommandLine

inductive Command where
  | serve
  | ingest (snapshot : String) (requested : List String)
  deriving DecidableEq, Repr

def generalHelp : String := lines [
  "Auction offer ingestion and query service",
  "",
  "Usage: offer_tracker <COMMAND>",
  "",
  "Commands:",
  "  serve   Serve the read-only offers API",
  "  ingest  Reconcile a JSON snapshot into the offer history",
  "  help    Print this message or the help of the given subcommand(s)",
  "",
  "Options:",
  "  -h, --help  Print help"]

def serveHelp : String := lines [
  "Serve the read-only offers API",
  "",
  "Usage: offer_tracker serve",
  "",
  "Options:",
  "  -h, --help  Print help"]

def ingestHelp : String := lines [
  "Reconcile a JSON snapshot into the offer history",
  "",
  "Usage: offer_tracker ingest [OPTIONS] <SNAPSHOT>",
  "",
  "Arguments:",
  "  <SNAPSHOT>  Path to a JSON array of listings",
  "",
  "Options:",
  "      --uf <PARTITIONS>  Only reconcile these regions (repeatable). " ++
    "Requested regions missing from the snapshot have all their offers removed",
  "  -h, --help             Print help"]

def helpHelp : String := lines [
  "Print this message or the help of the given subcommand(s)",
  "",
  "Usage: offer_tracker help [COMMAND]...",
  "",
  "Arguments:",
  "  [COMMAND]...  Print help for the subcommand(s)"]

def hint : String := "For more information, try '--help'."

def generalUsage : String := "offer_tracker <COMMAND>"

def serveUsage : String := "offer_tracker serve"

def ingestUsage : String := "offer_tracker ingest [OPTIONS] <SNAPSHOT>"

def unknownCommand (name : String) : Output :=
  .misuse (lines [s!"error: unrecognized subcommand '{name}'", "", s!"Usage: {generalUsage}", "", hint])

def unexpectedArgument (usage argument : String) : Output :=
  .misuse (lines [s!"error: unexpected argument '{argument}' found", "", s!"Usage: {usage}", "", hint])

def missingValue (place : String) : Output :=
  .misuse (lines [s!"error: a value is required for '{place}' but none was supplied", "", hint])

def missingSnapshot (withRegions : Bool) : Output :=
  let options := if withRegions then "--uf <PARTITIONS> " else ""
  .misuse (lines ["error: the following required arguments were not provided:", "  <SNAPSHOT>", "",
    s!"Usage: offer_tracker ingest {options}<SNAPSHOT>", "", hint])

/-- Letters after one dash are read one by one, so that nothing behind the one for help counts. -/
def isHelp (argument : String) : Bool := argument = "--help" || argument.startsWith "-h"

def isOption (argument : String) : Bool := argument.startsWith "-" && argument ≠ "-"

def joinedValue? (option argument : String) : Option String :=
  let start := option.toList ++ ['=']
  if start.isPrefixOf argument.toList then
    some (String.ofList (argument.toList.drop start.length))
  else none

structure IngestDraft where
  snapshot : Option String := none
  regions : List String := []
  optionsEnded : Bool := false
  deriving DecidableEq, Repr

namespace IngestDraft

def finish (d : IngestDraft) : Except Output Command :=
  match d.snapshot with
  | none => .error (missingSnapshot (!d.regions.isEmpty))
  | some snapshot => .ok (.ingest snapshot d.regions.reverse)

def addSnapshot (d : IngestDraft) (argument : String) : Except Output IngestDraft :=
  if d.snapshot.isSome then .error (unexpectedArgument ingestUsage argument)
  else if argument.isEmpty then .error (missingValue "<SNAPSHOT>")
  else .ok { d with snapshot := some argument }

def addRegion (d : IngestDraft) (region : String) : IngestDraft :=
  { d with regions := region :: d.regions }

def step (d : IngestDraft) (argument : String) : Except Output (IngestDraft × Bool) :=
  if d.optionsEnded then (d.addSnapshot argument).map fun d => (d, false)
  else if argument = "--" then .ok ({ d with optionsEnded := true }, false)
  else if isHelp argument then .error (.success ingestHelp)
  else if argument = "--uf" then .ok (d, true)
  else
    match joinedValue? "--uf" argument with
    | some region => .ok (d.addRegion region, false)
    | none =>
      if isOption argument then .error (unexpectedArgument ingestUsage argument)
      else (d.addSnapshot argument).map fun d => (d, false)

/-- Reads the arguments that are left; the flag says that the first one is the value of an option. -/
def read : IngestDraft → (valueFollows : Bool) → List String → Except Output Command
  | d, false, [] => d.finish
  | _, true, [] => .error (missingValue "--uf <PARTITIONS>")
  | d, true, argument :: rest =>
    if isOption argument then .error (missingValue "--uf <PARTITIONS>")
    else (d.addRegion argument).read false rest
  | d, false, argument :: rest =>
    match d.step argument with
    | .error output => .error output
    | .ok (d, valueFollows) => d.read valueFollows rest

end IngestDraft

def readServe : List String → Except Output Command
  | [] => .ok .serve
  | argument :: _ =>
    if isHelp argument then .error (.success serveHelp)
    else .error (unexpectedArgument serveUsage argument)

def helpOn : List String → Output
  | [] => .success generalHelp
  | "serve" :: _ => .success serveHelp
  | "ingest" :: _ => .success ingestHelp
  | "help" :: _ => .success helpHelp
  | name :: _ => unknownCommand name

def readArguments : List String → Except Output Command
  | [] => .error (.misuse generalHelp)
  | "serve" :: rest => readServe rest
  | "ingest" :: rest => IngestDraft.read {} false rest
  | "help" :: rest => .error (helpOn rest)
  | argument :: _ =>
    if isHelp argument then .error (.success generalHelp)
    else if isOption argument then .error (unexpectedArgument generalUsage argument)
    else .error (unknownCommand argument)

end OfferLedger.CommandLine
