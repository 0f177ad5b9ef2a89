import OfferLedger.Text.Hex
import OfferLedger.Text.Percent
import OfferLedger.Text.Pieces
import OfferLedger.Text.Utf8

/-! # Where a ledger is kept

The place of a ledger is given by a path, or by a location that begins with `file:`. A location may name
this host, ends at a number sign, and may carry options behind a question mark. Its parts are written
with percent escapes. -/
namespace OfferLedger.CommandLine

inductive Access where
  | readOnly
  | existing
  | create
  | memory
  deriving DecidableEq, Repr

namespace Access

def all : List Access := [readOnly, existing, create, memory]

def name : Access → String
  | readOnly => "ro"
  | existing => "rw"
  | create => "rwc"
  | memory => "memory"

def ofName? (s : String) : Option Access := all.find? (·.name == s)

def rank : Access → Nat
  | readOnly => 0
  | existing => 1
  | create => 2
  | memory => 3

/-- An option never gives more rights than there were; memory needs none. -/
def allows (given asked : Access) : Bool := asked = memory || asked.rank ≤ given.rank

end Access

/-- The way in which the file of a ledger is reached: as one of several runs, as the only run, with a file
that tells other runs of this one, without regard to other runs, or not at all. -/
inductive Reach where
  | shared
  | exclusive
  | lockFile
  | unguarded
  | memory
  deriving DecidableEq, Repr

namespace Reach

def all : List Reach := [shared, exclusive, lockFile, unguarded, memory]

def name : Reach → String
  | shared => "unix"
  | exclusive => "unix-excl"
  | lockFile => "unix-dotfile"
  | unguarded => "unix-none"
  | memory => "memdb"

def ofName? (s : String) : Option Reach := all.find? (·.name == s)

end Reach

structure Location where
  path : String
  access : Access := .create
  reach : Reach := .shared
  frozen : Bool := false
  unlocked : Bool := false
  /-- The path of a file whose rights a new file takes over. -/
  pattern : Option String := none
  deriving DecidableEq, Repr

inductive LocationError where
  | otherHost (name : String)
  | unknownMode (kind value : String)
  | accessNotAllowed (value : String)
  | unknownReach (name : String)
  deriving DecidableEq, Repr

def LocationError.message : LocationError → String
  | .otherHost name => s!"invalid uri authority: {name}"
  | .unknownMode kind value => s!"no such {kind} mode: {value}"
  | .accessNotAllowed value => s!"access mode not allowed: {value}"
  | .unknownReach name => s!"no such vfs: {name}"

namespace Location

def isNameless (place : Location) : Bool :=
  place.access = .memory || place.path = "" || place.path = ":memory:"

def inMemory (place : Location) : Bool := place.isNameless || place.reach = .memory

def isWritable (place : Location) : Bool :=
  place.access ≠ .readOnly && (place.isNameless || !place.frozen)

def hasLockFile (place : Location) : Bool := place.reach = .lockFile && !place.unlocked

def isShareable (place : Location) : Bool :=
  !place.unlocked && (place.reach = .shared || place.reach = .exclusive)

/-- A part of a location ends before an escaped zero byte. -/
def unescape (bytes : List UInt8) : List UInt8 := (Text.percentDecode bytes).takeWhile (· ≠ 0)

def decode (bytes : List UInt8) : String := Text.ofUtf8Lossy (unescape bytes)

/-- The path that some bytes spell. If they are no text, private characters stand for the high ones, so
that different paths stay different. -/
def pathOf (bytes : List UInt8) : String :=
  match Text.ofUtf8? bytes with
  | some path => path
  | none =>
    String.ofList (bytes.map fun b => .ofNat (if b < 0x80 then b.toNat else 0x10FF00 + b.toNat))

def option (piece : List UInt8) : String × String :=
  let (name, value) := Text.cutAt 0x3D piece
  (decode name, decode (value.getD []))

def options (query : List UInt8) : List (String × String) :=
  ((Text.pieces 0x26 query).map option).filter fun o => o.1 ≠ ""

def readDigits (base n : Nat) : List UInt8 → Nat
  | [] => n
  | b :: rest =>
    match (Text.hexValue b).filter (· < base) with
    | some digit => readDigits base (base * n + digit) rest
    | none => n

/-- The number that a value begins with, if it begins with a digit. It may be hexadecimal. -/
def numberOf? (value : List UInt8) : Option Nat :=
  match value with
  | 0x30 :: x :: digit :: rest =>
    if (x = 0x78 || x = 0x58) && (Text.hexValue digit).isSome then
      some (readDigits 16 0 (digit :: rest))
    else some (readDigits 10 0 value)
  | b :: _ => if 0x30 ≤ b && b ≤ 0x39 then some (readDigits 10 0 value) else none
  | [] => none

/-- A flag is set by three words in either case, or by a number of at most 31 bits whose last byte is
not zero. -/
def isSet (value : String) : Bool :=
  match numberOf? (Text.utf8 value) with
  | some n => n < 2147483648 && n % 256 ≠ 0
  | none => ["on", "yes", "true"].contains value.toLower

def withOption (place : Location) (o : String × String) : Except LocationError Location :=
  let (name, value) := o
  if name = "mode" then
    match Access.ofName? value with
    | none => .error (.unknownMode "access" value)
    | some asked =>
      if place.access.allows asked then .ok { place with access := asked }
      else .error (.accessNotAllowed value)
  else if name = "cache" then
    if value = "shared" || value = "private" then .ok place else .error (.unknownMode "cache" value)
  else .ok place

def dropHost (bytes : List UInt8) : Except LocationError (List UInt8) :=
  match Text.after? (Text.utf8 "//") bytes with
  | none => .ok bytes
  | some rest =>
    let host := Text.ofUtf8Lossy (rest.takeWhile (· ≠ 0x2F))
    if host = "" || host = "localhost" then .ok (rest.dropWhile (· ≠ 0x2F))
    else .error (.otherHost host)

/-- Of several options for access or reach the last one counts, else the first one. -/
def ofText (s : String) : Except LocationError Location :=
  match Text.after? (Text.utf8 "file:") (Text.utf8 s) with
  | none => .ok { path := s }
  | some rest => do
    let (path, query) := Text.cutAt 0x3F (Text.cutAt 0x23 (← dropHost rest)).1
    let given := options (query.getD [])
    let place ← given.foldlM withOption {
      path := pathOf (unescape path)
      frozen := (given.lookup "immutable").any isSet
      unlocked := (given.lookup "nolock").any isSet
      pattern := given.lookup "modeof" }
    match given.reverse.lookup "vfs" with
    | none => .ok place
    | some name =>
      match Reach.ofName? name with
      | some reach => .ok { place with reach }
      | none => .error (.unknownReach name)

example : isSet "0x1f" ∧ isSet "257" ∧ isSet "1x" ∧ ¬ isSet "256" ∧ ¬ isSet "2147483649" := by
  decide +kernel

end Location
end OfferLedger.CommandLine
