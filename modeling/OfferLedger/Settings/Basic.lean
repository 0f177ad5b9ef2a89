import OfferLedger.Text.Blank
import OfferLedger.Text.Quoted
import OfferLedger.Text.Unsigned
import OfferLedger.Settings.SocketAddress

/-! # Settings

The settings of the program, each from a variable of its own. A variable that is missing or blank
leaves its default. The first variable that is wrong is reported, with its value as it was given. -/
namespace OfferLedger

def maxPageLimit : Nat := 500

structure Settings where
  databasePath : String := "offers.sqlite3"
  address : SocketAddress := .v4 [127, 0, 0, 1] 3000
  maxWorkers : Nat := 8
  pageLimit : Nat := 50
  one_le_maxWorkers : 1 ≤ maxWorkers := by decide
  one_le_pageLimit : 1 ≤ pageLimit := by decide
  pageLimit_le : pageLimit ≤ maxPageLimit := by decide
  deriving DecidableEq, Repr

namespace Settings

inductive Key where
  | databasePath
  | address
  | maxWorkers
  | pageLimit
  deriving DecidableEq, Repr

def Key.name : Key → String
  | databasePath => "OFFERS_DB_PATH"
  | address => "OFFERS_ADDR"
  | maxWorkers => "OFFERS_MAX_WORKERS"
  | pageLimit => "OFFERS_PAGE_LIMIT"

inductive Reason where
  | badAddress
  | badNumber (cause : Text.UnsignedError)
  | noWorkers
  | pageOutOfRange
  deriving DecidableEq, Repr

def Reason.message : Reason → String
  | .badAddress => "invalid socket address syntax"
  | .badNumber cause => cause.message
  | .noWorkers => "must be at least 1"
  | .pageOutOfRange => s!"must be between 1 and {maxPageLimit}"

structure Invalid where
  key : Key
  value : String
  reason : Reason
  deriving DecidableEq, Repr

def Invalid.message (e : Invalid) : String :=
  s!"{e.key.name} is not valid: {Text.quoted e.value} ({e.reason.message})"

/-- The value of a variable, unless it is blank. -/
def value? (lookup : String → Option String) (k : Key) : Option String :=
  (lookup k.name).filter fun s => !Text.isBlankText s

def readWith (lookup : String → Option String) (k : Key)
    (read : List Char → Except Reason α) : Except Invalid (Option α) :=
  match value? lookup k with
  | none => .ok none
  | some s =>
    match read (Text.trim s.toList) with
    | .ok a => .ok (some a)
    | .error reason => .error ⟨k, s, reason⟩

def readAddress (cs : List Char) : Except Reason SocketAddress :=
  match SocketAddress.parse? cs with
  | some address => .ok address
  | none => .error .badAddress

def readNumber (bound : Nat) (cs : List Char) : Except Reason Nat :=
  match Text.parseUnsigned bound cs with
  | .ok n => .ok n
  | .error e => .error (.badNumber e)

def readWorkers (cs : List Char) : Except Reason { n : Nat // 1 ≤ n } := do
  let n ← readNumber Text.bound64 cs
  if h : 1 ≤ n then .ok ⟨n, h⟩ else .error .noWorkers

def readPageLimit (cs : List Char) : Except Reason { n : Nat // 1 ≤ n ∧ n ≤ maxPageLimit } := do
  let n ← readNumber Text.bound32 cs
  if h : 1 ≤ n ∧ n ≤ maxPageLimit then .ok ⟨n, h⟩ else .error .pageOutOfRange

def ofLookup (lookup : String → Option String) : Except Invalid Settings := do
  let standard : Settings := {}
  let path := (value? lookup .databasePath).map Text.trimmed
  let address ← readWith lookup .address readAddress
  let workers ← readWith lookup .maxWorkers readWorkers
  let pageLimit ← readWith lookup .pageLimit readPageLimit
  let workers := workers.getD ⟨standard.maxWorkers, standard.one_le_maxWorkers⟩
  let pageLimit := pageLimit.getD ⟨standard.pageLimit, standard.one_le_pageLimit, standard.pageLimit_le⟩
  .ok {
    databasePath := path.getD standard.databasePath
    address := address.getD standard.address
    maxWorkers := workers.1
    pageLimit := pageLimit.1
    one_le_maxWorkers := workers.2
    one_le_pageLimit := pageLimit.2.1
    pageLimit_le := pageLimit.2.2 }

end Settings
end OfferLedger
