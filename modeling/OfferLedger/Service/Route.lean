import OfferLedger.Ledger.Batches
import OfferLedger.Service.Page

/-! # Routes

There are three things to ask for: a page of offers, the recent batches, and the history of one offer,
whose source id is one escaped segment of the path. -/
namespace OfferLedger.Service

open Text (after? before?)

inductive Route where
  | offers
  | batches
  | history (id : SourceId)
  deriving DecidableEq, Repr

namespace Route

/-- The id between `/offers/` and `/history`. It is one segment before it is decoded, and a text
afterwards. -/
def historyId? (path : List UInt8) : Option SourceId := do
  let segment ← before? (Text.utf8 "/history") (← after? (Text.utf8 "/offers/") path)
  if segment.isEmpty || segment.contains slash then none
  else Text.ofUtf8? (Text.percentDecode segment)

def ofPath? (path : List UInt8) : Option Route :=
  if path = Text.utf8 "/offers" then some offers
  else if path = Text.utf8 "/batches" then some batches
  else (historyId? path).map history

end Route

def handle (l : Ledger) (pageLimit : Nat) (query : Option (List UInt8)) :
    Route → Except Failure Json
  | .offers => do
    (← PageRequest.ofForm pageLimit (Form.parse (query.getD []))).answer l
  | .batches => .ok (.arr (l.recentBatches.map (·.toJson)))
  | .history id =>
    match l.readHistory id with
    | .error e => .error (.database e)
    | .ok [] => .error .notFound
    | .ok rows => .ok (.arr (rows.map (·.toJson)))

def respond (l : Ledger) (pageLimit : Nat) (method : String) (target : Target) : Response :=
  match if method = "GET" then Route.ofPath? target.path else none with
  | none => Failure.notFound.toResponse
  | some route =>
    match handle l pageLimit target.query route with
    | .ok body => .ok body
    | .error e => e.toResponse

end OfferLedger.Service
