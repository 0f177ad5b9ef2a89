import OfferLedger.Filter.Reading
import OfferLedger.Filter.Sort
import OfferLedger.Repository.Basic

/-! # Responses

What is answered to a request, and what can be wrong with one. An error is answered as an object with
its text, and with an offset into the filter if that could not be read. -/
namespace OfferLedger.Service

structure Response where
  status : Nat
  body : Option Json
  deriving Repr

namespace Response

def ok (body : Json) : Response := ⟨200, some body⟩

/-- A status that is none is answered by an empty response. -/
def failure (status : Nat) (message : String) (offset : Option Nat) : Response :=
  if 100 ≤ status && status ≤ 999 then
    ⟨status, some (.obj (("error", .str message) ::
      (match offset with
        | none => []
        | some n => [("offset", Json.nat n)])))⟩
  else ⟨200, none⟩

def contentType (r : Response) : Option String := r.body.map fun _ => "application/json"

end Response

inductive Failure where
  | notFound
  | badRequest (message : String)
  | filter (cause : Filter.ReadError)
  | sort (cause : SortClause.ParseError)
  | database (cause : DatabaseError)
  | repository (cause : RepositoryError)
  | internal
  deriving DecidableEq, Repr

namespace Failure

def message : Failure → String
  | notFound => "Not Found"
  | badRequest message => message
  | filter cause => cause.message
  | sort cause => s!"invalid sort: {cause.message}"
  | database cause => s!"Database Error: {cause.message}"
  | repository cause => s!"Database Error: {cause.message}"
  | internal => "Internal Server Error"

def status : Failure → Nat
  | notFound => 404
  | badRequest _ | filter _ | sort _ => 400
  | database _ | repository _ | internal => 500

def offset? : Failure → Option Nat
  | filter cause => some cause.offset
  | _ => none

def toResponse (f : Failure) : Response := Response.failure f.status f.message f.offset?

end Failure
end OfferLedger.Service
