import OfferLedger.Ledger.Read
import OfferLedger.Service.Response
import OfferLedger.Service.Target
import OfferLedger.Settings.Basic

/-! # Pages of offers

A page is asked for by four values of a form, each optional and, when blank, absent. The first of
filter, sort, limit and offset that is wrong is reported. -/
namespace OfferLedger.Service

structure PageRequest where
  filter : Option Filter
  sort : List SortClause
  limit : Nat
  offset : Nat
  deriving DecidableEq, Repr

namespace PageRequest

def filled? (form : Form) (name : String) : Option String :=
  (form.value? name).filter fun s => !Text.isBlankText s

def readFilter (form : Form) : Except Failure (Option Filter) :=
  match filled? form "filter" with
  | none => .ok none
  | some s =>
    match Filter.parse s with
    | .ok f => .ok (some f)
    | .error e => .error (.filter e)

def readSort (form : Form) : Except Failure (List SortClause) :=
  match filled? form "sort" with
  | none => .ok []
  | some s =>
    match SortClause.parse s with
    | .ok clauses => .ok clauses
    | .error e => .error (.sort e)

def number? (s : String) : Option Nat :=
  (Text.parseUnsigned Text.bound32 (Text.trim s.toList)).toOption

def limitMessage : String := s!"limit must be an integer between 1 and {maxPageLimit}"

def offsetMessage : String := "offset must be a non-negative integer"

def readLimit (pageLimit : Nat) (form : Form) : Except Failure Nat :=
  match filled? form "limit" with
  | none => .ok pageLimit
  | some s =>
    match number? s with
    | some n => if 1 ≤ n && n ≤ maxPageLimit then .ok n else .error (.badRequest limitMessage)
    | none => .error (.badRequest limitMessage)

def readOffset (form : Form) : Except Failure Nat :=
  match filled? form "offset" with
  | none => .ok 0
  | some s =>
    match number? s with
    | some n => .ok n
    | none => .error (.badRequest offsetMessage)

def ofForm (pageLimit : Nat) (form : Form) : Except Failure PageRequest := do
  let filter ← readFilter form
  let sort ← readSort form
  let limit ← readLimit pageLimit form
  let offset ← readOffset form
  .ok ⟨filter, sort, limit, offset⟩

def answer (l : Ledger) (r : PageRequest) : Except Failure Json :=
  match l.query r.filter r.sort r.limit r.offset with
  | .error e => .error (.database e)
  | .ok offers =>
    .ok (.obj [("items", .arr (offers.map (·.toJson))), ("limit", .nat r.limit),
      ("offset", .nat r.offset)])

end PageRequest
end OfferLedger.Service
