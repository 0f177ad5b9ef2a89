import OfferLedger.Text.Blank
import OfferLedger.Listing.Field

/-! # Sort expressions

Clauses between commas, each the name of a field and optionally `asc` or `desc`, with any blanks around
them. Repeated fields are kept; the first one decides. The first clause that is wrong is reported,
and within it the first word that is. -/
namespace OfferLedger

inductive SortField where
  | field (f : Field)
  | createdAt
  deriving DecidableEq, Repr

namespace SortField

def name : SortField → String
  | field f => f.name
  | createdAt => "createdAt"

def column : SortField → String
  | field f => f.column
  | createdAt => "created_at"

def ofName? (s : String) : Option SortField :=
  if s = "createdAt" then some createdAt else (Field.ofName? s).map field

end SortField

inductive Direction where
  | asc
  | desc
  deriving DecidableEq, Repr

def Direction.name : Direction → String
  | .asc => "asc"
  | .desc => "desc"

def Direction.ofName? (s : String) : Option Direction :=
  if s = "asc" then some .asc else if s = "desc" then some .desc else none

structure SortClause where
  field : SortField
  direction : Direction
  deriving DecidableEq, Repr

namespace SortClause

inductive ParseError where
  | empty
  | emptyClause (position : Nat)
  | unknownField (name : String)
  | invalidDirection (field direction : String)
  | trailingInput (clause token : String)
  deriving DecidableEq, Repr

def ParseError.message : ParseError → String
  | .empty => "sort expression must contain at least one field"
  | .emptyClause position => s!"sort clause {position} is empty"
  | .unknownField name => s!"unknown sort field '{name}'"
  | .invalidDirection field direction =>
    s!"invalid sort direction '{direction}' for field '{field}', expected 'asc' or 'desc'"
  | .trailingInput clause token => s!"unexpected '{token}' in sort clause '{clause}'"

def ofWords (position : Nat) (clause : List Char) (words : List String) :
    Except ParseError SortClause :=
  match words with
  | [] => .error (.emptyClause position)
  | name :: rest =>
    match SortField.ofName? name with
    | none => .error (.unknownField name)
    | some field =>
      match rest with
      | [] => .ok ⟨field, .asc⟩
      | word :: rest =>
        match Direction.ofName? word with
        | none => .error (.invalidDirection name word)
        | some direction =>
          match rest with
          | [] => .ok ⟨field, direction⟩
          | token :: _ => .error (.trailingInput (String.ofList (Text.trim clause)) token)

def parseFrom : (position : Nat) → List (List Char) → Except ParseError (List SortClause)
  | _, [] => .ok []
  | position, clause :: rest => do
    let c ← ofWords position clause ((Text.words clause).map String.ofList)
    .ok (c :: (← parseFrom (position + 1) rest))

def parse (input : String) : Except ParseError (List SortClause) :=
  if Text.isBlankText input then .error .empty
  else parseFrom 1 (Text.splitAt ',' input.toList)

def key (c : SortClause) : String :=
  c.field.column ++ (match c.direction with | .asc => " ASC" | .desc => " DESC")

/-- Newest offers first unless clauses are given. -/
def orNewest (clauses : List SortClause) : List SortClause :=
  if clauses.isEmpty then [⟨.createdAt, .desc⟩] else clauses

def orderBy (clauses : List SortClause) : String :=
  "ORDER BY " ++ ", ".intercalate ((orNewest clauses).map key ++ ["source_id ASC"])

end SortClause
end OfferLedger
