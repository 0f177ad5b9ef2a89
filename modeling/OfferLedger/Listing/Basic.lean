import OfferLedger.Text.Blank
import OfferLedger.Text.Upper
import OfferLedger.Json.Value
import OfferLedger.Listing.Field

/-! # Listings

A listing is an auction offer as a snapshot gives it: a source id, seven texts and three decimals.
Two listings are equal when nothing that a filter can see differs. A listing of a snapshot is
normalised before it is used, and is refused when it cannot be identified or put into a region. -/
namespace OfferLedger

abbrev SourceId := String

/-- The region whose offers are reconciled together, named by its `uf`. -/
abbrev PartitionKey := String

structure Listing where
  sourceId : SourceId
  uf : String
  city : String := ""
  neighborhood : String := ""
  address : String := ""
  description : String := ""
  propertyType : String := ""
  sellingType : String := ""
  askingPrice : Decimal := .zero
  evaluationPrice : Decimal := .zero
  discountPercent : Decimal := .zero
  deriving DecidableEq, Repr

namespace Listing

def value (l : Listing) : Field → Value
  | .uf => .text l.uf
  | .city => .text l.city
  | .neighborhood => .text l.neighborhood
  | .address => .text l.address
  | .description => .text l.description
  | .propertyType => .text l.propertyType
  | .sellingType => .text l.sellingType
  | .askingPrice => .number l.askingPrice
  | .evaluationPrice => .number l.evaluationPrice
  | .discountPercent => .number l.discountPercent

theorem kind_value (l : Listing) (f : Field) : (l.value f).kind = f.kind := by cases f <;> rfl

inductive Invalid where
  | missingSourceId
  | missingUf (sourceId : SourceId)
  deriving DecidableEq, Repr

def Invalid.message : Invalid → String
  | .missingSourceId => "Missing or empty source id"
  | .missingUf id => s!"Missing uf for offer {id}"

end Listing

/-- The key of a region is its code without surrounding blanks, in upper case. -/
def PartitionKey.ofText (s : String) : PartitionKey :=
  String.ofList (Text.upper (Text.trim s.toList))

namespace Listing

def normalized (l : Listing) : Except Invalid Listing :=
  let sourceId := Text.trimmed l.sourceId
  let uf := PartitionKey.ofText l.uf
  if sourceId.isEmpty then .error .missingSourceId
  else if uf.isEmpty then .error (.missingUf sourceId)
  else
    .ok { l with
      sourceId := sourceId
      uf := uf
      city := Text.trimmed l.city
      neighborhood := Text.trimmed l.neighborhood
      address := Text.trimmed l.address
      description := Text.trimmed l.description
      propertyType := Text.trimmed l.propertyType
      sellingType := Text.trimmed l.sellingType }

def toFields (l : Listing) : List (String × Json) :=
  ("sourceId", .str l.sourceId) :: Field.all.map fun f =>
    (f.name, match l.value f with
      | .text s => .str s
      | .number d => .str (toString d))

def toJson (l : Listing) : Json := .obj l.toFields

end Listing
end OfferLedger
