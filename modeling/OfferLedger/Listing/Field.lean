import OfferLedger.Decimal.Basic

/-! # The fields of a listing

The ten attributes by which listings are compared, filtered and sorted, with the names they have in
filters, sort expressions and JSON, and the columns that hold them in the store. -/
namespace OfferLedger

inductive Kind where
  | text
  | numeric
  deriving DecidableEq, Repr

def Kind.name : Kind → String
  | .text => "text"
  | .numeric => "numeric"

inductive Field where
  | uf
  | city
  | neighborhood
  | address
  | description
  | propertyType
  | sellingType
  | askingPrice
  | evaluationPrice
  | discountPercent
  deriving DecidableEq, Repr

namespace Field

def all : List Field :=
  [uf, city, neighborhood, address, description, propertyType, sellingType, askingPrice,
    evaluationPrice, discountPercent]

def name : Field → String
  | uf => "uf"
  | city => "city"
  | neighborhood => "neighborhood"
  | address => "address"
  | description => "description"
  | propertyType => "propertyType"
  | sellingType => "sellingType"
  | askingPrice => "askingPrice"
  | evaluationPrice => "evaluationPrice"
  | discountPercent => "discountPercent"

def column : Field → String
  | uf => "uf"
  | city => "city"
  | neighborhood => "neighborhood"
  | address => "address"
  | description => "description"
  | propertyType => "property_type"
  | sellingType => "selling_type"
  | askingPrice => "asking_price"
  | evaluationPrice => "evaluation_price"
  | discountPercent => "discount_percent"

def kind : Field → Kind
  | askingPrice | evaluationPrice | discountPercent => .numeric
  | _ => .text

def ofName? (s : String) : Option Field := all.find? (·.name == s)

end Field

inductive Value where
  | text (s : String)
  | number (d : Decimal)
  deriving DecidableEq, Repr

def Value.kind : Value → Kind
  | .text _ => .text
  | .number _ => .numeric

end OfferLedger
