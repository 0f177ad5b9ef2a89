import OfferLedger.Json.Reader
import OfferLedger.Listing.Basic

/-! # Reading listings from JSON

A listing is an object with its attributes as fields, or a list of its attributes in their order. The
source id and the region are required; a missing text is empty and a missing decimal zero. Fields of
other names are passed over, and a name that was seen before is refused. -/
namespace OfferLedger.Listing

open Json (ReadError Mismatch failAt failIn byte)

/-- The eleven attributes of a listing: its source id and its fields. -/
inductive Attribute where
  | sourceId
  | field (f : Field)
  deriving DecidableEq, Repr

namespace Attribute

def all : List Attribute := sourceId :: Field.all.map field

def name : Attribute → String
  | sourceId => "sourceId"
  | field f => f.name

def kind : Attribute → Kind
  | sourceId => .text
  | field f => f.kind

def isRequired (a : Attribute) : Bool := a == sourceId || a == field .uf

def ofName? (s : String) : Option Attribute := all.find? (·.name == s)

end Attribute

abbrev Draft := List (Attribute × Value)

def Draft.text (draft : Draft) (a : Attribute) : String :=
  match draft.lookup a with
  | some (.text s) => s
  | _ => ""

def Draft.number (draft : Draft) (f : Field) : Decimal :=
  match draft.lookup (.field f) with
  | some (.number d) => d
  | _ => .zero

def Draft.missing (draft : Draft) : Option Attribute :=
  Attribute.all.find? fun a => a.isRequired && (draft.lookup a).isNone

def Draft.toListing (draft : Draft) : Listing where
  sourceId := draft.text .sourceId
  uf := draft.text (.field .uf)
  city := draft.text (.field .city)
  neighborhood := draft.text (.field .neighborhood)
  address := draft.text (.field .address)
  description := draft.text (.field .description)
  propertyType := draft.text (.field .propertyType)
  sellingType := draft.text (.field .sellingType)
  askingPrice := draft.number .askingPrice
  evaluationPrice := draft.number .evaluationPrice
  discountPercent := draft.number .discountPercent

def readValue (kind : Kind) (bytes : List UInt8) : Except ReadError (Value × List UInt8) :=
  match kind with
  | .text => do
    let (s, rest) ← Json.readString bytes
    .ok (.text s, rest)
  | .numeric => do
    let (d, rest) ← Json.readDecimal bytes
    .ok (.number d, rest)

/-- The fields of an object up to its closing brace. Each one takes at least one byte, so the number
of bytes is fuel enough. -/
def readFields : (fuel : Nat) → (first : Bool) → Draft → List UInt8 →
    Except ReadError (Draft × List UInt8)
  | 0, _, _, _ => failAt .endInObject []
  | fuel + 1, first, draft, bytes => do
    let (key, rest) ← Json.nextKey first bytes
    match key with
    | none =>
      match draft.missing with
      | some a => failAt (.mismatch (.missingField a.name)) rest
      | none => .ok (draft, rest)
    | some key =>
      match Attribute.ofName? key with
      | none =>
        let rest ← Json.skipValue (← Json.readColon rest)
        readFields fuel false draft rest
      | some a =>
        if (draft.lookup a).isSome then
          failAt (.mismatch (.duplicateField a.name)) (Json.passObjectEnd rest)
        else
          let (v, rest) ← readValue a.kind (← Json.readColon rest)
          readFields fuel false ((a, v) :: draft) rest

def readElements : List Attribute → (first : Bool) → Draft → List UInt8 →
    Except ReadError (Draft × List UInt8)
  | [], _, draft, bytes => do .ok (draft, ← Json.closeList bytes)
  | a :: rest, first, draft, bytes => do
    let (more, bytes) ← Json.nextElement first bytes
    if more then
      let (v, bytes) ← readValue a.kind bytes
      readElements rest false ((a, v) :: draft) bytes
    else
      let bytes ← Json.closeList bytes
      if a.isRequired then failAt (.mismatch (.tooFewElements draft.length)) bytes
      else .ok (draft, bytes)

def read (bytes : List UInt8) : Except ReadError (Listing × List UInt8) :=
  match Json.skipSpaces bytes with
  | [] => failAt .endInValue []
  | b :: rest =>
    if b = byte '[' then do
      let (draft, rest) ← readElements Attribute.all true [] rest
      .ok (draft.toListing, rest)
    else if b = byte '\x7b' then do
      let (draft, rest) ← readFields (rest.length + 1) true [] rest
      .ok (draft.toListing, rest)
    else Json.failUnexpected .listing (b :: rest)

def readItems : (fuel : Nat) → (first : Bool) → List UInt8 →
    Except ReadError (List Listing × List UInt8)
  | 0, _, _ => failAt .endInList []
  | fuel + 1, first, bytes => do
    let (more, bytes) ← Json.nextElement first bytes
    if more then
      let (l, rest) ← read bytes
      let (ls, rest) ← readItems fuel false rest
      .ok (l :: ls, rest)
    else .ok ([], ← Json.closeList bytes)

def readList (bytes : List UInt8) : Except ReadError (List Listing × List UInt8) :=
  match Json.skipSpaces bytes with
  | [] => failAt .endInValue []
  | b :: rest =>
    if b = byte '[' then readItems (rest.length + 1) true rest
    else Json.failUnexpected .sequence (b :: rest)

def ofJson (bytes : List UInt8) : Except ReadError Listing := Json.readAll read bytes

def listOfJson (bytes : List UInt8) : Except ReadError (List Listing) :=
  Json.readAll readList bytes

end OfferLedger.Listing
