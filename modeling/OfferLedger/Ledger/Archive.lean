import OfferLedger.Ledger.Basic
import OfferLedger.Text.Table
import OfferLedger.Text.Utf8

/-! # The ledger as a file

A ledger is kept as a table with one row for each row of its own tables, after a byte that begins no
text and a row that names the format. A file of at most one byte holds an empty ledger. -/
namespace OfferLedger

inductive Journaling where
  | rollback
  | writeAhead
  deriving DecidableEq, Repr

namespace Journaling

/-- The first byte of the file of a ledger. No text holds it, so no text is taken for a ledger. -/
def mark : Journaling → UInt8
  | rollback => 0xFF
  | writeAhead => 0xFE

def ofMark? (b : UInt8) : Option Journaling := [rollback, writeAhead].find? (·.mark == b)

end Journaling

namespace Archive

def optionText : Option String → String
  | none => "-"
  | some s => "+" ++ s

def option? (s : String) : Option (Option String) :=
  match s.toList with
  | ['-'] => some none
  | '+' :: rest => some (some (String.ofList rest))
  | _ => none

def flagText (b : Bool) : String := if b then "1" else "0"

def flag? (s : String) : Option Bool :=
  if s = "1" then some true else if s = "0" then some false else none

def moment? (s : String) : Option Timestamp := s.toInt?.map Timestamp.mk

def decimal? (s : String) : Option Decimal := s.toInt?.bind Decimal.ofMicros?

def damageText (damage : List Damage) : String :=
  flagText (damage.contains .cityBlob) ++ flagText (damage.contains .priceText)

def damage? (s : String) : Option (List Damage) :=
  match s.toList with
  | [city, price] =>
    some ((if city = '1' then [.cityBlob] else []) ++ if price = '1' then [.priceText] else [])
  | _ => none

def closingCells : Option BatchClosing → List String
  | none => []
  | some c =>
    [toString c.finishedAt.nanos, toString c.listingsSeen] ++
      match c.outcome with
      | .succeeded n => [toString n.created, toString n.updated, toString n.skipped, toString n.removed]
      | .failed message => [message]

def batchCells (b : Batch) : List String :=
  ["batch", toString b.id, b.partition, optionText b.digest, toString b.startedAt.nanos] ++
    closingCells b.closing

def listingCells (l : Listing) : List String :=
  [l.sourceId, l.uf, l.city, l.neighborhood, l.address, l.description, l.propertyType, l.sellingType,
    toString l.askingPrice.micros, toString l.evaluationPrice.micros,
    toString l.discountPercent.micros]

def revisionCells (row : RevisionRow) : List String :=
  ["revision", toString row.version, row.revision.operation.name, toString row.revision.batch,
    toString row.recordedAt.nanos, damageText row.damage] ++ listingCells row.revision.listing

def headCells (h : Head) : List String :=
  ["head", h.sourceId, h.uf, toString h.latestVersion, flagText h.isActive,
    toString h.firstSeen.nanos, toString h.lastSeen.nanos, toString h.lastSeenBatch]

def header : List String := ["offer ledger", "1"]

def rows (l : Ledger) : List (List String) :=
  header :: (l.batches.map batchCells ++ l.revisions.map revisionCells ++ l.heads.map headCells)

def closing? : List String → Option (Option BatchClosing)
  | [] => some none
  | [finished, seen, message] => do
    some (some ⟨← moment? finished, ← seen.toNat?, .failed message⟩)
  | [finished, seen, created, updated, skipped, removed] => do
    let counts : Counts := ⟨← created.toNat?, ← updated.toNat?, ← skipped.toNat?, ← removed.toNat?⟩
    some (some ⟨← moment? finished, ← seen.toNat?, .succeeded counts⟩)
  | _ => none

def listing? : List String → Option Listing
  | [sourceId, uf, city, neighborhood, address, description, propertyType, sellingType, asking,
      evaluation, discount] => do
    some {
      sourceId, uf, city, neighborhood, address, description, propertyType, sellingType
      askingPrice := ← decimal? asking
      evaluationPrice := ← decimal? evaluation
      discountPercent := ← decimal? discount }
  | _ => none

def addRow? (l : Ledger) : List String → Option Ledger
  | "batch" :: id :: partition :: digest :: started :: closing => do
    let b : Batch := ⟨← id.toInt?, partition, ← option? digest, ← moment? started, ← closing? closing⟩
    some { l with batches := l.batches ++ [b] }
  | "revision" :: version :: operation :: batch :: recorded :: damage :: listing => do
    let revision : Revision :=
      ⟨← version.toInt?, ← Operation.ofName? operation, ← batch.toInt?, ← listing? listing⟩
    some { l with
      revisions := l.revisions ++ [⟨revision, ← moment? recorded, ← damage? damage⟩] }
  | ["head", id, uf, version, active, first, last, batch] => do
    let h : Head := ⟨id, uf, ← version.toInt?, ← flag? active, ← moment? first, ← moment? last,
      ← batch.toInt?⟩
    some { l with heads := l.heads ++ [h] }
  | _ => none

def ofRows? : List (List String) → Option Ledger
  | first :: rest => if first = header then rest.foldlM addRow? Ledger.empty else none
  | [] => none

end Archive

namespace Ledger

def toBytes (l : Ledger) (journaling : Journaling) : List UInt8 :=
  journaling.mark :: Text.utf8 (Text.writeTable (Archive.rows l))

def isUnused (bytes : List UInt8) : Bool := bytes.length ≤ 1

def ofBytes? : List UInt8 → Option (Ledger × Journaling)
  | [] => none
  | first :: rest => do
    let journaling ← Journaling.ofMark? first
    let l ← Archive.ofRows? (Text.readTable (← Text.ofUtf8? rest))
    some (l, journaling)

end Ledger
end OfferLedger
