import OfferLedger.Keyed
import OfferLedger.Listing.Basic

/-! # Removing repetitions in one pass

A batch may name an offer more than once. One pass over it remembers at which place of the result each
source id stands, writes a later listing over the earlier one, and counts how often it did so. -/
namespace OfferLedger

structure Deduped where
  places : Keyed SourceId Nat := []
  listings : List Listing := []
  duplicates : Nat := 0
  deriving DecidableEq, Repr

/-- A place outside of the result cannot be written to, and the pass stops there. -/
def Deduped.add (d : Deduped) (l : Listing) : Option Deduped :=
  match d.places.get? l.sourceId with
  | some i =>
    if i < d.listings.length then
      some { d with listings := d.listings.set i l, duplicates := d.duplicates + 1 }
    else none
  | none =>
    some { d with
      places := d.places.put l.sourceId d.listings.length
      listings := d.listings ++ [l] }

def deduplicate (listings : List Listing) : Option Deduped := listings.foldlM Deduped.add {}

end OfferLedger
