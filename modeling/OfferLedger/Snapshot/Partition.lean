import OfferLedger.Listing.Basic

/-! # Regions of a snapshot

Listings are reconciled region by region. Without a request every region of the listings is taken.
With one, exactly the requested regions are, and one that has no listings is taken with none. -/
namespace OfferLedger

namespace PartitionKey

def insert (k : PartitionKey) : List PartitionKey → List PartitionKey
  | [] => [k]
  | x :: rest =>
    if k < x then k :: x :: rest else if x < k then x :: insert k rest else x :: rest

def ascending (keys : List PartitionKey) : List PartitionKey := keys.foldr insert []

/-- The keys of requested regions. Blank requests ask for nothing. -/
def requested (texts : List String) : List PartitionKey :=
  ascending ((texts.map ofText).filter fun k => !k.isEmpty)

end PartitionKey

abbrev Group := PartitionKey × List Listing

def groupKeys (listings : List Listing) (requested : List String) : List PartitionKey :=
  if requested.isEmpty then PartitionKey.ascending (listings.map (·.uf))
  else PartitionKey.requested requested

def groups (listings : List Listing) (requested : List String) : List Group :=
  (groupKeys listings requested).map fun k => (k, listings.filter (·.uf = k))

end OfferLedger
