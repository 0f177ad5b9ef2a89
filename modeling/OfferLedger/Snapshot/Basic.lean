import OfferLedger.Digest
import OfferLedger.Listing.Reading

/-! # Snapshots

One download of all listings: a JSON list, of which every listing is normalised. A snapshot is refused
as a whole at its first listing that cannot be used. -/
namespace OfferLedger

structure Snapshot where
  listings : List Listing
  digest : Option String := none
  deriving DecidableEq, Repr

namespace Snapshot

inductive ReadError where
  | json (cause : Json.ReadError)
  | invalid (position : Nat) (cause : Listing.Invalid)
  deriving DecidableEq, Repr

def invalidMessage (position : Nat) (cause : Listing.Invalid) : String :=
  s!"listing #{position} is invalid: {cause.message}"

def normalizeFrom : (position : Nat) → List Listing → Except ReadError (List Listing)
  | _, [] => .ok []
  | position, l :: rest =>
    match l.normalized with
    | .error e => .error (.invalid position e)
    | .ok l => (normalizeFrom (position + 1) rest).map (l :: ·)

def ofBytes (bytes : List UInt8) : Except ReadError Snapshot :=
  match Listing.listOfJson bytes with
  | .error e => .error (.json e)
  | .ok listings =>
    (normalizeFrom 0 listings).map fun listings => ⟨listings, some (Digest.sha256 bytes)⟩

end Snapshot
end OfferLedger
