import OfferLedger.Keyed
import OfferLedger.Reconcile.Program

/-! # Reconciliation

A batch of listings is the complete present contents of a region. Reconciling appends the fewest
revisions that bring the histories to it: an insertion for an unknown offer, an update for one that
changed or was inactive, nothing but a mark for one that is as before, and a deletion for every other
active offer of the region. Each step is one call of its own, so a run can stop between two of
them. -/
namespace OfferLedger

/-- One listing for each source id: at its first place, with its last contents. -/
def lastWins (listings : List Listing) : List Listing :=
  (Keyed.ofList (listings.map fun l => (l.sourceId, l))).values

/-- What is to be written for the listings of a batch; each list keeps their order. -/
structure Plan where
  inserts : List Entry
  updates : List Entry
  touches : List SourceId
  deriving DecidableEq, Repr

namespace Plan

def insertOf? (known : SourceId → Option Known) (l : Listing) : Option Entry :=
  match known l.sourceId with
  | none => some ⟨l, 1, .insert⟩
  | some _ => none

def updateOf? (known : SourceId → Option Known) (l : Listing) : Option Entry :=
  match known l.sourceId with
  | none => none
  | some k => if k.changed then some ⟨l, k.latestVersion + 1, .update⟩ else none

def touchOf? (known : SourceId → Option Known) (l : Listing) : Option SourceId :=
  match known l.sourceId with
  | none => none
  | some k => if k.changed then none else some l.sourceId

def classify (known : SourceId → Option Known) (listings : List Listing) : Plan where
  inserts := listings.filterMap (insertOf? known)
  updates := listings.filterMap (updateOf? known)
  touches := listings.filterMap (touchOf? known)

end Plan

structure Counts where
  created : Nat
  updated : Nat
  skipped : Nat
  removed : Nat
  deriving DecidableEq, Repr

def Counts.toJson (c : Counts) : Json :=
  .obj [("created", .nat c.created), ("updated", .nat c.updated), ("skipped", .nat c.skipped),
    ("removed", .nat c.removed)]

/-- The calls of one run. A call that has nothing to write is left out, but its step is reported. -/
def reconcile (partition : PartitionKey) (listings : List Listing) (batch : BatchId) :
    Program Counts := do
  let incoming := lastWins listings
  Program.tell (.classifying incoming.length)
  let known ← Program.perform (.find incoming)
  let plan := Plan.classify (Keyed.get? known) incoming
  Program.tell (.classified plan.inserts.length plan.updates.length plan.touches.length)
  Program.tell (.inserting plan.inserts.length)
  unless plan.inserts.isEmpty do Program.perform (.append plan.inserts batch)
  Program.tell (.updating plan.updates.length)
  unless plan.updates.isEmpty do Program.perform (.append plan.updates batch)
  Program.tell (.touching plan.touches.length)
  unless plan.touches.isEmpty do Program.perform (.touch plan.touches batch)
  Program.tell .removing
  let removed ← Program.perform (.removeMissing partition (incoming.map (·.sourceId)) batch)
  return ⟨plan.inserts.length, plan.updates.length, plan.touches.length, removed⟩

end OfferLedger
