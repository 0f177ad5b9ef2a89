import OfferLedger.Proofs.Failing
import OfferLedger.Proofs.Ledger.Recording

/-! # Touching

The chunks of a call are touched one after another, with one time and one batch. Wherever they end,
together they do what one pass over the heads does, and the listed ids that have no head do nothing. -/
namespace OfferLedger

def Head.seen (h : Head) (now : Timestamp) (batch : BatchId) : Head :=
  { h with lastSeen := now, lastSeenBatch := batch }

namespace Ledger

/-- The ledger in which the heads of some offers were seen again. -/
def touched (l : Ledger) (now : Timestamp) (batch : BatchId) (ids : List SourceId) : Ledger :=
  { l with heads := l.heads.map fun h => if h.sourceId ∈ ids then h.seen now batch else h }

variable {l l' : Ledger} {c : Conditions} {batch : BatchId} {ids : List SourceId}

theorem touched_of_notMem (now : Timestamp) (batch : BatchId)
    (hnone : ∀ h ∈ l.heads, h.sourceId ∉ ids) : l.touched now batch ids = l := by
  have hsame : l.heads.map (fun h => if h.sourceId ∈ ids then h.seen now batch else h) = l.heads := by
    refine (List.map_congr_left fun h hm => ?_).trans (List.map_id _)
    exact if_neg (hnone h hm)
  rw [touched, hsame]

theorem touched_touched (l : Ledger) (now : Timestamp) (batch : BatchId) (a b : List SourceId) :
    (l.touched now batch a).touched now batch b = l.touched now batch (a ++ b) := by
  simp only [touched, List.map_map]
  congr 1
  refine List.map_congr_left fun h _ => ?_
  by_cases ha : h.sourceId ∈ a <;> by_cases hb : h.sourceId ∈ b <;> simp [ha, hb, Head.seen]

theorem sourceId_seenIn (now : Timestamp) (batch : BatchId) (ids : List SourceId) (h : Head) :
    (if h.sourceId ∈ ids then h.seen now batch else h).sourceId = h.sourceId := by
  split <;> rfl

theorem ids_touched (l : Ledger) (now : Timestamp) (batch : BatchId) (ids : List SourceId) :
    (l.touched now batch ids).heads.map (·.sourceId) = l.heads.map (·.sourceId) := by
  rw [touched, List.map_map]
  exact List.map_congr_left fun h _ => sourceId_seenIn now batch ids h

theorem head?_touched (l : Ledger) (now : Timestamp) (batch : BatchId) (ids : List SourceId)
    (id : SourceId) : (l.touched now batch ids).head? id =
      if id ∈ ids then (l.head? id).map (·.seen now batch) else l.head? id := by
  rw [head?, touched, find?_map_heads _ _ (sourceId_seenIn now batch ids)]
  change (l.head? id).map _ = _
  cases hh : l.head? id with
  | none => simp
  | some h =>
    have hid := head?_sourceId hh
    by_cases hm : id ∈ ids <;> simp [hid, hm]

theorem notMem_of_isEmpty_headsOf (h : (l.headsOf ids).isEmpty) : ∀ h ∈ l.heads, h.sourceId ∉ ids := by
  intro head hm
  rw [List.isEmpty_iff, headsOf, List.filter_eq_nil_iff] at h
  simpa using h head hm

theorem touchChunk_eq_ok (h : touchChunk c batch l ids = .ok l') :
    l' = l.touched c.now batch ids := by
  unfold touchChunk at h
  split at h
  · rename_i hempty
    cases h
    exact (touched_of_notMem c.now batch (notMem_of_isEmpty_headsOf hempty)).symm
  · split at h
    · cases h
    · split at h
      · cases h
      · cases h
        simp only [touched, Head.seen, List.contains_iff_mem]

theorem touchChunk_of_batch (hc : Fault.touches ∉ c.faults) (hb : l.hasBatch batch = true)
    (ids : List SourceId) : touchChunk c batch l ids = .ok (l.touched c.now batch ids) := by
  have hok : ∃ l', touchChunk c batch l ids = .ok l' := by
    unfold touchChunk
    split
    · exact ⟨_, rfl⟩
    · rw [if_neg (by simpa using hc), hb]
      exact ⟨_, rfl⟩
  obtain ⟨l', h⟩ := hok
  rw [h, touchChunk_eq_ok h]

theorem touch_eq_ok (h : l.touch c ids batch = .ok l') : l' = l.touched c.now batch ids := by
  rw [← flatten_chunks chunkSize ids]
  refine foldlM_induction (P := fun pieces l' => l' = l.touched c.now batch pieces.flatten) h ?_ ?_
  · exact (touched_of_notMem c.now batch fun _ _ => List.not_mem_nil).symm
  · rintro piece - before l₁ l₂ rfl h₂
    rw [touchChunk_eq_ok h₂, touched_touched, List.flatten_concat]

theorem touch_of_batch (hc : Fault.touches ∉ c.faults) (hb : l.hasBatch batch = true)
    (ids : List SourceId) : l.touch c ids batch = .ok (l.touched c.now batch ids) := by
  have hall : ∀ (pieces : List (List SourceId)) (l : Ledger), l.hasBatch batch = true →
      ∃ l', pieces.foldlM (touchChunk c batch) l = .ok l' := by
    intro pieces
    induction pieces with
    | nil => exact fun l _ => ⟨l, rfl⟩
    | cons piece rest ih =>
      intro l hb
      rw [List.foldlM_cons, touchChunk_of_batch hc hb piece]
      -- Touching leaves the batches alone, so the next chunk finds its batch too.
      exact ih (l.touched c.now batch piece) hb
  obtain ⟨l', h⟩ := hall (chunks chunkSize ids) l hb
  rw [touch, h, touch_eq_ok h]

end Ledger
end OfferLedger
