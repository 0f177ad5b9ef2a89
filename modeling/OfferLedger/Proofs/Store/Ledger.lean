import OfferLedger.Ledger.Batches
import OfferLedger.Proofs.Ledger.Calls

/-! # The ledger is a store

A ledger on which nothing fails answers as its histories say. Calls that fail, and batches that are
opened and closed in between, keep it sound. -/
namespace OfferLedger.Ledger

def store (now : Timestamp) : Store Ledger where
  repository := repository ⟨now, []⟩
  view := view
  Sound := Sound
  HasBatch l batch := l.hasBatch batch = true
  consistent := Sound.consistent
  call := by
    intro l hs call hlive
    have hk := hs.call ⟨now, []⟩ hlive
    exact ⟨hk.sound, fun batch => by rw [hk.hasBatch_eq]⟩
  find := by
    intro l hs listings
    obtain ⟨known, h, hknown⟩ := hs.find_eq listings
    exact ⟨known, Prod.ext h rfl, hknown⟩
  append := by
    intro l entries batch hs hb hw hf
    obtain ⟨l', h, hh⟩ := hs.append_of_fits (c := ⟨now, []⟩) rfl hb hw.1
      (fun e he => (hw.2 e he).2) hf
    refine ⟨l', ?_, hh⟩
    rw [repository, h]
    rfl
  conflict := by
    intro l entries batch e hs hb hw he
    rw [repository, hs.append_of_conflict (c := ⟨now, []⟩) rfl hb hw.1 hw.2 he]
    rfl
  touch := by
    intro l batch _ hb ids
    refine ⟨l.touched now batch ids, ?_, rfl⟩
    rw [repository, touch_of_batch (c := ⟨now, []⟩) List.not_mem_nil hb]
    rfl
  removeMissing := by
    intro l batch hs hb partition ids
    rcases hs.removeMissing_eq ⟨now, []⟩ partition ids batch with ⟨hfail, -⟩ | ⟨n, l', h, -, hn, hh⟩
    · exact absurd ⟨rfl, hb⟩ hfail
    · refine ⟨n, l', ?_, hn, hh⟩
      rw [repository, h]
      rfl

theorem startBatch_eq_ok {l l' : Ledger} {c : Conditions} {partition : PartitionKey}
    {digest : Option String} {batch : BatchId}
    (h : l.startBatch c partition digest = .ok (batch, l')) :
    batch = l.batches.length + 1 ∧
      l' = { l with batches := l.batches ++ [⟨batch, partition, digest, c.now, none⟩] } := by
  unfold startBatch at h
  split at h
  · cases h
  · cases h
    exact ⟨rfl, rfl⟩

theorem finishBatch_eq_ok {l l' : Ledger} {c : Conditions} {batch : BatchId} {listingsSeen : Nat}
    {outcome : BatchOutcome} (h : l.finishBatch c batch listingsSeen outcome = .ok l') :
    l' = { l with batches := l.batches.map fun b =>
      if b.id = batch then { b with closing := some ⟨c.now, listingsSeen, outcome⟩ } else b } := by
  unfold finishBatch at h
  split at h
  · cases h
  · cases h
    rfl

theorem Sound.withBatches {l : Ledger} (hs : l.Sound) (batches : List Batch) :
    Sound { l with batches := batches } :=
  ⟨hs.nodup, hs.numbered, hs.undamaged, hs.latest, hs.first⟩

theorem sound_empty : Ledger.empty.Sound :=
  ⟨List.nodup_nil, Histories.numbered_empty, fun _ h => by simp [empty] at h, fun _ => rfl,
    fun _ => rfl⟩

/-- The ledgers that live calls lead to, whatever fails, with batches opened and closed in between. -/
inductive Reachable : Ledger → Prop where
  | empty : Reachable Ledger.empty
  | call {l} (c : Conditions) {call : Call} : Reachable l → call.Live →
      Reachable (repository c call l).2
  | startBatch {l l'} {c : Conditions} {partition : PartitionKey} {digest : Option String}
      {batch : BatchId} : Reachable l → l.startBatch c partition digest = .ok (batch, l') →
      Reachable l'
  | finishBatch {l l'} {c : Conditions} {batch : BatchId} {listingsSeen : Nat}
      {outcome : BatchOutcome} : Reachable l →
      l.finishBatch c batch listingsSeen outcome = .ok l' → Reachable l'

theorem Reachable.sound {l : Ledger} (h : l.Reachable) : l.Sound := by
  induction h with
  | empty => exact sound_empty
  | call c _ hlive ih => exact (ih.call c hlive).sound
  | startBatch _ h ih =>
    obtain ⟨-, rfl⟩ := startBatch_eq_ok h
    exact ih.withBatches _
  | finishBatch _ h ih =>
    obtain rfl := finishBatch_eq_ok h
    exact ih.withBatches _

end OfferLedger.Ledger
