import OfferLedger.Proofs.Store.Ledger

/-! # Faults only stop a call

A call that succeeds although something is wrong with the store does what it would have done with
nothing wrong, and a call that fails does nothing. So no fault leaves a trace of its own. -/
namespace OfferLedger

def Conditions.faultless (c : Conditions) : Conditions := ⟨c.now, []⟩

namespace Ledger

variable {c : Conditions} {batch : BatchId} {l l' : Ledger} {e : Entry}

theorem record_faultless (h : l.record c batch e = .ok l') : l.record c.faultless batch e = .ok l' := by
  unfold record at h
  split at h
  · cases h
  · exact h

theorem moveHead_faultless {id : SourceId} {version : Int} {move : Head → Head}
    (h : l.moveHead c id version move = some l') : l.moveHead c.faultless id version move = some l' := by
  simp only [moveHead] at h ⊢
  split at h
  · rename_i hany
    rw [if_pos]
    · exact h
    · rw [Bool.and_eq_true] at hany
      exact hany.2
  · cases h

theorem appendOne_faultless (h : appendOne c batch l e = .ok l') :
    appendOne c.faultless batch l e = .ok l' := by
  obtain ⟨l₁, hr, h⟩ := bind_eq_ok h
  unfold appendOne
  rw [record_faultless hr]
  have ho := orConflict_eq_ok h
  change orConflict e (if e.version = 1 then l₁.addHead c e.listing batch else
    l₁.moveHead c.faultless e.listing.sourceId (e.version - 1) (advance c batch e)) = .ok l'
  split at ho
  · rename_i hone
    rw [if_pos hone, ho]
    rfl
  · rename_i hone
    rw [if_neg hone, moveHead_faultless ho]
    rfl

theorem removeOne_faultless (h : removeOne c batch l e = .ok l') :
    removeOne c.faultless batch l e = .ok l' := by
  obtain ⟨l₁, hr, h⟩ := bind_eq_ok h
  unfold removeOne
  rw [record_faultless hr]
  change orConflict e (l₁.moveHead c.faultless e.listing.sourceId (e.version - 1) (deactivate e)) = _
  rw [moveHead_faultless (orConflict_eq_ok h)]
  rfl

theorem touchChunk_faultless {ids : List SourceId} (h : touchChunk c batch l ids = .ok l') :
    touchChunk c.faultless batch l ids = .ok l' := by
  unfold touchChunk at h ⊢
  split at h
  · rename_i hnone
    rw [if_pos hnone]
    exact h
  · rename_i hsome
    split at h
    · cases h
    · rw [if_neg hsome]
      exact h

theorem commit_eq_ok {α : Type} {made : Except RepositoryError (α × Ledger)} {a : α}
    (h : l.commit made = (.ok a, l')) : made = .ok (a, l') := by
  cases made with
  | error err => cases h
  | ok p =>
    cases h
    rfl

theorem commit_of_error {α : Type} {made : Except RepositoryError (α × Ledger)}
    {err : RepositoryError} (h : l.commit made = (.error err, l')) : l' = l := by
  cases made with
  | error err =>
    cases h
    rfl
  | ok p => cases h

theorem repository_faultless {call : Call} {reply : call.Reply}
    (h : repository c call l = (.ok reply, l')) : repository c.faultless call l = (.ok reply, l') := by
  cases call with
  | find => exact h
  | append entries batch =>
    have hmade := map_eq_ok (commit_eq_ok h)
    change l.commit ((l.append c.faultless entries batch).map ((), ·)) = _
    rw [append, foldlM_mono (fun _ _ _ => appendOne_faultless) hmade]
    rfl
  | touch ids batch =>
    have hmade := map_eq_ok (commit_eq_ok h)
    change l.commit ((l.touch c.faultless ids batch).map ((), ·)) = _
    rw [touch, foldlM_mono (fun _ _ _ => touchChunk_faultless) hmade]
    rfl
  | removeMissing partition ids batch =>
    obtain ⟨entries, hm, hmade⟩ := bind_eq_ok (commit_eq_ok h)
    obtain ⟨l₁, hrun, hmade⟩ := bind_eq_ok hmade
    cases hmade
    change l.commit (l.removeMissing c.faultless partition ids batch) = _
    rw [removeMissing, hm]
    change l.commit (entries.foldlM (removeOne c.faultless batch) l >>= _) = _
    rw [foldlM_mono (fun _ _ _ => removeOne_faultless) hrun]
    rfl

theorem repository_of_error {call : Call} {err : RepositoryError}
    (h : repository c call l = (.error err, l')) : l' = l := by
  cases call with
  | find => exact (congrArg Prod.snd h).symm
  | append => exact commit_of_error h
  | touch => exact commit_of_error h
  | removeMissing => exact commit_of_error h

end Ledger
end OfferLedger
