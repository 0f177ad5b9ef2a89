import OfferLedger.Proofs.Failing
import OfferLedger.Proofs.Ledger.Recording

/-! # Writing to a sound ledger

An insertion or an update is accepted exactly when it continues the history of its offer. Every write
keeps the ledger sound, whatever fails on the way. -/
namespace OfferLedger.Ledger

theorem length_histories (l : Ledger) (id : SourceId) :
    (l.histories id).length = (l.history id).length :=
  List.length_map _

theorem orConflict_eq_ok {e : Entry} {o : Option Ledger} {l : Ledger}
    (h : orConflict e o = .ok l) : o = some l := by
  cases o with
  | none => cases h
  | some l' =>
    cases h
    rfl

theorem addHead_eq_some {c : Conditions} {l l' : Ledger} {listing : Listing} {batch : BatchId}
    (h : l.addHead c listing batch = some l') :
    l.head? listing.sourceId = none ∧
      l' = { l with
        heads := l.heads ++ [⟨listing.sourceId, listing.uf, 1, true, c.now, c.now, batch⟩] } := by
  unfold addHead at h
  split at h
  · cases h
  · rename_i hnone
    cases h
    exact ⟨by simpa using hnone, rfl⟩

section

variable {l l' : Ledger} {c : Conditions} {batch : BatchId} {e : Entry}

theorem grown_of_appendOne (hd : (l.heads.map (·.sourceId)).Nodup)
    (h : appendOne c batch l e = .ok l') :
    e.version = l.headVersion e.listing.sourceId + 1 ∧ l.hasBatch batch = true ∧
      Grown l (rowOf c batch e) (headAfter c batch e (l.head? e.listing.sourceId)) l' := by
  obtain ⟨l₁, hr, h⟩ := bind_eq_ok h
  obtain ⟨-, -, hb, rfl⟩ := record_eq_ok hr
  have ho := orConflict_eq_ok h
  unfold headVersion
  split at ho
  · rename_i hone
    obtain ⟨hnone, rfl⟩ := addHead_eq_some ho
    change l.head? e.listing.sourceId = none at hnone
    rw [hnone]
    refine ⟨hone, hb, rfl, rfl, ?_, fun id => ?_⟩
    · change ((l.heads ++ [_]).map fun h : Head => h.sourceId).Nodup
      rw [List.map_append, List.nodup_append]
      refine ⟨hd, List.nodup_singleton _, fun a ha b hb' => ?_⟩
      rw [List.mem_singleton.mp hb']
      rintro rfl
      obtain ⟨h, hm, hid⟩ := List.mem_map.mp ha
      have := head?_of_mem hd hm
      rw [hid, hnone] at this
      cases this
    · refine (head?_append_singleton (l.recorded c batch e) _ id).trans ?_
      change (l.head? id).or (if e.listing.sourceId = id then _ else none) =
        if e.listing.sourceId = id then _ else _
      split
      · rename_i hid
        rw [← hid, hnone]
        rfl
      · rw [Option.or_none]
  · obtain ⟨h₀, hh, hat, hg⟩ := grown_of_moveHead hd ho fun _ => rfl
    rw [hh]
    refine ⟨?_, hb, hg⟩
    change e.version = h₀.latestVersion + 1
    omega

end

section

variable {l l' : Ledger} {c : Conditions} {batch : BatchId} {e : Entry} (hs : l.Sound)
include hs

theorem Sound.headVersion_eq (id : SourceId) : l.headVersion id = (l.history id).length := by
  unfold headVersion
  cases hh : l.head? id with
  | none =>
    rw [(hs.head?_eq_none_iff id).mp hh]
    rfl
  | some h => exact hs.latestVersion hh

theorem Sound.row?_eq_none_of_fits (hf : l.histories.Fits e) :
    l.row? e.listing.sourceId e.version = none := by
  rw [← Option.not_isSome_iff_eq_none, hs.row?_isSome_iff]
  have hv : e.version = (l.histories e.listing.sourceId).length + 1 := hf
  rw [length_histories] at hv
  omega

/-- What is appended continues its history: no write gets past the guards otherwise. -/
theorem Sound.of_appendOne (h : appendOne c batch l e = .ok l') :
    l.histories.Fits e ∧ l.hasBatch batch = true ∧
      Grown l (rowOf c batch e) (headAfter c batch e (l.head? e.listing.sourceId)) l' := by
  obtain ⟨hv, hb, hg⟩ := grown_of_appendOne hs.nodup h
  refine ⟨?_, hb, hg⟩
  rw [Histories.Fits, length_histories, ← hs.headVersion_eq]
  exact hv

theorem Sound.appendOne_of_fits (hc : c.faults = []) (hb : l.hasBatch batch = true)
    (hf : l.histories.Fits e) : ∃ l', appendOne c batch l e = .ok l' := by
  have hv : e.version = (l.histories e.listing.sourceId).length + 1 := hf
  rw [length_histories] at hv
  have hrow := record_of_free hc hb (by omega) (hs.row?_eq_none_of_fits hf)
  unfold appendOne
  rw [hrow]
  change ∃ l', orConflict e (if e.version = 1 then _ else _) = .ok l'
  split
  · rename_i hone
    have hnone : l.head? e.listing.sourceId = none := by
      rw [hs.head?_eq_none_iff, ← List.length_eq_zero_iff]
      omega
    refine ⟨_, congrArg (orConflict e) (if_neg ?_)⟩
    change ¬ (l.head? e.listing.sourceId).isSome
    rw [hnone]
    exact Bool.false_ne_true
  · rename_i hone
    cases hh : l.head? e.listing.sourceId with
    | none =>
      rw [(hs.head?_eq_none_iff _).mp hh] at hv
      exact absurd hv hone
    | some h =>
      have hat : h.latestVersion = e.version - 1 := by
        have := hs.latestVersion hh
        omega
      obtain ⟨l₂, h₂⟩ := moveHead_of_head? hc batch hh (advance c batch e)
      rw [hat] at h₂
      exact ⟨l₂, congrArg (orConflict e) h₂⟩

theorem Sound.appendOne_of_not_fits (hc : c.faults = []) (hb : l.hasBatch batch = true)
    (hv : 1 ≤ e.version) (hf : ¬ l.histories.Fits e) :
    appendOne c batch l e = .error e.conflict := by
  unfold appendOne
  cases hrow : l.row? e.listing.sourceId e.version with
  | some row =>
    rw [record_of_taken hc hv (by rw [hrow]; rfl)]
    rfl
  | none =>
    -- The version leaves a gap, so the head is not at the version before it.
    have hgap : (l.history e.listing.sourceId).length + 1 < e.version := by
      have hfree := hs.row?_isSome_iff e.listing.sourceId e.version
      rw [hrow] at hfree
      have hne : e.version ≠ (l.history e.listing.sourceId).length + 1 := by
        rw [← length_histories]
        exact hf
      simp at hfree
      omega
    rw [record_of_free hc hb hv hrow]
    change orConflict e (if e.version = 1 then _ else _) = _
    rw [if_neg (by omega)]
    cases hm : (l.recorded c batch e).moveHead c e.listing.sourceId (e.version - 1)
      (advance c batch e) with
    | none => rfl
    | some l₂ =>
      obtain ⟨h₀, hh, hat, -⟩ := grown_of_moveHead hs.nodup hm fun _ => rfl
      have := hs.latestVersion hh
      omega

theorem Sound.standing_headAfter (hop : e.operation ≠ .delete) (hf : l.histories.Fits e) :
    (headAfter c batch e (l.head? e.listing.sourceId)).standing = (rowOf c batch e).standing := by
  have hlive : (e.revision batch).isDelete = false := decide_eq_false hop
  cases hh : l.head? e.listing.sourceId with
  | none =>
    have hv : e.version = (l.histories e.listing.sourceId).length + 1 := hf
    rw [length_histories, (hs.head?_eq_none_iff _).mp hh] at hv
    change Standing.mk 1 e.listing.uf true = ⟨e.version, e.listing.uf, !(e.revision batch).isDelete⟩
    rw [hlive, hv]
    rfl
  | some h₀ =>
    change Standing.mk e.version e.listing.uf true = ⟨_, _, !(e.revision batch).isDelete⟩
    rw [hlive]
    rfl

theorem Sound.after_appendOne (hop : e.operation ≠ .delete) (h : appendOne c batch l e = .ok l') :
    Kept l l' ∧ l'.histories = l.histories.grown batch [e] := by
  obtain ⟨hf, -, hg⟩ := hs.of_appendOne h
  refine ⟨hs.grown hg hf (hs.standing_headAfter hop hf) ?_, hg.histories⟩
  cases l.head? e.listing.sourceId <;> rfl

end

theorem grown_of_removeOne {l l' : Ledger} {c : Conditions} {batch : BatchId} {e : Entry}
    (hd : (l.heads.map (·.sourceId)).Nodup) (h : removeOne c batch l e = .ok l') :
    ∃ h₀, l.head? e.listing.sourceId = some h₀ ∧ h₀.latestVersion = e.version - 1 ∧
      Grown l (rowOf c batch e) (deactivate e h₀) l' := by
  obtain ⟨l₁, hr, h⟩ := bind_eq_ok h
  obtain ⟨-, -, -, rfl⟩ := record_eq_ok hr
  exact grown_of_moveHead hd (orConflict_eq_ok h) fun _ => rfl

section

variable {l l' : Ledger} {c : Conditions} {batch : BatchId} {r : Revision} (hs : l.Sound)
include hs

theorem Sound.of_removeOne {e : Entry} (h : removeOne c batch l e = .ok l') :
    ∃ h₀, l.head? e.listing.sourceId = some h₀ ∧ l.histories.Fits e ∧
      Grown l (rowOf c batch e) (deactivate e h₀) l' := by
  obtain ⟨h₀, hh, hat, hg⟩ := grown_of_removeOne hs.nodup h
  have hlatest := hs.latestVersion hh
  refine ⟨h₀, hh, ?_, hg⟩
  rw [Histories.Fits, length_histories]
  omega

theorem Sound.after_removeOne (hr : (l.histories r.sourceId).getLast? = some r)
    (h : removeOne c batch l r.removal = .ok l') :
    Kept l l' ∧ l'.histories = l.histories.grown batch [r.removal] := by
  obtain ⟨h₀, hh, hf, hg⟩ := hs.of_removeOne h
  refine ⟨hs.grown hg hf ?_ ?_, hg.histories⟩
  · obtain ⟨row, hrow, hst⟩ := hs.exists_latest hh
    rw [histories, List.getLast?_map] at hr
    change (l.history r.sourceId).getLast? = some row at hrow
    rw [hrow] at hr
    have hrev : row.revision = r := Option.some.inj hr
    have huf : r.listing.uf = h₀.uf := by
      rw [← hrev]
      exact congrArg Standing.uf hst
    change Standing.mk r.removal.version h₀.uf false = ⟨_, r.listing.uf, false⟩
    rw [huf]
    rfl
  · rw [hh]
    rfl

theorem Sound.removeOne_of_latest (hc : c.faults = []) (hb : l.hasBatch batch = true)
    (hr : (l.histories r.sourceId).getLast? = some r) :
    ∃ l', removeOne c batch l r.removal = .ok l' := by
  have hlatest : l.view.latest? r.sourceId = some r := hr
  have hv : r.version = (l.histories r.sourceId).length := hs.consistent.version_latest hlatest
  have hf : l.histories.Fits r.removal := congrArg (· + 1) hv
  have hrow := record_of_free (e := r.removal) hc hb
    (by change 1 ≤ r.version + 1; omega) (hs.row?_eq_none_of_fits hf)
  rw [length_histories] at hv
  cases hh : l.head? r.sourceId with
  | none =>
    rw [histories, (hs.head?_eq_none_iff _).mp hh] at hr
    cases hr
  | some h =>
    obtain ⟨l₂, h₂⟩ := moveHead_of_head? (e := r.removal) hc batch hh (deactivate r.removal)
    have hat : h.latestVersion = r.removal.version - 1 := by
      have := hs.latestVersion hh
      change h.latestVersion = r.version + 1 - 1
      omega
    rw [hat] at h₂
    refine ⟨l₂, ?_⟩
    unfold removeOne
    rw [hrow]
    exact congrArg (orConflict r.removal) h₂

end
end OfferLedger.Ledger
