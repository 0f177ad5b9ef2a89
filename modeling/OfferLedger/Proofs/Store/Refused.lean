import OfferLedger.Proofs.Store.InOrder
import OfferLedger.Proofs.Store.Marks

/-! # Entries that memory refuses

The repository in memory checks all entries against the state before the call and then appends them one
after another. The check does not see that two of them are for one offer. So a refusal by the check
leaves everything as it was, and a refusal behind it leaves the entries before the first repetition. -/
namespace OfferLedger
namespace Histories

variable {h : Histories} {before : List Entry} {e : Entry}

/-- Among entries that all fit the same histories, one continues its offer exactly when it is the first
for it. -/
theorem continues_iff_notMem (hn : h.Numbered) (hbefore : ∀ e' ∈ before, h.Fits e') (he : h.Fits e) :
    h.Continues before e ↔ e.listing.sourceId ∉ before.map (·.listing.sourceId) := by
  rw [hn.fits_iff] at he
  unfold Continues versionAfter
  cases hlast : before.reverse.find? (·.listing.sourceId = e.listing.sourceId) with
  | none =>
    have hnot : e.listing.sourceId ∉ before.map (·.listing.sourceId) := by
      simpa using hlast
    simpa [hnot] using he
  | some e' =>
    have hm : e' ∈ before := List.mem_reverse.mp (List.mem_of_find?_eq_some hlast)
    have hid : e'.listing.sourceId = e.listing.sourceId := by simpa using List.find?_some hlast
    have hfits := (hn.fits_iff e').mp (hbefore e' hm)
    have hmem : e.listing.sourceId ∈ before.map (·.listing.sourceId) :=
      List.mem_map.mpr ⟨e', hm, hid⟩
    rw [hid] at hfits
    simp only [Option.map_some, Option.getD_some, hmem, not_true_eq_false, iff_false]
    omega

theorem InOrder.nodup (hn : h.Numbered) (ho : h.InOrder before) (hfits : ∀ e ∈ before, h.Fits e) :
    (before.map (·.listing.sourceId)).Nodup := by
  induction ho with
  | nil => exact List.nodup_nil
  | @concat before e _ he ih =>
    have hbefore : ∀ e' ∈ before, h.Fits e' := fun e' he' => hfits e' (List.mem_append_left _ he')
    have hfit : h.Fits e := hfits e (List.mem_append_right _ (List.mem_singleton_self e))
    have hnot := (continues_iff_notMem hn hbefore hfit).mp he
    rw [List.map_append, List.map_singleton, List.nodup_append]
    refine ⟨ih hbefore, List.nodup_singleton _, ?_⟩
    intro a ha b hb hab
    rw [List.mem_singleton.mp hb] at hab
    exact hnot (hab ▸ ha)

end Histories

namespace MemoryStore

variable {s s' : MemoryStore} {batch : BatchId} {entries before after : List Entry} {e : Entry}

theorem appendAll_append {s₁ : MemoryStore} (h₁ : appendAll batch s before = (.ok (), s₁)) :
    appendAll batch s (before ++ after) = appendAll batch s₁ after := by
  induction before generalizing s with
  | nil =>
    cases h₁
    rfl
  | cons e rest ih =>
    rw [appendAll] at h₁
    rw [List.cons_append, appendAll]
    cases hone : s.appendOne e batch with
    | error err =>
      rw [hone] at h₁
      cases h₁
    | ok s₂ =>
      rw [hone] at h₁
      exact ih h₁

theorem appendAll_of_break (hs : s.Sound) (ho : Histories.InOrder s.history before)
    (he : ¬ Histories.Continues s.history before e) (batch : BatchId) (after : List Entry) :
    ∃ s', appendAll batch s (before ++ e :: after) = (.error e.conflict, s') ∧
      s'.history = Histories.grown s.history batch before ∧
      s'.lastSeenBatch? = Marks.put s.lastSeenBatch? batch (before.map (·.listing.sourceId)) := by
  have happend : Appends (fun s e => s.appendOne e batch) history Sound batch
      (fun revisions e => True ∧ e.version = revisions.length + 1) False :=
    fun s e hs he => .inr (appendOne_of_fits hs batch he.2)
  obtain ⟨s', h, -, hh, hstop⟩ := happend.step_of_break (fun _ hs => hs.numbered)
    (fun _ _ _ _ hf => appendOne_of_not_fits batch hf) hs (fun _ _ => trivial) trivial ho he
  have hbefore := appendAll_of_foldlM h
  refine ⟨s', ?_, hh, lastSeenBatch?_of_appendAll hbefore⟩
  rw [appendAll_append hbefore, appendAll, hstop]

/-- Either an entry does not fit, and then nothing has happened, or all of them fit and an offer is
repeated. Then the entries before the first repetition have been appended and have marked their
offers. -/
theorem Reachable.refused (hs : s.Reachable) {err : RepositoryError}
    (h : repository (.append entries batch) s = (.error err, s')) :
    (s' = s ∧ ∃ e, entries.find? (fun e => ¬ Histories.Fits s.history e) = some e ∧
      err = e.conflict) ∨
    ((∀ e ∈ entries, Histories.Fits s.history e) ∧ ∃ before e after,
      entries = before ++ e :: after ∧ (before.map (·.listing.sourceId)).Nodup ∧
      e.listing.sourceId ∈ before.map (·.listing.sourceId) ∧ err = e.conflict ∧
      s'.history = Histories.grown s.history batch before ∧
      s'.lastSeenBatch? = Marks.put s.lastSeenBatch? batch (before.map (·.listing.sourceId))) := by
  change s.append entries batch = _ at h
  unfold append at h
  cases hfirst : s.firstConflict? entries with
  | some e =>
    rw [hfirst] at h
    cases h
    exact .inl ⟨rfl, e, hfirst, rfl⟩
  | none =>
    rw [hfirst] at h
    have hfits : ∀ e ∈ entries, Histories.Fits s.history e := by
      intro e he
      have hv : e.version = s.nextVersion e.listing.sourceId := by
        simpa using List.find?_eq_none.mp hfirst e he
      exact hv
    have hn := hs.sound.numbered
    have hnot : ¬ Histories.InOrder s.history entries := by
      intro ho
      obtain ⟨s₁, h₁, -⟩ := appendAll_of_fits hs.sound batch (ho.nodup hn hfits) hfits
      rw [h₁] at h
      cases h
    obtain ⟨before, e, after, rfl, ho, he⟩ := Histories.exists_first_break hnot
    obtain ⟨s₁, h₁, hh, hm⟩ := appendAll_of_break hs.sound ho he batch after
    rw [h₁] at h
    cases h
    have hbefore : ∀ e' ∈ before, Histories.Fits s.history e' := fun e' he' =>
      hfits e' (List.mem_append_left _ he')
    have hfit := hfits e (List.mem_append_right _ (List.mem_cons_self ..))
    rw [Histories.continues_iff_notMem hn hbefore hfit, not_not] at he
    exact .inr ⟨hfits, before, e, after, rfl, ho.nodup hn hbefore, he, rfl, hh, hm⟩

/-- Two offers are new, and the first of them comes again. -/
theorem refused_of_repeated :
    let a : Listing := { sourceId := "a", uf := "SP" }
    let b : Listing := { sourceId := "b", uf := "SP" }
    let entries : List Entry := [⟨a, 1, .insert⟩, ⟨b, 1, .insert⟩, ⟨a, 1, .update⟩]
    let s : MemoryStore := {}
    let refused := repository (.append entries 7) s
    (∀ e ∈ entries, Histories.Fits s.history e) ∧ ∃ before e after,
      entries = before ++ e :: after ∧ (before.map (·.listing.sourceId)).Nodup ∧
      e.listing.sourceId ∈ before.map (·.listing.sourceId) ∧
      .versionConflict "a" 1 = e.conflict ∧
      refused.2.history = Histories.grown s.history 7 before ∧
      refused.2.lastSeenBatch? = Marks.put s.lastSeenBatch? 7 (before.map (·.listing.sourceId)) := by
  intro a b entries s refused
  have hresult : refused.1 = .error (.versionConflict "a" 1) := by decide +kernel
  rcases Reachable.refused .empty (Prod.ext hresult rfl : refused = _) with ⟨-, e, he, -⟩ | hafter
  · have hnone : entries.find? (fun e => ¬ Histories.Fits s.history e) = none := by
      decide +kernel
    rw [hnone] at he
    cases he
  · exact hafter

/-- An offer that is given twice in one call is refused and is there all the same. -/
theorem half_applied_in_memory :
    let a : Listing := { sourceId := "a", uf := "SP" }
    let s : MemoryStore := {}
    let refused := repository (.append [⟨a, 1, .insert⟩, ⟨a, 1, .insert⟩] 1) s
    refused.1 = .error (.versionConflict "a" 1) ∧
      s.history "a" = [] ∧ refused.2.history "a" = [⟨1, .insert, 1, a⟩] ∧
      s.isActive "a" = false ∧ refused.2.isActive "a" = true ∧
      s.lastSeenBatch? "a" = none ∧ refused.2.lastSeenBatch? "a" = some 1 := by
  decide +kernel

end MemoryStore
end OfferLedger
