import OfferLedger.Proofs.Failing
import OfferLedger.Repository.Basic
import Mathlib.Data.List.Nodup

/-! # Growing histories

Histories only grow at their ends. An entry fits when its version is the next one of its offer, and
entries of different offers that fit can be appended one after another in any store. -/
namespace OfferLedger

def Entry.revision (e : Entry) (batch : BatchId) : Revision :=
  ⟨e.version, e.operation, batch, e.listing⟩

def Entry.conflict (e : Entry) : RepositoryError :=
  .versionConflict e.listing.sourceId e.version

abbrev Histories := SourceId → List Revision

namespace Histories

/-- An entry continues the history of its offer. -/
def Fits (h : Histories) (e : Entry) : Prop :=
  e.version = (h e.listing.sourceId).length + 1

instance (h : Histories) (e : Entry) : Decidable (h.Fits e) :=
  inferInstanceAs (Decidable (_ = _))

/-- The histories with the revisions of some entries at their ends. -/
def grown (h : Histories) (batch : BatchId) (entries : List Entry) : Histories := fun id =>
  h id ++ (entries.filter (·.listing.sourceId = id)).map (·.revision batch)

theorem grown_nil (h : Histories) (batch : BatchId) : h.grown batch [] = h := by
  funext id
  simp [grown]

theorem grown_grown (h : Histories) (batch : BatchId) (a b : List Entry) :
    (h.grown batch a).grown batch b = h.grown batch (a ++ b) := by
  funext id
  simp [grown, List.append_assoc]

theorem grown_of_notMem {h : Histories} {batch : BatchId} {entries : List Entry} {id : SourceId}
    (hid : id ∉ entries.map (·.listing.sourceId)) : h.grown batch entries id = h id := by
  have hnone : entries.filter (·.listing.sourceId = id) = [] := by
    refine List.filter_eq_nil_iff.mpr fun e he => ?_
    have hne : e.listing.sourceId ≠ id := fun heq => hid (List.mem_map.mpr ⟨e, he, heq⟩)
    simpa using hne
  rw [grown, hnone, List.map_nil, List.append_nil]

theorem grown_of_mem {h : Histories} {batch : BatchId} {entries : List Entry} {e : Entry}
    (hd : (entries.map (·.listing.sourceId)).Nodup) (he : e ∈ entries) :
    h.grown batch entries e.listing.sourceId = h e.listing.sourceId ++ [e.revision batch] := by
  have hone : entries.filter (·.listing.sourceId = e.listing.sourceId) = [e] := by
    refine List.perm_singleton.mp ((List.perm_ext_iff_of_nodup ?_ (List.nodup_singleton e)).mpr ?_)
    · exact (List.Nodup.of_map _ hd).filter _
    · intro e'
      simp only [List.mem_filter, decide_eq_true_eq, List.mem_singleton]
      constructor
      · rintro ⟨he', hid⟩
        exact List.inj_on_of_nodup_map hd he' he hid
      · rintro rfl
        exact ⟨he, rfl⟩
  rw [grown, hone, List.map_singleton]

theorem grown_singleton (h : Histories) (batch : BatchId) (e : Entry) (id : SourceId) :
    h.grown batch [e] id =
      if e.listing.sourceId = id then h id ++ [e.revision batch] else h id := by
  split
  · rename_i hid
    subst hid
    exact grown_of_mem (List.nodup_singleton _) (List.mem_singleton_self e)
  · rename_i hid
    exact grown_of_notMem (by simpa using Ne.symm hid)

theorem fits_grown_of_ne {h : Histories} {batch : BatchId} {entries : List Entry} {e : Entry}
    (hid : e.listing.sourceId ∉ entries.map (·.listing.sourceId)) :
    (h.grown batch entries).Fits e ↔ h.Fits e := by
  rw [Fits, grown_of_notMem hid, Fits]

end Histories

namespace Histories

/-- The revisions of an offer are its own and are numbered from 1. -/
structure Numbered (h : Histories) : Prop where
  version : ∀ id (i : Nat) r, (h id)[i]? = some r → r.version = i + 1
  sourceId : ∀ id, ∀ r ∈ h id, r.sourceId = id

theorem numbered_empty : Numbered fun _ => [] :=
  ⟨fun _ _ _ h => by simp at h, fun _ _ h => by simp at h⟩

theorem Numbered.grown {h : Histories} (hn : h.Numbered) {e : Entry} (he : h.Fits e)
    (batch : BatchId) : (h.grown batch [e]).Numbered := by
  constructor
  · intro id i r hr
    rw [grown_singleton] at hr
    split at hr
    · rename_i hid
      rcases Nat.lt_or_ge i (h id).length with hi | hi
      · rw [List.getElem?_append_left hi] at hr
        exact hn.version id i r hr
      · rw [List.getElem?_append_right hi, List.getElem?_singleton] at hr
        split at hr
        · have hv : r.version = e.version := by rw [← Option.some.inj hr, Entry.revision]
          rw [hv, he, hid]
          omega
        · cases hr
    · exact hn.version id i r hr
  · intro id r hr
    rw [grown_singleton] at hr
    split at hr
    · rename_i hid
      rcases List.mem_append.mp hr with hr | hr
      · exact hn.sourceId id r hr
      · rw [List.mem_singleton.mp hr]
        exact hid
    · exact hn.sourceId id r hr

end Histories

section Each

variable {σ : Type}

/-- Where the history of its offer is ready for an entry, a step appends the entry, or fails if it
may. -/
def Appends (step : σ → Entry → Except RepositoryError σ) (history : σ → Histories)
    (Good : σ → Prop) (batch : BatchId) (Ready : List Revision → Entry → Prop)
    (MayFail : Prop) : Prop :=
  ∀ s e, Good s → Ready (history s e.listing.sourceId) e →
    (MayFail ∧ ∃ err, step s e = .error err) ∨
    ∃ s', step s e = .ok s' ∧ Good s' ∧ history s' = (history s).grown batch [e]

variable {step : σ → Entry → Except RepositoryError σ} {history : σ → Histories}
  {Good : σ → Prop} {batch : BatchId} {Ready : List Revision → Entry → Prop} {MayFail : Prop}

/-- Entries of different offers do not get in each other's way: if all are ready in the beginning, each
is when its turn comes. -/
theorem Appends.foldlM (h : Appends step history Good batch Ready MayFail)
    {entries : List Entry} {s : σ} (hs : Good s)
    (hd : (entries.map (·.listing.sourceId)).Nodup)
    (hr : ∀ e ∈ entries, Ready (history s e.listing.sourceId) e) :
    (MayFail ∧ ∃ err, entries.foldlM step s = .error err) ∨
    ∃ s', entries.foldlM step s = .ok s' ∧ Good s' ∧
      history s' = (history s).grown batch entries := by
  induction entries generalizing s with
  | nil => exact .inr ⟨s, rfl, hs, (Histories.grown_nil _ _).symm⟩
  | cons e rest ih =>
    have hnot : e.listing.sourceId ∉ rest.map (·.listing.sourceId) := (List.nodup_cons.mp hd).1
    rw [List.foldlM_cons]
    rcases h s e hs (hr e (List.mem_cons_self ..)) with ⟨hm, err, h₁⟩ | ⟨s₁, h₁, hs₁, hh₁⟩
    · exact .inl ⟨hm, err, by rw [h₁]; rfl⟩
    · have hr₁ : ∀ e' ∈ rest, Ready (history s₁ e'.listing.sourceId) e' := by
        intro e' he'
        have hne : e.listing.sourceId ≠ e'.listing.sourceId := fun heq =>
          hnot (heq ▸ List.mem_map_of_mem (f := fun e : Entry => e.listing.sourceId) he')
        rw [hh₁, Histories.grown_singleton, if_neg hne]
        exact hr e' (List.mem_cons_of_mem _ he')
      rw [h₁]
      rcases ih hs₁ (List.nodup_cons.mp hd).2 hr₁ with hfail | ⟨s₂, h₂, hs₂, hh₂⟩
      · exact .inl hfail
      · refine .inr ⟨s₂, h₂, hs₂, ?_⟩
        rw [hh₂, hh₁, Histories.grown_grown]
        rfl

theorem Appends.foldlM_ok (h : Appends step history Good batch Ready False)
    {entries : List Entry} {s : σ} (hs : Good s)
    (hd : (entries.map (·.listing.sourceId)).Nodup)
    (hr : ∀ e ∈ entries, Ready (history s e.listing.sourceId) e) :
    ∃ s', entries.foldlM step s = .ok s' ∧ Good s' ∧
      history s' = (history s).grown batch entries := by
  rcases h.foldlM hs hd hr with ⟨hfail, -⟩ | h
  · exact hfail.elim
  · exact h

theorem Appends.foldlM_conflict {Allowed : Entry → Prop}
    (h : Appends step history Good batch
      (fun revisions e => Allowed e ∧ e.version = revisions.length + 1) False)
    (hconflict : ∀ s e, Good s → Allowed e → ¬ (history s).Fits e → step s e = .error e.conflict)
    {entries : List Entry} {s : σ} {e : Entry} (hs : Good s)
    (hd : (entries.map (·.listing.sourceId)).Nodup) (ha : ∀ e ∈ entries, Allowed e)
    (he : entries.find? (fun e => ¬ (history s).Fits e) = some e) :
    entries.foldlM step s = .error e.conflict := by
  obtain ⟨hne, before, after, rfl, hbefore⟩ := List.find?_eq_some_iff_append.mp he
  have hready : ∀ e' ∈ before,
      Allowed e' ∧ e'.version = (history s e'.listing.sourceId).length + 1 := by
    intro e' he'
    have hfits : (history s).Fits e' := by simpa using hbefore e' he'
    exact ⟨ha e' (List.mem_append_left _ he'), hfits⟩
  rw [List.map_append, List.nodup_append] at hd
  obtain ⟨s₁, h₁, hs₁, hh₁⟩ := h.foldlM_ok hs hd.1 hready
  have hnot : e.listing.sourceId ∉ before.map (·.listing.sourceId) := fun hm =>
    hd.2.2 _ hm _ (List.mem_cons_self ..) rfl
  have hfail : step s₁ e = .error e.conflict := by
    refine hconflict s₁ e hs₁ (ha e (List.mem_append_right _ (List.mem_cons_self ..))) ?_
    rw [hh₁, Histories.fits_grown_of_ne hnot]
    simpa using hne
  exact foldlM_stop h₁ hfail

end Each
end OfferLedger
