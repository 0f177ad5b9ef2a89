import OfferLedger.Proofs.Reconcile.Planning
import OfferLedger.Proofs.Store.Effects

/-! # What a call leaves alone

A head changes together with the history of its offer, or because the offer is touched; nothing else
reaches it. So an offer that a reconciliation neither lists nor removes keeps its head, and with it the
mark of when it was last seen. -/
namespace OfferLedger

def Call.touched : Call → List SourceId
  | touch ids _ => ids
  | _ => []

namespace Ledger

/-- Rows are only added, and a head outside of some offers changes only with its history. -/
structure Framed (marked : List SourceId) (l l' : Ledger) : Prop where
  nodup : (l'.heads.map (·.sourceId)).Nodup
  revisions : l.revisions <+: l'.revisions
  head? : ∀ id ∉ marked, l'.history id = l.history id → l'.head? id = l.head? id

theorem framed_refl {l : Ledger} (hd : (l.heads.map (·.sourceId)).Nodup) (marked : List SourceId) :
    Framed marked l l :=
  ⟨hd, List.prefix_rfl, fun _ _ _ => rfl⟩

theorem Framed.trans {marked : List SourceId} {l l' l'' : Ledger} (h : Framed marked l l')
    (h' : Framed marked l' l'') : Framed marked l l'' := by
  constructor
  · exact h'.nodup
  · exact h.revisions.trans h'.revisions
  · intro id hid hsame
    -- A history that is the same in the end was the same all the time.
    have hle : l.history id <+: l'.history id := h.revisions.filter _
    have hge : l'.history id <+: l.history id := hsame ▸ h'.revisions.filter _
    have hmid : l'.history id = l.history id := hge.eq_of_length_le hle.length_le
    rw [h'.head? id hid (hsame.trans hmid.symm), h.head? id hid hmid]

theorem Framed.mono {marked marked' : List SourceId} {l l' : Ledger} (h : Framed marked l l')
    (hsub : marked ⊆ marked') : Framed marked' l l' := by
  constructor
  · exact h.nodup
  · exact h.revisions
  · intro id hid
    apply h.head?
    intro hm
    exact hid (hsub hm)

theorem Grown.framed {l l' : Ledger} {row : RevisionRow} {head : Head} (hg : Grown l row head l') :
    Framed [] l l' := by
  constructor
  · exact hg.nodup
  · exact ⟨_, hg.revisions.symm⟩
  · intro id _ hsame
    rw [hg.history] at hsame
    rw [hg.head?]
    by_cases hid : row.sourceId = id
    · simp [hid] at hsame
    · rw [if_neg hid]

section

variable {l l' : Ledger} {c : Conditions} {batch : BatchId}

theorem framed_touched (hd : (l.heads.map (·.sourceId)).Nodup) (now : Timestamp) (batch : BatchId)
    (ids : List SourceId) : Framed ids l (l.touched now batch ids) := by
  constructor
  · rw [ids_touched]
    exact hd
  · exact List.prefix_rfl
  · intro id hid _
    rw [head?_touched, if_neg hid]

theorem framed_removeOne {e : Entry} (hd : (l.heads.map (·.sourceId)).Nodup)
    (h : removeOne c batch l e = .ok l') : Framed [] l l' := by
  obtain ⟨_, -, -, hg⟩ := grown_of_removeOne hd h
  exact hg.framed

theorem Sound.framed {l : Ledger} (hs : l.Sound) (c : Conditions) {call : Call} (hlive : call.Live) :
    Framed call.touched l (repository c call l).2 := by
  have hrefl := framed_refl hs.nodup call.touched
  cases call with
  | find => exact hrefl
  | append entries batch =>
    apply of_commit (P := Framed [] l) hrefl
    intro _ l' h
    have hstep : ∀ e ∈ entries, ∀ (_ : List Entry) l₁ l₂, l₁.Sound ∧ Framed [] l l₁ →
        appendOne c batch l₁ e = .ok l₂ → l₂.Sound ∧ Framed [] l l₂ := by
      rintro e he _ l₁ l₂ ⟨hs₁, hf₁⟩ h₂
      obtain ⟨-, -, hg⟩ := hs₁.of_appendOne h₂
      exact ⟨(hs₁.after_appendOne (hlive e he) h₂).1.sound, hf₁.trans hg.framed⟩
    exact (foldlM_induction (map_eq_ok h) ⟨hs, hrefl⟩ hstep).2
  | touch ids batch =>
    apply of_commit (P := Framed ids l) hrefl
    intro _ l' h
    rw [touch_eq_ok (map_eq_ok h)]
    exact framed_touched hs.nodup c.now batch ids
  | removeMissing partition ids batch =>
    apply of_commit (P := Framed [] l) hrefl
    intro _ l' h
    obtain ⟨entries, -, h⟩ := bind_eq_ok h
    obtain ⟨l₁, hrun, h⟩ := bind_eq_ok h
    cases h
    apply foldlM_induction (P := fun _ l' => Framed [] l l') hrun hrefl
    intro _ _ _ l₁ l₂ hf₁ h₂
    exact hf₁.trans (framed_removeOne hf₁.nodup h₂)

end

theorem Sound.framed_of_answers {l l' : Ledger} (hs : l.Sound) {call : Call}
    {r : Except RepositoryError call.Reply} (hlive : call.Live) (h : answers call l r l') :
    Kept l l' ∧ Framed call.touched l l' := by
  obtain ⟨c, h | ⟨-, rfl⟩⟩ := h
  · obtain rfl : (repository c call l).2 = l' := congrArg Prod.snd h
    exact ⟨hs.call c hlive, hs.framed c hlive⟩
  · exact ⟨hs.kept, framed_refl hs.nodup _⟩

theorem touched_of_mem_callsAfter {partition : PartitionKey} {listings : List Listing}
    {batch : BatchId} {known : Keyed SourceId Known} {c : Call}
    (hc : c ∈ callsAfter partition listings batch known) :
    c.touched ⊆ (Plan.classify (Keyed.get? known) (lastWins listings)).touches := by
  rcases mem_callsAfter hc with rfl | rfl | rfl | rfl
  · exact List.nil_subset _
  · exact List.nil_subset _
  · exact List.Subset.refl _
  · exact List.nil_subset _

theorem Sound.framed_of_ends {l l' : Ledger} (hs : l.Sound) {partition : PartitionKey}
    {listings : List Listing} {batch : BatchId} {r : Except RepositoryError Counts}
    (h : (reconcile partition listings batch).Ends answers l r l') :
    Kept l l' ∧ ∃ marked, Framed marked l l' ∧ ∀ id ∈ marked, id ∈ l.view.skipped listings := by
  rcases made_of_reconcile h with ⟨e, hans⟩ | ⟨known, l₁, hans, hmade⟩
  · have hlive : (Call.find (lastWins listings)).Live := trivial
    obtain ⟨hk, hf⟩ := hs.framed_of_answers hlive hans
    exact ⟨hk, [], hf, fun _ hid => absurd hid List.not_mem_nil⟩
  · obtain ⟨rfl, hknown⟩ := faithful.find_lastWins hs hans
    have hskipped := Plan.mem_touches_iff hknown
    have hcalls : ∀ c ∈ callsAfter partition listings batch known, c.Live ∧ c.touched ⊆ _ :=
      fun c hc => ⟨live_of_mem_callsAfter hc, touched_of_mem_callsAfter hc⟩
    generalize (Plan.classify (Keyed.get? known) (lastWins listings)).touches = marked at *
    have hstep : ∀ (c : Call) l₂ (r : Except RepositoryError c.Reply) l₃,
        c.Live ∧ c.touched ⊆ marked → Kept l₁ l₂ ∧ Framed marked l₁ l₂ → answers c l₂ r l₃ →
        Kept l₁ l₃ ∧ Framed marked l₁ l₃ := by
      rintro c l₂ r l₃ ⟨hlive, htouched⟩ ⟨hk, hf⟩ hans
      obtain ⟨hk', hf'⟩ := hk.sound.framed_of_answers hlive hans
      exact ⟨hk.trans hk', hf.trans (hf'.mono htouched)⟩
    obtain ⟨hk, hf⟩ := hmade.keeps hstep hcalls ⟨hs.kept, framed_refl hs.nodup marked⟩
    exact ⟨hk, marked, hf, fun id hid => (hskipped id).mp hid⟩

end Ledger
end OfferLedger
