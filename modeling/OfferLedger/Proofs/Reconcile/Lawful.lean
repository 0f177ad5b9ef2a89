import OfferLedger.Proofs.Ledger.Heads
import OfferLedger.Proofs.Reconcile.Due

/-! # Lawful histories

Reconciliations write the shortest histories that tell what happened: an offer is inserted once, nothing
is deleted twice in a row, and no update repeats what was there. A run can be stopped between any two of
its calls, so this has to hold after each of them and not only in the end. -/
namespace OfferLedger

structure Lawful (revisions : List Revision) : Prop where
  version : ∀ (i : Nat) r, revisions[i]? = some r → r.version = i + 1
  insert_iff : ∀ r ∈ revisions, r.operation = .insert ↔ r.version = 1
  delete : ∀ (i : Nat) p r, revisions[i]? = some p → revisions[i + 1]? = some r →
    r.operation = .delete → p.operation ≠ .delete ∧ r.listing = p.listing
  update : ∀ (i : Nat) p r, revisions[i]? = some p → revisions[i + 1]? = some r →
    r.operation = .update → p.operation ≠ .delete → r.listing ≠ p.listing

/-- What an operation on an offer needs of the revision before it. -/
def Operation.Continues (op : Operation) (l : Listing) : Option Revision → Prop
  | none => op = .insert
  | some p => op ≠ .insert ∧ (op = .delete → p.operation ≠ .delete ∧ l = p.listing) ∧
      (op = .update → p.operation ≠ .delete → l ≠ p.listing)

theorem getElem?_concat_eq_some {α : Type} {xs : List α} {x y : α} {i : Nat}
    (h : (xs ++ [x])[i]? = some y) : xs[i]? = some y ∨ i = xs.length ∧ y = x := by
  rcases Nat.lt_or_ge i xs.length with hi | hi
  · rw [List.getElem?_append_left hi] at h
    exact .inl h
  · rw [List.getElem?_append_right hi, List.getElem?_singleton] at h
    split at h
    · cases h
      exact .inr ⟨by omega, rfl⟩
    · cases h

theorem lawful_nil : Lawful [] := by
  constructor <;> simp

theorem Lawful.concat {revisions : List Revision} (hl : Lawful revisions) {r : Revision}
    (hv : r.version = revisions.length + 1)
    (hr : r.operation.Continues r.listing revisions.getLast?) : Lawful (revisions ++ [r]) := by
  -- Of two neighbours the later one is the new revision, or both were there before.
  have hpair : ∀ (i : Nat) p q, (revisions ++ [r])[i]? = some p →
      (revisions ++ [r])[i + 1]? = some q →
      revisions[i]? = some p ∧ revisions[i + 1]? = some q ∨
        revisions.getLast? = some p ∧ q = r := by
    intro i p q hp hq
    have hi : i < revisions.length := by
      have := (List.getElem?_eq_some_iff.mp hq).1
      simp at this
      omega
    rw [List.getElem?_append_left hi] at hp
    rcases getElem?_concat_eq_some hq with hq | ⟨hlast, rfl⟩
    · exact .inl ⟨hp, hq⟩
    · rw [List.getLast?_eq_getElem?, ← hlast]
      exact .inr ⟨hp, rfl⟩
  constructor
  · intro i q hq
    rcases getElem?_concat_eq_some hq with hq | ⟨rfl, rfl⟩
    · exact hl.version i q hq
    · exact hv
  · intro q hq
    rcases List.mem_append.mp hq with hq | hq
    · exact hl.insert_iff q hq
    · rw [List.mem_singleton.mp hq, hv]
      cases hlast : revisions.getLast? with
      | none =>
        rw [List.getLast?_eq_none_iff] at hlast
        rw [hlast] at hr ⊢
        exact ⟨fun _ => rfl, fun _ => hr⟩
      | some p =>
        rw [hlast] at hr
        have hpos := List.length_pos_of_mem (List.mem_of_getLast? hlast)
        exact ⟨fun h => absurd h hr.1, fun h => by omega⟩
  · intro i p q hp hq hop
    rcases hpair i p q hp hq with ⟨hp, hq⟩ | ⟨hlast, rfl⟩
    · exact hl.delete i p q hp hq hop
    · rw [hlast] at hr
      exact hr.2.1 hop
  · intro i p q hp hq hop
    rcases hpair i p q hp hq with ⟨hp, hq⟩ | ⟨hlast, rfl⟩
    · exact hl.update i p q hp hq hop
    · rw [hlast] at hr
      exact hr.2.2 hop

theorem View.Consistent.continues_due? {v : View} (hv : v.Consistent) {partition : PartitionKey}
    {listings : List Listing} {id : SourceId} {e : Entry}
    (h : v.due? partition listings id = some e) :
    e.operation.Continues e.listing (v.latest? id) := by
  have hid := hv.sourceId_due? h
  subst hid
  rcases due?_cases h with ⟨-, hnone, he⟩ | ⟨-, hshows, r, hr, he⟩ | ⟨r, hr, rfl⟩
  · rw [hnone, he]
    rfl
  · have hop : e.operation = .update := by rw [he]
    rw [hr, hop]
    refine ⟨by decide, fun h => absurd h (by decide), fun _ hlive heq => hshows ⟨?_, ?_⟩⟩
    · rw [hv.isActive, hr]
      simpa [Revision.isDelete] using hlive
    · rw [hr, heq]
      rfl
  · obtain ⟨hr, hp⟩ := Option.filter_eq_some_iff.mp hr
    have hactive : v.isActive r.removal.listing.sourceId = true := by
      simp only [Bool.and_eq_true] at hp
      exact hp.1.1
    rw [hv.isActive, hr] at hactive
    rw [hr]
    refine ⟨by simp [Revision.removal], fun _ => ⟨?_, rfl⟩, fun hop => by cases hop⟩
    simpa [Revision.isDelete] using hactive

/-- Nothing was taken back, and every history is lawful in the end. -/
structure Advanced (before after : View) : Prop where
  lawful : ∀ id, Lawful (after.history id)
  grown : ∀ id, before.history id <+: after.history id

theorem Advanced.trans {u v w : View} (h : Advanced u v) (h' : Advanced v w) : Advanced u w :=
  ⟨h'.lawful, fun id => (h.grown id).trans (h'.grown id)⟩

/-- A run makes at most one entry for an offer, so the histories are lawful wherever it is stopped. -/
theorem Partway.advanced {partition : PartitionKey} {listings : List Listing} {batch : BatchId}
    {before now : View} (h : Partway partition listings batch before now) (hb : before.Consistent)
    (hl : ∀ id, Lawful (before.history id)) : Advanced before now := by
  constructor
  · intro id
    rcases h id with hsame | ⟨e, hdue, hmade⟩
    · rw [hsame]
      exact hl id
    · have hfits := hb.fits_due? hdue
      rw [Histories.Fits, hb.sourceId_due? hdue] at hfits
      rw [hmade]
      exact (hl id).concat hfits (hb.continues_due? hdue)
  · intro id
    rcases h id with hsame | ⟨e, -, hmade⟩
    · rw [hsame]
    · rw [hmade]
      exact List.prefix_append _ _

theorem Faithful.advanced_reconcile {σ : Type} {answers : Answers σ} {view : σ → View}
    {Sound : σ → Prop} (F : Faithful answers view Sound) {s s' : σ} {partition : PartitionKey}
    {listings : List Listing} {batch : BatchId} {r : Except RepositoryError Counts} (hs : Sound s)
    (hl : ∀ id, Lawful ((view s).history id))
    (h : (reconcile partition listings batch).Ends answers s r s') :
    Sound s' ∧ Advanced (view s) (view s') := by
  obtain ⟨hs', hpartway⟩ := F.partway hs h
  exact ⟨hs', hpartway.advanced (F.consistent hs) hl⟩

namespace MemoryStore

/-- One reconciliation, also one that a failing call has stopped. -/
def Reconciles (s s' : MemoryStore) : Prop :=
  ∃ partition listings batch r, (reconcile partition listings batch).Ends answers s r s'

theorem advanced_of_reconciles {s s' : MemoryStore} (hs : s.Sound)
    (hl : ∀ id, Lawful (s.history id)) (h : Relation.ReflTransGen Reconciles s s') :
    s'.Sound ∧ Advanced s.view s'.view := by
  induction h with
  | refl => exact ⟨hs, hl, fun _ => List.prefix_rfl⟩
  | tail _ hstep ih =>
    obtain ⟨partition, listings, batch, r, hrun⟩ := hstep
    obtain ⟨hs', hadv'⟩ := faithful.advanced_reconcile ih.1 ih.2.lawful hrun
    exact ⟨hs', ih.2.trans hadv'⟩

end MemoryStore

namespace Ledger

inductive Reconciles : Ledger → Ledger → Prop where
  | run {l l'} {partition : PartitionKey} {listings : List Listing} {batch : BatchId}
      {r : Except RepositoryError Counts} :
      (reconcile partition listings batch).Ends answers l r l' → Reconciles l l'
  | startBatch {l l'} {c : Conditions} {partition : PartitionKey} {digest : Option String}
      {batch : BatchId} : l.startBatch c partition digest = .ok (batch, l') → Reconciles l l'
  | finishBatch {l l'} {c : Conditions} {batch : BatchId} {listingsSeen : Nat}
      {outcome : BatchOutcome} : l.finishBatch c batch listingsSeen outcome = .ok l' →
      Reconciles l l'

theorem later_of_answers {call : Call} {l l' : Ledger} {r : Except RepositoryError call.Reply}
    (hlive : call.Live) (h : answers call l r l') : Later l l' := by
  obtain ⟨c, h | ⟨-, rfl⟩⟩ := h
  · have hstep := Step.call (l := l) c hlive
    rw [h] at hstep
    exact .single hstep
  · exact .refl

theorem later_of_reconciles {l l' : Ledger} (h : Reconciles l l') : Later l l' := by
  cases h with
  | @run partition listings batch _ hrun =>
    refine Program.Ends.keeps (I := Later l) ?_ (calls_reconcile partition listings batch) hrun .refl
    intro call l₁ r l₂ hlive hlater hans
    exact hlater.trans (later_of_answers hlive hans)
  | startBatch h => exact .single (.startBatch h)
  | finishBatch h => exact .single (.finishBatch h)

theorem advanced_of_reconciles {l l' : Ledger} (hl : l.Reachable)
    (hlaw : ∀ id, Lawful (l.histories id)) (h : Relation.ReflTransGen Reconciles l l') :
    l'.Reachable ∧ Later l l' ∧ ∀ id, Lawful (l'.histories id) := by
  induction h with
  | refl => exact ⟨hl, .refl, hlaw⟩
  | @tail l₁ l₂ _ hstep ih =>
    obtain ⟨hl₁, hlater, hlaw₁⟩ := ih
    have hstep' := later_of_reconciles hstep
    refine ⟨hl₁.later hstep', hlater.trans hstep', ?_⟩
    cases hstep with
    | run hrun => exact (faithful.advanced_reconcile hl₁.sound hlaw₁ hrun).2.lawful
    | startBatch h =>
      obtain ⟨-, rfl⟩ := startBatch_eq_ok h
      exact hlaw₁
    | finishBatch h =>
      obtain rfl := finishBatch_eq_ok h
      exact hlaw₁

end Ledger

/-- However many reconciliations have run on a store, and wherever some of them were stopped, every
history is lawful, and what was in it at any time before still begins it. -/
theorem lawful_after_reconciliations :
    (∀ s s' : MemoryStore, Relation.ReflTransGen MemoryStore.Reconciles {} s →
      Relation.ReflTransGen MemoryStore.Reconciles s s' →
      ∀ id, Lawful (s'.history id) ∧ s.history id <+: s'.history id) ∧
    ∀ l l' : Ledger, Relation.ReflTransGen Ledger.Reconciles Ledger.empty l →
      Relation.ReflTransGen Ledger.Reconciles l l' →
      ∀ id, Lawful ((l'.history id).map (·.revision)) ∧ l.history id <+: l'.history id := by
  constructor
  · intro s s' hs hs' id
    obtain ⟨hsound, hadv⟩ :=
      MemoryStore.advanced_of_reconciles MemoryStore.sound_empty (fun _ => lawful_nil) hs
    have hadv' := (MemoryStore.advanced_of_reconciles hsound hadv.lawful hs').2
    exact ⟨hadv'.lawful id, hadv'.grown id⟩
  · intro l l' hl hl' id
    obtain ⟨hreach, -, hlaw⟩ := Ledger.advanced_of_reconciles .empty (fun _ => lawful_nil) hl
    obtain ⟨-, hlater, hlaw'⟩ := Ledger.advanced_of_reconciles hreach hlaw hl'
    exact ⟨hlaw' id, (hreach.revisions_later hlater).filter _⟩

/-- A second run in either store that inserts an offer and cannot remove the other one. -/
theorem lawful_after_stopped_reconciliation :
    let first := ((reconcile "SP" [{ sourceId := "a", uf := "SP" }] 1).run
      MemoryStore.repository {}).state
    let second := ((reconcile "SP" [{ sourceId := "b", uf := "SP" }] 2).run
      (MemoryStore.repository.refusing .delete) first).state
    let l := ((reconcile "SP" [{ sourceId := "a", uf := "SP" }] 1).run
      (Ledger.repository ⟨⟨5⟩, []⟩) ⟨[⟨1, "SP", none, ⟨0⟩, none⟩], [], []⟩).state
    let l' := ((reconcile "SP" [{ sourceId := "b", uf := "SP" }] 1).run
      (Ledger.repository ⟨⟨9⟩, [.deletes]⟩) l).state
    (∀ id, Lawful (second.history id) ∧ first.history id <+: second.history id) ∧
      ∀ id, Lawful ((l'.history id).map (·.revision)) ∧ l.history id <+: l'.history id := by
  intro first second l l'
  have hfirst : MemoryStore.Reconciles {} first :=
    ⟨_, _, _, _, Program.ends_run (fun _ _ => .inl rfl) _ _⟩
  have hsecond : MemoryStore.Reconciles first second :=
    ⟨_, _, _, _, Program.ends_run (MemoryStore.repository.orFails_refusing .delete) _ _⟩
  have hopen : Ledger.Reconciles Ledger.empty ⟨[⟨1, "SP", none, ⟨0⟩, none⟩], [], []⟩ :=
    .startBatch (c := ⟨⟨0⟩, []⟩) rfl
  have hl : Ledger.Reconciles _ l := .run (Program.ends_run (fun _ _ => ⟨_, .inl rfl⟩) _ _)
  have hl' : Ledger.Reconciles l l' := .run (Program.ends_run (fun _ _ => ⟨_, .inl rfl⟩) _ _)
  exact ⟨lawful_after_reconciliations.1 first second (.single hfirst) (.single hsecond),
    lawful_after_reconciliations.2 l l' (.tail (.single hopen) hl) (.single hl')⟩

end OfferLedger
