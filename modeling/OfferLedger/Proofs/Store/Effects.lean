import OfferLedger.Proofs.Ledger.Faults
import OfferLedger.Proofs.Reconcile.Writes
import OfferLedger.Proofs.Store.Memory
import OfferLedger.Repository.Scripted

/-! # What a call can do

Whether it succeeds or fails, and whatever fails in the store, a call has one of few effects on the
histories: it grows them by entries that all fit, it removes what is missing, or it changes nothing.
This holds of both stores, so what follows from it holds of both. -/
namespace OfferLedger

inductive Call.Effect : Call → View → Histories → Prop where
  | unchanged (c : Call) (v : View) : Effect c v v.history
  | appended {entries : List Entry} {batch : BatchId} {v : View} :
      (∀ e ∈ entries, v.history.Fits e) →
      Effect (.append entries batch) v (v.history.grown batch entries)
  | removed (partition : PartitionKey) (ids : List SourceId) (batch : BatchId) (v : View) :
      Effect (.removeMissing partition ids batch) v (v.removed partition ids batch)

/-- Answers that say what is stored and do only what a call can do. -/
structure Faithful {σ : Type} (answers : Answers σ) (view : σ → View) (Sound : σ → Prop) :
    Prop where
  consistent : ∀ {s}, Sound s → (view s).Consistent
  effect : ∀ {s s'} {c : Call} {r : Except RepositoryError c.Reply}, Sound s → c.WellFormed →
    answers c s r s' → Sound s' ∧ c.Effect (view s) (view s').history
  find : ∀ {s s' listings known}, Sound s → answers (.find listings) s (.ok known) s' →
    s' = s ∧ ∀ id, Keyed.get? known id = (lastFor listings id).bind (view s).known?

theorem Faithful.find_lastWins {σ : Type} {answers : Answers σ} {view : σ → View} {Sound : σ → Prop}
    (F : Faithful answers view Sound) {s s' : σ} {listings : List Listing}
    {known : Keyed SourceId Known} (hs : Sound s)
    (h : answers (.find (lastWins listings)) s (.ok known) s') :
    s' = s ∧ ∀ id, Keyed.get? known id = (lastFor listings id).bind (view s).known? := by
  obtain ⟨rfl, hget⟩ := F.find hs h
  refine ⟨rfl, fun id => ?_⟩
  rw [hget, lastFor_lastWins]

/-- Faithful answers that keep their word: a call that succeeded has had all of its effect. -/
structure Effective {σ : Type} (answers : Answers σ) (view : σ → View) (Sound : σ → Prop) : Prop
    extends Faithful answers view Sound where
  append : ∀ {s s' entries batch}, Sound s → (Call.append entries batch).WellFormed →
    answers (.append entries batch) s (.ok ()) s' →
    (view s').history = (view s).history.grown batch entries
  removeMissing : ∀ {s s' partition ids batch n}, Sound s →
    answers (.removeMissing partition ids batch) s (.ok n) s' →
    {id | ((view s).missing? partition ids id).isSome}.encard = n ∧
      (view s').history = (view s).removed partition ids batch

/-- A repository answers, or its call fails and has no effect. -/
def Repository.orFails {σ : Type} (repo : Repository σ) : Answers σ := fun c s r s' =>
  repo c s = (r, s') ∨ (∃ e, r = .error e) ∧ s' = s

def Repository.refusing {σ : Type} (repo : Repository σ) (kind : CallKind) : Repository σ :=
  fun c s => if c.kind = kind then (.error (.corrupt s!"{kind.name} failed"), s) else repo c s

theorem Repository.orFails_refusing {σ : Type} (repo : Repository σ) (kind : CallKind) (c : Call)
    (s : σ) : repo.orFails c s (repo.refusing kind c s).1 (repo.refusing kind c s).2 := by
  unfold refusing
  split
  · exact .inr ⟨⟨_, rfl⟩, rfl⟩
  · exact .inl rfl

namespace MemoryStore

abbrev answers : Answers MemoryStore := repository.orFails

theorem Sound.effect {s : MemoryStore} (hs : s.Sound) {c : Call} (hc : c.WellFormed) :
    c.Effect s.view (repository c s).2.view.history := by
  cases c with
  | find => exact .unchanged _ _
  | append entries batch =>
    rcases store.append_or_conflict hs trivial hc with ⟨hfits, s', h, hh⟩ | ⟨e, -, -, h⟩
    · change repository (.append entries batch) s = _ at h
      change s'.view.history = _ at hh
      rw [h, hh]
      exact .appended hfits
    · change repository (.append entries batch) s = _ at h
      rw [h]
      exact .unchanged _ _
  | touch => exact .unchanged _ _
  | removeMissing partition ids batch =>
    obtain ⟨s', h, hh⟩ := removeMissing_eq hs partition ids batch
    change Call.Effect _ _ (s.removeMissing partition ids batch).2.view.history
    rw [h]
    change Call.Effect _ _ s'.history
    rw [hh]
    exact .removed partition ids batch s.view

theorem faithful : Faithful answers view Sound where
  consistent := Sound.consistent
  effect := by
    intro s s' c r hs hc h
    rcases h with h | ⟨-, rfl⟩
    · obtain rfl : (repository c s).2 = s' := congrArg Prod.snd h
      exact ⟨hs.call c, hs.effect hc⟩
    · exact ⟨hs, .unchanged _ _⟩
  find := by
    intro s s' listings known _ h
    rcases h with h | ⟨⟨e, he⟩, -⟩
    · cases h
      exact ⟨rfl, get?_find s listings⟩
    · cases he

theorem effective : Effective answers view Sound where
  toFaithful := faithful
  append := by
    intro s s' entries batch hs hw h
    rcases h with h | ⟨⟨e, he⟩, -⟩
    · rcases store.append_or_conflict hs trivial hw with ⟨-, s₁, h₁, hh⟩ | ⟨e, -, -, h₁⟩
      · cases h.symm.trans h₁
        exact hh
      · cases h.symm.trans h₁
    · cases he
  removeMissing := by
    intro s s' partition ids batch n hs h
    rcases h with h | ⟨⟨e, he⟩, -⟩
    · obtain ⟨n', s₁, h₁, hn, hh⟩ := store.removeMissing hs trivial partition ids
      cases h.symm.trans h₁
      exact ⟨hn, hh⟩
    · cases he

end MemoryStore

namespace Ledger

/-- A ledger answers under any conditions, which may differ from one call to the next. -/
def answers : Answers Ledger := fun call l r l' => ∃ c, (repository c).orFails call l r l'

theorem ends_repository {α : Type} (c : Conditions) (p : Program α) (l : Ledger) :
    p.Ends answers l (p.run (repository c) l).result (p.run (repository c) l).state :=
  Program.ends_run (fun _ _ => ⟨c, .inl rfl⟩) p l

section

variable {l l' : Ledger} {c : Conditions} {batch : BatchId} {entries : List Entry}

theorem histories_eq_of_revisions (h : l'.revisions = l.revisions) :
    l'.histories = l.histories := by
  funext id
  rw [histories, history, h, histories, history]

theorem hasBatch_of_append (h : l.append c entries batch = .ok l') (hne : entries ≠ []) :
    l.hasBatch batch = true := by
  cases entries with
  | nil => exact absurd rfl hne
  | cons e rest =>
    obtain ⟨l₁, h₁, -⟩ := bind_eq_ok h
    obtain ⟨l₂, hr, -⟩ := bind_eq_ok h₁
    exact (record_eq_ok hr).2.2.1

variable (hs : l.Sound)
include hs

theorem Sound.append_eq_ok (hw : (Call.append entries batch).WellFormed)
    (h : l.append c entries batch = .ok l') :
    (∀ e ∈ entries, l.histories.Fits e) ∧ l'.histories = l.histories.grown batch entries := by
  by_cases hne : entries = []
  · subst hne
    cases h
    exact ⟨fun _ he => absurd he List.not_mem_nil, (Histories.grown_nil _ _).symm⟩
  have hb := hasBatch_of_append h hne
  have hcall : repository c (.append entries batch) l = (.ok (), l') := by
    rw [repository, h]
    rfl
  have hrun : (store c.now).repository (.append entries batch) l = (.ok (), l') :=
    repository_faultless hcall
  rcases (store c.now).append_or_conflict hs hb hw with ⟨hfits, l₁, h₁, hh⟩ | ⟨e, -, -, h₁⟩
  · rw [h₁] at hrun
    cases hrun
    exact ⟨hfits, hh⟩
  · rw [h₁] at hrun
    cases hrun

theorem Sound.effect {call : Call} {r : Except RepositoryError call.Reply} (hc : call.WellFormed)
    (h : repository c call l = (r, l')) : call.Effect l.view l'.histories := by
  cases r with
  | error err =>
    rw [repository_of_error h]
    exact .unchanged _ l.view
  | ok reply =>
    cases call with
    | find =>
      have hl : l = l' := congrArg Prod.snd h
      rw [← hl]
      exact .unchanged _ l.view
    | append entries batch =>
      obtain ⟨hfits, hh⟩ := hs.append_eq_ok hc (map_eq_ok (commit_eq_ok h))
      rw [hh]
      exact Call.Effect.appended (v := l.view) hfits
    | touch ids batch =>
      rw [touch_eq_ok (map_eq_ok (commit_eq_ok h))]
      exact .unchanged _ l.view
    | removeMissing partition ids batch =>
      rcases hs.removeMissing_eq c partition ids batch with ⟨-, err, hfail⟩ | ⟨n, l₁, h₁, -, -, hh⟩
      · rw [commit_eq_ok h] at hfail
        cases hfail
      · rw [commit_eq_ok h] at h₁
        cases h₁
        rw [hh]
        exact .removed partition ids batch l.view

end

theorem faithful : Faithful answers view Sound where
  consistent := Sound.consistent
  effect := by
    intro l l' call r hs hc h
    obtain ⟨c, h | ⟨-, rfl⟩⟩ := h
    · have hk := hs.call c hc.live
      rw [h] at hk
      exact ⟨hk.sound, hs.effect hc h⟩
    · exact ⟨hs, .unchanged _ _⟩
  find := by
    intro l l' listings known hs h
    obtain ⟨c, h | ⟨⟨e, he⟩, -⟩⟩ := h
    · obtain ⟨known', hfind, hknown⟩ := hs.find_eq listings
      have hok : l.find listings = .ok known := congrArg Prod.fst h
      rw [hfind] at hok
      cases hok
      exact ⟨(congrArg Prod.snd h).symm, hknown⟩
    · cases he

theorem effective : Effective answers view Sound where
  toFaithful := faithful
  append := by
    intro l l' entries batch hs hw h
    obtain ⟨c, h | ⟨⟨e, he⟩, -⟩⟩ := h
    · exact (hs.append_eq_ok hw (map_eq_ok (commit_eq_ok h))).2
    · cases he
  removeMissing := by
    intro l l' partition ids batch n hs h
    obtain ⟨c, h | ⟨⟨e, he⟩, -⟩⟩ := h
    · rcases hs.removeMissing_eq c partition ids batch with ⟨-, err, hfail⟩ | ⟨n', l₁, h₁, -, hn, hh⟩
      · rw [commit_eq_ok h] at hfail
        cases hfail
      · rw [commit_eq_ok h] at h₁
        cases h₁
        exact ⟨hn, hh⟩
    · cases he

end Ledger
end OfferLedger
