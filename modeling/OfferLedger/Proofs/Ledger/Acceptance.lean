import OfferLedger.Proofs.Ledger.Faults
import OfferLedger.Proofs.Store.InOrder

/-! # Which entries the ledger accepts

The key of the rows, the head that is there already and the head that has to be at the version before
decide together. Between them they accept a list of entries exactly when it is in order, and otherwise
name the first entry that is not. -/
namespace OfferLedger.Ledger

section

variable {l : Ledger} {c : Conditions} {batch : BatchId} {entries : List Entry} (hs : l.Sound)
  (hc : c.faults = []) (hb : l.hasBatch batch = true)
include hs hc hb

theorem Sound.append_of_inOrder (hlive : ∀ e ∈ entries, e.operation ≠ .delete)
    (ho : l.histories.InOrder entries) :
    ∃ l', repository c (.append entries batch) l = (.ok (), l') ∧
      l'.histories = l.histories.grown batch entries := by
  obtain ⟨l', h, -, hh⟩ := (appends_appendOne hc hb fun _ he => he).foldlM_inOrder
    (fun _ hk => hk.sound.numbered) hs.kept hlive ho
  refine ⟨l', ?_, hh⟩
  rw [repository, append, h]
  rfl

theorem Sound.append_of_break {before after : List Entry} {e : Entry}
    (hv : ∀ e' ∈ before ++ e :: after, 1 ≤ e'.version ∧ e'.operation ≠ .delete)
    (ho : l.histories.InOrder before) (he : ¬ l.histories.Continues before e) :
    repository c (.append (before ++ e :: after) batch) l = (.error e.conflict, l) := by
  have hbefore := fun e' he' => hv e' (List.mem_append_left _ he')
  have hallowed := hv e (List.mem_append_right _ (List.mem_cons_self ..))
  have hrefuse : ∀ l₁ e, Kept l l₁ → 1 ≤ e.version ∧ e.operation ≠ .delete →
      ¬ l₁.histories.Fits e → appendOne c batch l₁ e = .error e.conflict :=
    fun l₁ e hk ha hf => hk.sound.appendOne_of_not_fits hc ((hk.hasBatch_eq batch).trans hb) ha.1 hf
  obtain ⟨l₁, h₁, -, -, hstop⟩ := (appends_appendOne hc hb fun _ ha => ha.2).step_of_break
    (fun _ hk => hk.sound.numbered) hrefuse hs.kept hbefore hallowed ho he
  rw [repository, append, foldlM_stop h₁ hstop]
  rfl

end

/-- A list of insertions and updates is appended exactly when it is in order, and otherwise its first
entry that breaks the order is reported. Whatever call fails, and for whatever reason, the ledger stays
as it was. -/
theorem Reachable.append_iff_inOrder {l : Ledger} (hl : l.Reachable) {c : Conditions}
    (hc : c.faults = []) {batch : BatchId} (hb : l.hasBatch batch = true) {entries : List Entry}
    (hv : ∀ e ∈ entries, 1 ≤ e.version ∧ e.operation ≠ .delete) :
    ((∃ l', repository c (.append entries batch) l = (.ok (), l')) ↔ l.histories.InOrder entries) ∧
    (∀ l', repository c (.append entries batch) l = (.ok (), l') →
      l'.histories = l.histories.grown batch entries) ∧
    (¬ l.histories.InOrder entries → ∃ before e after, entries = before ++ e :: after ∧
      l.histories.InOrder before ∧ ¬ l.histories.Continues before e ∧
      repository c (.append entries batch) l = (.error e.conflict, l)) ∧
    ∀ (c : Conditions) (l : Ledger) (call : Call) (err : RepositoryError) (l' : Ledger),
      repository c call l = (.error err, l') → l' = l := by
  have haccept := hl.sound.append_of_inOrder hc hb fun e he => (hv e he).2
  have hrefuse : ¬ l.histories.InOrder entries → ∃ before e after,
      entries = before ++ e :: after ∧ l.histories.InOrder before ∧
      ¬ l.histories.Continues before e ∧
      repository c (.append entries batch) l = (.error e.conflict, l) := by
    intro hnot
    obtain ⟨before, e, after, rfl, ho, he⟩ := Histories.exists_first_break hnot
    exact ⟨before, e, after, rfl, ho, he, hl.sound.append_of_break hc hb hv ho he⟩
  have horder : ∀ l', repository c (.append entries batch) l = (.ok (), l') →
      l.histories.InOrder entries := by
    intro l' h
    by_contra hnot
    obtain ⟨_, _, _, -, -, -, herr⟩ := hrefuse hnot
    rw [herr] at h
    cases h
  refine ⟨⟨fun ⟨l', h⟩ => horder l' h, fun ho => ?_⟩, fun l' h => ?_, hrefuse, ?_⟩
  · obtain ⟨l', h, -⟩ := haccept ho
    exact ⟨l', h⟩
  · obtain ⟨l₁, h₁, hh⟩ := haccept (horder l' h)
    rw [h₁] at h
    cases h
    exact hh
  · exact fun _ _ _ _ _ h => repository_of_error h

/-- The second version of an offer after the first one, and then an offer that begins with a gap. -/
theorem append_iff_inOrder_with_gap :
    let l : Ledger := ⟨[⟨1, "SP", none, ⟨0⟩, none⟩], [], []⟩
    let a : Listing := { sourceId := "a", uf := "SP" }
    let b : Listing := { sourceId := "b", uf := "SP" }
    let twice : List Entry := [⟨a, 1, .insert⟩, ⟨a, 2, .update⟩]
    let gap : List Entry := [⟨a, 1, .insert⟩, ⟨a, 2, .update⟩, ⟨b, 2, .update⟩]
    l.histories.InOrder twice ∧ ¬ l.histories.InOrder gap := by
  intro l a b twice gap
  have hl : l.Reachable := .startBatch (c := ⟨⟨0⟩, []⟩) .empty rfl
  have hb : l.hasBatch 1 = true := rfl
  constructor
  · exact (hl.append_iff_inOrder (c := ⟨⟨5⟩, []⟩) rfl hb (by decide)).1.mp ⟨_, rfl⟩
  · intro ho
    obtain ⟨l', h⟩ := (hl.append_iff_inOrder (c := ⟨⟨5⟩, []⟩) rfl hb (by decide)).1.mpr ho
    have hfail : (repository ⟨⟨5⟩, []⟩ (.append gap 1) l).1 = .error (.versionConflict "b" 2) := by
      decide +kernel
    rw [h] at hfail
    cases hfail

end OfferLedger.Ledger
