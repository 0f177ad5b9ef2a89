import OfferLedger.Proofs.Ledger.Finding
import OfferLedger.Proofs.Ledger.Touching
import OfferLedger.Proofs.Ledger.Writing

/-! # Calls of a sound ledger

A call goes through its entries one after another. What each of them keeps is kept by the call, and a
call that fails is undone. -/
namespace OfferLedger.Ledger

theorem kept_of_foldlM {α : Type} {step : Ledger → α → Except RepositoryError Ledger} {xs : List α}
    (hstep : ∀ a ∈ xs, ∀ l l', l.Sound → step l a = .ok l' → Kept l l') {l l' : Ledger}
    (hs : l.Sound) (h : xs.foldlM step l = .ok l') : Kept l l' :=
  foldlM_induction (P := fun _ l' => Kept l l') h hs.kept fun a ha _ l₁ l₂ hk h₂ =>
    hk.trans (hstep a ha l₁ l₂ hk.sound h₂)

theorem of_commit {α : Type} {P : Ledger → Prop} {l : Ledger}
    {made : Except RepositoryError (α × Ledger)} (hl : P l)
    (h : ∀ a l', made = .ok (a, l') → P l') : P (l.commit made).2 := by
  cases made with
  | error err => exact hl
  | ok p => exact h p.1 p.2 rfl

theorem map_eq_ok {α : Type} {made : Except RepositoryError Ledger} {a b : α} {l : Ledger}
    (h : made.map (a, ·) = .ok (b, l)) : made = .ok l := by
  cases made with
  | error err => cases h
  | ok l' =>
    cases h
    rfl

theorem Sound.marked {l : Ledger} (hs : l.Sound) {mark : Head → Head}
    (hid : ∀ h, (mark h).sourceId = h.sourceId) (hst : ∀ h, (mark h).standing = h.standing)
    (hfirst : ∀ h, (mark h).firstSeen = h.firstSeen) :
    Sound { l with heads := l.heads.map mark } := by
  have hhead : ∀ id, head? { l with heads := l.heads.map mark } id = (l.head? id).map mark :=
    find?_map_heads _ _ hid
  refine ⟨?_, hs.numbered, hs.undamaged, fun id => ?_, fun id => ?_⟩
  · rw [List.map_map, show (·.sourceId) ∘ mark = (·.sourceId) from funext hid]
    exact hs.nodup
  · rw [hhead, Option.map_map, show Head.standing ∘ mark = Head.standing from funext hst]
    exact hs.latest id
  · rw [hhead, Option.map_map, show (·.firstSeen) ∘ mark = (·.firstSeen) from funext hfirst]
    exact hs.first id

theorem Sound.touched {l : Ledger} (hs : l.Sound) (now : Timestamp) (batch : BatchId)
    (ids : List SourceId) : Kept l (l.touched now batch ids) := by
  refine ⟨hs.marked ?_ ?_ ?_, rfl, List.prefix_rfl⟩
  all_goals
    intro h
    split <;> rfl

section

variable {l : Ledger} {c : Conditions} {batch : BatchId} {entries : List Entry} (hs : l.Sound)
  (hc : c.faults = []) (hb : l.hasBatch batch = true)
include hc hb

theorem appends_appendOne {Allowed : Entry → Prop}
    (hlive : ∀ e, Allowed e → e.operation ≠ .delete) :
    Appends (appendOne c batch) histories (Kept l) batch
      (fun revisions e => Allowed e ∧ e.version = revisions.length + 1) False := by
  intro l₁ e hk he
  obtain ⟨l₂, h₂⟩ := hk.sound.appendOne_of_fits hc ((hk.hasBatch_eq batch).trans hb) he.2
  obtain ⟨hk₂, hh₂⟩ := hk.sound.after_appendOne (hlive e he.1) h₂
  exact .inr ⟨l₂, h₂, hk.trans hk₂, hh₂⟩

variable (hd : (entries.map (·.listing.sourceId)).Nodup)
include hs hd

theorem Sound.append_of_fits (hlive : ∀ e ∈ entries, e.operation ≠ .delete)
    (hf : ∀ e ∈ entries, l.histories.Fits e) :
    ∃ l', l.append c entries batch = .ok l' ∧ l'.histories = l.histories.grown batch entries := by
  obtain ⟨l', h, -, hh⟩ := (appends_appendOne hc hb fun _ h => h).foldlM_ok hs.kept hd
    fun e he => ⟨hlive e he, hf e he⟩
  exact ⟨l', h, hh⟩

theorem Sound.append_of_conflict {e : Entry}
    (hv : ∀ e ∈ entries, 1 ≤ e.version ∧ e.operation ≠ .delete)
    (he : entries.find? (fun e => ¬ l.histories.Fits e) = some e) :
    l.append c entries batch = .error e.conflict := by
  refine (appends_appendOne hc hb fun _ h => h.2).foldlM_conflict ?_ hs.kept hd hv he
  intro l₁ e hk ha hf
  exact hk.sound.appendOne_of_not_fits hc ((hk.hasBatch_eq batch).trans hb) ha.1 hf

end

/-- The removals were made from the ledger before the call, so each waits for its own offer only. -/
theorem appends_removeOne (l : Ledger) (c : Conditions) (batch : BatchId) :
    Appends (removeOne c batch) histories (Kept l) batch
      (fun revisions e => ∃ r, revisions.getLast? = some r ∧ e = r.removal)
      (¬ (c.faults = [] ∧ l.hasBatch batch = true)) := by
  rintro l₁ e hk ⟨r, hr, rfl⟩
  cases h₂ : removeOne c batch l₁ r.removal with
  | ok l₂ =>
    obtain ⟨hk₂, hh₂⟩ := hk.sound.after_removeOne hr h₂
    exact .inr ⟨l₂, rfl, hk.trans hk₂, hh₂⟩
  | error err =>
    refine .inl ⟨fun ⟨hc, hb⟩ => ?_, err, rfl⟩
    obtain ⟨l₂, h⟩ := hk.sound.removeOne_of_latest hc ((hk.hasBatch_eq batch).trans hb) hr
    rw [h] at h₂
    cases h₂

theorem Sound.removeMissing_eq {l : Ledger} (hs : l.Sound) (c : Conditions)
    (partition : PartitionKey) (ids : List SourceId) (batch : BatchId) :
    (¬ (c.faults = [] ∧ l.hasBatch batch = true) ∧
      ∃ err, l.removeMissing c partition ids batch = .error err) ∨
    ∃ n l', l.removeMissing c partition ids batch = .ok (n, l') ∧ Kept l l' ∧
      {id | (l.view.missing? partition ids id).isSome}.encard = n ∧
      l'.histories = l.view.removed partition ids batch := by
  obtain ⟨entries, hm, hd, hmem⟩ := hs.missing_eq partition ids
  have hrun : l.removeMissing c partition ids batch =
      entries.foldlM (removeOne c batch) l >>= fun l => .ok (entries.length, l) := by
    rw [removeMissing, hm]
    rfl
  have hready : ∀ e ∈ entries,
      ∃ r, (l.histories e.listing.sourceId).getLast? = some r ∧ e = r.removal := by
    intro e he
    obtain ⟨r, hr, rfl⟩ := (hmem e).mp he
    exact ⟨r, (Option.filter_eq_some_iff.mp hr).1, rfl⟩
  rcases (appends_removeOne l c batch).foldlM hs.kept hd hready with
    ⟨hmay, err, hfail⟩ | ⟨l', h, hk, hh⟩
  · refine .inl ⟨hmay, err, ?_⟩
    rw [hrun, hfail]
    rfl
  · refine .inr ⟨entries.length, l', ?_, hk, hs.consistent.encard_missing hd hmem, ?_⟩
    · rw [hrun, h]
      rfl
    · exact hh.trans (hs.consistent.grown_removals hd hmem batch)

theorem Sound.call {l : Ledger} (hs : l.Sound) (c : Conditions) {call : Call} (hlive : call.Live) :
    Kept l (repository c call l).2 := by
  cases call with
  | find => exact hs.kept
  | append entries batch =>
    refine of_commit (P := Kept l) hs.kept fun _ l' h => kept_of_foldlM ?_ hs (map_eq_ok h)
    intro e he l l' hs h
    exact (hs.after_appendOne (hlive e he) h).1
  | touch ids batch =>
    refine of_commit (P := Kept l) hs.kept fun _ l' h => ?_
    rw [touch_eq_ok (map_eq_ok h)]
    exact hs.touched c.now batch ids
  | removeMissing partition ids batch =>
    refine of_commit (P := Kept l) hs.kept fun n l' h => ?_
    rcases hs.removeMissing_eq c partition ids batch with ⟨-, err, hfail⟩ | ⟨n', l₁, h₁, hk, -⟩
    · rw [hfail] at h
      cases h
    · rw [h₁] at h
      cases h
      exact hk

end OfferLedger.Ledger
