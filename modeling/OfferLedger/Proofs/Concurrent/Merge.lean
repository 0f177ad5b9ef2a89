import OfferLedger.Proofs.Concurrent.Overlap

/-! # What two runs of one region leave

If two runs of a region that share a store both finish, the one that removes last decides which offers can be
active. It has left them as it lists them, but for what the other run has written since. -/
namespace OfferLedger

/-- The active offers of a region are the last listings of a batch. -/
def View.Holds (v : View) (partition : PartitionKey) (listings : List Listing) : Prop :=
  ∀ l, v.Shows l ∧ l.uf = partition ↔ lastFor listings l.sourceId = some l

/-- What two finished runs of a region leave, by the run that removed last and the acts since that run had
asked what is known. -/
structure Merged {σ : Type} (view : σ → View) (tasks : Bool → Task) (partition : PartitionKey)
    (acts : List (Act σ)) (v : View) (last : Bool) (since : List (Act σ)) : Prop where
  asked : ∃ earlier begun, acts = earlier ++ begun :: since ∧ begun.run = last ∧
    begun.call = (tasks last).find
  removal : ∃ t, acts.getLast? = some t ∧ t.run = last ∧ t.call.IsRemoval
  listed : ∀ l, v.Shows l → l.uf = partition →
    l.sourceId ∈ (tasks last).listings.map (·.sourceId)
  left : ∀ l, lastFor (tasks last).listings l.sourceId = some l →
    Left view (tasks !last).listings (since.filter (·.run = !last)) v l
  holds : (∀ t ∈ since.filter (·.run = !last), ∀ id ∈ (tasks last).listings.map (·.sourceId),
    ¬ t.Writes view id) → v.Holds partition (tasks last).listings

theorem Program.Straight.eq_nil {α : Type} {p : Program α} {calls : List Call} (hp : p.Straight calls)
    (h : p.next? = none) : calls = [] := by
  induction p with
  | done => exact hp
  | report _ next ih => exact ih hp h
  | call c next => cases h

theorem View.Consistent.listed_of_removed {v v' : View} (hv : v.Consistent) (hv' : v'.Consistent)
    {partition : PartitionKey} {ids : List SourceId} {batch : BatchId}
    (h : v'.history = v.removed partition ids batch) {l : Listing} (hshows : v'.Shows l)
    (huf : l.uf = partition) : l.sourceId ∈ ids := by
  by_contra hid
  cases hr : v.missing? partition ids l.sourceId with
  | none =>
    have hsame : v'.history l.sourceId = v.history l.sourceId := by rw [h, View.removed, hr]
    obtain ⟨hactive, hlisting⟩ := (hv'.shows_congr hv hsame).mp hshows
    obtain ⟨r, hlatest, rfl⟩ := Option.map_eq_some_iff.mp hlisting
    simp [View.missing?, hlatest, hactive, huf, hid] at hr
  | some r =>
    have hhistory : v'.history l.sourceId = v.history l.sourceId ++ [r.removal.revision batch] := by
      rw [h, View.removed, hr]
    have hinactive : v'.isActive l.sourceId = false := by
      rw [hv'.isActive, View.latest?, hhistory, List.getLast?_concat]
      rfl
    rw [hshows.1] at hinactive
    cases hinactive

theorem Left.shows {σ : Type} {view : σ → View} {other : List Listing} {acts : List (Act σ)} {v : View}
    {l : Listing} (h : Left view other acts v l) (hquiet : ∀ t ∈ acts, ¬ t.Writes view l.sourceId) :
    v.Shows l := by
  cases h with
  | own hshows => exact hshows
  | replaced _ _ ht hw => exact absurd hw (hquiet _ ht)
  | removed _ _ ht hw => exact absurd hw (hquiet _ ht)

theorem View.holds_of_shows {v : View} {partition : PartitionKey} {listings : List Listing}
    (hlisted : ∀ l, v.Shows l → l.uf = partition → l.sourceId ∈ listings.map (·.sourceId))
    (hshown : ∀ l, lastFor listings l.sourceId = some l → v.Shows l)
    (huf : ∀ l ∈ listings, l.uf = partition) : v.Holds partition listings := by
  intro l
  constructor
  · rintro ⟨hshows, hl⟩
    obtain ⟨x, hx⟩ := Option.isSome_iff_exists.mp
      ((lastFor_isSome_iff _ _).mpr (hlisted l hshows hl))
    have hid := sourceId_of_lastFor hx
    have hshows' := hshown x (hid ▸ hx)
    rw [hx, ← hshows.2, ← hid, hshows'.2]
  · intro hl
    exact ⟨hshown l hl, huf l (mem_of_lastFor hl)⟩

section

variable {σ : Type} {answers : Answers σ} {view : σ → View} {Sound : σ → Prop} {tasks : Bool → Task}
  {s₀ s : σ} {runs : Bool → Option (Program Counts)} {acts : List (Act σ)}

theorem Stage.removal {v : View} {i : Bool} {p : Program Counts} {c : Call}
    (h : Stage view tasks i acts v p) {next : c.Reply → Program Counts} {reply : c.Reply}
    (hnext : p.next? = some ⟨c, next⟩) (hover : (next reply).next? = none) :
    c = .removeMissing (tasks i).partition ((lastWins (tasks i).listings).map (·.sourceId))
      (tasks i).batch := by
  cases h with
  | fresh =>
    obtain ⟨next', heq, hstraight⟩ := (tasks i).next?_program
    rw [heq] at hnext
    cases hnext
    have hnil := (hstraight reply).eq_nil hover
    simp [Task.callsAfter, callsAfter] at hnil
  | asked _ _ _ _ hsuffix hp _ =>
    obtain ⟨rest', rfl, hstraight⟩ := hp.next? hnext
    rw [(hstraight reply).eq_nil hover] at hsuffix
    obtain ⟨done, hdone⟩ := hsuffix
    exact List.singleton_inj.mp (List.append_inj_right' hdone rfl)

/-- A run that has finished has left every offer that it lists as it should be, but for what the other run
has written since. -/
theorem Stage.left_of_finished {v : View} {i : Bool} {p : Program Counts}
    (h : Stage view tasks i acts v p) (hover : p.next? = none) :
    ∃ earlier begun since, acts = earlier ++ begun :: since ∧ begun.run = i ∧
      begun.call = (tasks i).find ∧ ∀ l, lastFor (tasks i).listings l.sourceId = some l →
        Left view (tasks !i).listings (since.filter (·.run = !i)) v l := by
  cases h with
  | fresh =>
    obtain ⟨next', heq, -⟩ := (tasks i).next?_program
    rw [heq] at hover
    cases hover
  | @asked earlier later begun known rest _ hacts hrun hcall hplans hsuffix hp hleft =>
    refine ⟨earlier, begun, later, hacts, hrun, hcall, fun l hl => ?_⟩
    rcases hleft l hl with ⟨e, he, -⟩ | hleft
    · rw [hp.eq_nil hover] at he
      cases he
    · exact hleft

theorem Interleaved.merged (E : Effective answers view Sound) (hs : Sound s₀)
    {partition : PartitionKey} (hpartition : ∀ i, (tasks i).partition = partition)
    (huf : ∀ i, ∀ l ∈ (tasks i).listings, l.uf = partition)
    (h : Interleaved answers tasks s₀ runs acts s) (hover : ∀ i, Finished (runs i)) :
    ∃ last since, Merged view tasks partition acts (view s) last since := by
  obtain ⟨hs', hstage⟩ := h.stage E hs
  cases h with
  | start =>
    obtain ⟨p, hp, hnone⟩ := hover true
    obtain ⟨next, heq, -⟩ := (tasks true).next?_program
    cases hp
    rw [heq] at hnone
    cases hnone
  | @stop runs acts s₁ s i q c next e _ _ _ _ =>
    obtain ⟨p, hp, -⟩ := hover i
    rw [Function.update_self] at hp
    cases hp
  | @call runs acts s₁ s i q c next reply h hq hnext hans =>
    obtain ⟨hs₁, hstage₁⟩ := h.stage E hs
    obtain ⟨p, hp, hnone⟩ := hover i
    have hlast := hstage i p hp
    rw [Function.update_self] at hp
    cases hp
    obtain ⟨earlier, begun, since, hacts, hrun, hcall, hleft⟩ := hlast.left_of_finished hnone
    have hremoval := (hstage₁ i q hq).removal hnext hnone
    subst hremoval
    have hremoved := (E.removeMissing hs₁ hans).2
    have hlisted : ∀ l, (view s).Shows l → l.uf = partition →
        l.sourceId ∈ (tasks i).listings.map (·.sourceId) := by
      intro l hshows hl
      rw [← mem_ids_lastWins]
      exact (E.consistent hs₁).listed_of_removed (E.consistent hs') hremoved hshows
        (hl.trans (hpartition i).symm)
    refine ⟨i, since, ⟨earlier, begun, hacts, hrun, hcall⟩, ⟨_, List.getLast?_concat, rfl, trivial⟩,
      hlisted, hleft, fun hquiet => View.holds_of_shows hlisted (fun l hl => ?_) (huf i)⟩
    have hid : l.sourceId ∈ (tasks i).listings.map (·.sourceId) := by
      rw [← lastFor_isSome_iff, hl]
      rfl
    exact (hleft l hl).shows fun t ht => hquiet t ht _ hid

end

namespace Concurrent

variable {l : Ledger} {tasks : Bool → Task} {w : Concurrent Bool}

theorem interleaved_turn (h : ∃ acts, Interleaved Ledger.answers tasks l w.runs acts w.ledger)
    (i : Bool) (now : Timestamp) :
    ∃ acts, Interleaved Ledger.answers tasks l (w.turn i now).runs acts (w.turn i now).ledger := by
  obtain ⟨acts, h⟩ := h
  unfold turn
  cases hpending : (w.runs i).bind Program.next? with
  | none => exact ⟨acts, h⟩
  | some pending =>
    obtain ⟨c, next⟩ := pending
    obtain ⟨p, hp, hnext⟩ := Option.bind_eq_some_iff.mp hpending
    have hanswer : ∀ r, (Turn.mk i now c w.ledger).reply = r →
        Ledger.answers c w.ledger r (Turn.mk i now c w.ledger).after :=
      fun r hr => ⟨⟨now, []⟩, .inl (Prod.ext hr rfl)⟩
    cases hreply : (Turn.mk i now c w.ledger).reply with
    | ok reply =>
      simp only [hreply]
      exact ⟨_, .call h hp hnext (hanswer _ hreply)⟩
    | error e =>
      simp only [hreply]
      exact ⟨_, .stop h hp hnext (hanswer _ hreply)⟩

theorem interleaved_after (l : Ledger) (tasks : Bool → Task) (order : List (Bool × Timestamp)) :
    ∃ acts, Interleaved Ledger.answers tasks l ((start l tasks).after order).runs acts
      ((start l tasks).after order).ledger := by
  have hall : ∀ w : Concurrent Bool,
      (∃ acts, Interleaved Ledger.answers tasks l w.runs acts w.ledger) →
      ∃ acts, Interleaved Ledger.answers tasks l (w.after order).runs acts (w.after order).ledger := by
    induction order with
    | nil => exact fun _ h => h
    | cons t rest ih => exact fun w h => ih (w.turn t.1 t.2) (interleaved_turn h t.1 t.2)
  exact hall (start l tasks) ⟨[], .start⟩

end Concurrent

/-- Two runs of one region that share a store and both finish: every active offer of the region is listed
by the one that removes last, and what that one lists is shown, but for the offers that the other run
has written to since the last one asked. Such an offer can show what the other run lists, or be
inactive if that run does not list it. -/
theorem merged_of_finished {tasks : Bool → Task} {partition : PartitionKey}
    (hpartition : ∀ i, (tasks i).partition = partition)
    (huf : ∀ i, ∀ l ∈ (tasks i).listings, l.uf = partition) :
    (∀ s₀ : MemoryStore, s₀.Reachable → ∀ runs acts s,
      Interleaved MemoryStore.answers tasks s₀ runs acts s → (∀ i, Finished (runs i)) →
      ∃ last since, Merged MemoryStore.view tasks partition acts s.view last since) ∧
    ∀ l₀ : Ledger, l₀.Reachable → ∀ runs acts l,
      Interleaved Ledger.answers tasks l₀ runs acts l → (∀ i, Finished (runs i)) →
      ∃ last since, Merged Ledger.view tasks partition acts l.view last since := by
  constructor
  · intro s₀ hs₀ runs acts s h hover
    exact h.merged MemoryStore.effective hs₀.sound hpartition huf hover
  · intro l₀ hl₀ runs acts l h hover
    exact h.merged Ledger.effective hl₀.sound hpartition huf hover

/-- Each of two runs inserts an offer and then removes the one that the other run has inserted. -/
theorem nothing_held_by_either :
    let l₀ : Ledger := ⟨[⟨1, "SP", none, ⟨0⟩, none⟩], [], []⟩
    let tasks : Bool → Task := fun i =>
      ⟨"SP", [{ sourceId := if i then "b" else "a", uf := "SP" }], 1⟩
    let w := (Concurrent.start l₀ tasks).after
      [(false, ⟨5⟩), (false, ⟨6⟩), (true, ⟨7⟩), (true, ⟨8⟩), (true, ⟨9⟩), (false, ⟨10⟩)]
    l₀.Reachable ∧ (∀ i, (tasks i).partition = "SP") ∧
      (∀ i, ∀ l ∈ (tasks i).listings, l.uf = "SP") ∧
      (∃ acts, Interleaved Ledger.answers tasks l₀ w.runs acts w.ledger) ∧
      (∀ i, Finished (w.runs i)) ∧ ∀ i, ¬ w.ledger.view.Holds "SP" (tasks i).listings := by
  intro l₀ tasks w
  refine ⟨.startBatch (c := ⟨⟨0⟩, []⟩) .empty rfl, fun _ => rfl, by decide,
    Concurrent.interleaved_after l₀ tasks _, by decide +kernel, ?_⟩
  intro i hholds
  let listing : Listing := { sourceId := if i then "b" else "a", uf := "SP" }
  have hlast : lastFor (tasks i).listings listing.sourceId = some listing := by
    simp [tasks, listing, lastFor]
  have hactive := ((hholds listing).mpr hlast).1.1
  have hinactive : ∀ i : Bool, w.ledger.view.isActive (if i then "b" else "a") = false := by
    decide +kernel
  exact Bool.noConfusion (hactive.symm.trans (hinactive i))

/-- One run inserts an offer, and the other one, which lists nothing, removes it before the first one
removes. -/
theorem merged_of_insertion_and_removal :
    let tasks : Bool → Task := fun i =>
      ⟨"SP", if i then [] else [{ sourceId := "a", uf := "SP" }], 1⟩
    let w := (Concurrent.start ⟨[⟨1, "SP", none, ⟨0⟩, none⟩], [], []⟩ tasks).after
      [(false, ⟨5⟩), (true, ⟨6⟩), (false, ⟨7⟩), (true, ⟨8⟩), (false, ⟨9⟩)]
    (∃ acts s last since, Merged MemoryStore.view tasks "SP" acts (MemoryStore.view s) last since) ∧
      ∃ acts last since, Merged Ledger.view tasks "SP" acts w.ledger.view last since := by
  intro tasks w
  have hpartition : ∀ i, (tasks i).partition = "SP" := fun _ => rfl
  have huf : ∀ i, ∀ l ∈ (tasks i).listings, l.uf = "SP" := by decide
  constructor
  · have h₁ : Interleaved MemoryStore.answers tasks {} _ _ _ :=
      .call (i := false) .start rfl rfl (.inl rfl)
    have h₂ : Interleaved MemoryStore.answers tasks {} _ _ _ :=
      .call (i := true) h₁ rfl rfl (.inl rfl)
    have h₃ : Interleaved MemoryStore.answers tasks {} _ _ _ :=
      .call (i := false) h₂ rfl rfl (.inl rfl)
    have h₄ : Interleaved MemoryStore.answers tasks {} _ _ _ :=
      .call (i := true) h₃ rfl rfl (.inl rfl)
    have h₅ : Interleaved MemoryStore.answers tasks {} _ _ _ :=
      .call (i := false) h₄ rfl rfl (.inl rfl)
    have hmerged := (merged_of_finished hpartition huf).1 {} .empty _ _ _ h₅ fun i => by
      cases i with
      | false => exact ⟨_, rfl, rfl⟩
      | true => exact ⟨_, rfl, rfl⟩
    exact ⟨_, _, hmerged⟩
  · have hl₀ : Ledger.Reachable ⟨[⟨1, "SP", none, ⟨0⟩, none⟩], [], []⟩ :=
      .startBatch (c := ⟨⟨0⟩, []⟩) .empty rfl
    obtain ⟨acts, h⟩ := Concurrent.interleaved_after _ tasks
      [(false, ⟨5⟩), (true, ⟨6⟩), (false, ⟨7⟩), (true, ⟨8⟩), (false, ⟨9⟩)]
    exact ⟨acts, (merged_of_finished hpartition huf).2 _ hl₀ _ acts w.ledger h (by decide +kernel)⟩

end OfferLedger
