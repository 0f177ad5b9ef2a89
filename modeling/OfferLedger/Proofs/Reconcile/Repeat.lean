import OfferLedger.Proofs.Reconcile.Resume

/-! # Reconciling again

Of a batch only the last listing of each offer counts. Batches that have these in common are
reconciled alike, in any order and with any repetitions, and after one of them nothing is due for
another. -/
namespace OfferLedger

namespace Program

variable {α σ : Type}

/-- Whatever is replied, a program that comes to its end has reported what belongs to its result. -/
def Reports : Program α → (List Progress → α → Prop) → Prop
  | done a, P => P [] a
  | report p next, P => next.Reports fun events a => P (p :: events) a
  | call _ next, P => ∀ reply, (next reply).Reports P

theorem Reports.of_returns {repo : Repository σ} {p : Program α} {P : List Progress → α → Prop}
    (hp : p.Reports P) {s s' : σ} {a : α} (h : p.Returns repo s a s') :
    P (p.run repo s).progress a := by
  induction p generalizing s P with
  | done a' =>
    cases h.1
    exact hp
  | report e next ih => exact ih hp h
  | call c next ih =>
    obtain ⟨hr, hstate⟩ := h
    rw [run] at hr hstate ⊢
    cases hc : repo c s with
    | mk answer s₁ =>
      cases answer with
      | error e =>
        rw [hc] at hr
        cases hr
      | ok reply =>
        rw [hc] at hr hstate
        exact ih reply (hp reply) ⟨hr, hstate⟩

theorem reports_unless {P : List Progress → α → Prop} {b : Bool} {c : Call}
    {next : c.Reply → Program α} (reply₀ : c.Reply) (h : ∀ reply, (next reply).Reports P) :
    (if b then next reply₀ else perform c >>= next).Reports P := by
  cases b with
  | true => exact h reply₀
  | false => exact h

end Program

def Counts.reported (c : Counts) (total : Nat) : List Progress :=
  [.classifying total, .classified c.created c.updated c.skipped, .inserting c.created,
    .updating c.updated, .touching c.skipped, .removing]

theorem reports_reconcile (partition : PartitionKey) (listings : List Listing) (batch : BatchId) :
    (reconcile partition listings batch).Reports fun events counts =>
      events = counts.reported (lastWins listings).length := by
  intro known
  apply Program.reports_unless ()
  intro _
  apply Program.reports_unless ()
  intro _
  apply Program.reports_unless ()
  intro _ removed
  rfl

/-- Each offer has the same last listing in both batches, or is in neither. -/
def SameLast (a b : List Listing) : Prop := ∀ id, lastFor a id = lastFor b id

namespace SameLast

variable {a b : List Listing}

theorem mem_ids_iff (h : SameLast a b) (id : SourceId) :
    id ∈ a.map (·.sourceId) ↔ id ∈ b.map (·.sourceId) := by
  rw [← lastFor_isSome_iff, h id, lastFor_isSome_iff]

theorem iff_of_listed : SameLast a b ↔
    ∀ id ∈ (a ++ b).map (·.sourceId), lastFor a id = lastFor b id := by
  constructor
  · exact fun h id _ => h id
  · intro h id
    by_cases hid : id ∈ (a ++ b).map (·.sourceId)
    · exact h id hid
    · rw [List.map_append, List.mem_append, not_or] at hid
      rw [(lastFor_eq_none_iff a id).mpr hid.1, (lastFor_eq_none_iff b id).mpr hid.2]

instance (a b : List Listing) : Decidable (SameLast a b) := decidable_of_iff' _ iff_of_listed

theorem toFinset_ids (h : SameLast a b) :
    (a.map (·.sourceId)).toFinset = (b.map (·.sourceId)).toFinset := by
  ext id
  rw [List.mem_toFinset, List.mem_toFinset, h.mem_ids_iff]

theorem missing?_eq (h : SameLast a b) (v : View) (partition : PartitionKey) (id : SourceId) :
    v.missing? partition ((lastWins a).map (·.sourceId)) id =
      v.missing? partition ((lastWins b).map (·.sourceId)) id := by
  have hids : ((lastWins a).map (·.sourceId)).contains id =
      ((lastWins b).map (·.sourceId)).contains id := by
    rw [Bool.eq_iff_iff, List.contains_iff_mem, List.contains_iff_mem, mem_ids_lastWins,
      mem_ids_lastWins, h.mem_ids_iff]
  simp only [View.missing?, hids]

theorem due?_eq (h : SameLast a b) (v : View) (partition : PartitionKey) (id : SourceId) :
    v.due? partition a id = v.due? partition b id := by
  rw [View.due?, View.due?, h id, h.missing?_eq]

theorem gone_eq (h : SameLast a b) (v : View) (partition : PartitionKey) :
    v.gone partition a = v.gone partition b := by
  simp only [View.gone, h.mem_ids_iff]

theorem created_eq (h : SameLast a b) (v : View) : v.created a = v.created b := by
  simp only [View.created, h _]

theorem updated_eq (h : SameLast a b) (v : View) : v.updated a = v.updated b := by
  simp only [View.updated, h _]

theorem skipped_eq (h : SameLast a b) (v : View) : v.skipped a = v.skipped b := by
  simp only [View.skipped, h _]

end SameLast

section

variable {partition : PartitionKey} {a b listings : List Listing} {batch again : BatchId}
  {before after after' : View} {counts counts' : Counts}

theorem Reconciled.counts_eq (hsame : SameLast a b)
    (ha : Reconciled partition a batch before after counts)
    (hb : Reconciled partition b batch before after' counts') : counts = counts' := by
  have hcreated : (counts.created : ℕ∞) = counts'.created := by
    rw [ha.countCreated, hb.countCreated, hsame.created_eq]
  have hupdated : (counts.updated : ℕ∞) = counts'.updated := by
    rw [ha.countUpdated, hb.countUpdated, hsame.updated_eq]
  have hskipped : (counts.skipped : ℕ∞) = counts'.skipped := by
    rw [ha.countSkipped, hb.countSkipped, hsame.skipped_eq]
  have hremoved : (counts.removed : ℕ∞) = counts'.removed := by
    rw [ha.countRemoved, hb.countRemoved, hsame.gone_eq]
  cases counts
  cases counts'
  rw [Counts.mk.injEq]
  exact ⟨Nat.cast_inj.mp hcreated, Nat.cast_inj.mp hupdated, Nat.cast_inj.mp hskipped,
    Nat.cast_inj.mp hremoved⟩

theorem Reconciled.history_congr (hsame : SameLast a b)
    (ha : Reconciled partition a batch before after counts)
    (hb : Reconciled partition b batch before after' counts') : after.history = after'.history := by
  funext id
  rw [ha.history_eq, hb.history_eq, hsame.due?_eq]

theorem Reconciled.nothing_due (h : Reconciled partition listings batch before after counts)
    (hb : before.Consistent) (ha : after.Consistent) (id : SourceId) :
    after.due? partition listings id = none := by
  have hhistory := h.history_eq id
  cases hdue : before.due? partition listings id with
  | none =>
    rw [hdue, Option.map_none, Option.toList_none, List.append_nil] at hhistory
    rw [ha.due?_congr hb hhistory, hdue]
  | some e =>
    rw [hdue] at hhistory
    exact ha.due?_of_made hdue hb hhistory

theorem Reconciled.idle (h : Reconciled partition listings batch before after counts)
    (hdue : ∀ id, before.due? partition listings id = none) :
    counts = ⟨0, 0, (listings.map (·.sourceId)).toFinset.card, 0⟩ ∧
      after.history = before.history := by
  have hcreated : before.created listings = ∅ := by
    refine Set.eq_empty_of_forall_notMem fun id => ?_
    rintro ⟨l, hl, hr⟩
    have := hdue id
    rw [View.due?_of_new hl hr] at this
    cases this
  have hupdated : before.updated listings = ∅ := by
    refine Set.eq_empty_of_forall_notMem fun id => ?_
    rintro ⟨l, hl, hr, hshows⟩
    obtain ⟨r, hr⟩ := Option.ne_none_iff_exists'.mp hr
    have := hdue id
    rw [View.due?_of_changed hl hr hshows] at this
    cases this
  have hgone : before.gone partition listings = ∅ := by
    refine Set.eq_empty_of_forall_notMem fun id hid => ?_
    obtain ⟨r, hr⟩ := Option.isSome_iff_exists.mp ((View.isSome_missing?_lastWins id).mpr hid)
    have := hdue id
    rw [View.due?_of_missing hr] at this
    cases this
  have hc := h.countCreated
  have hu := h.countUpdated
  have hr := h.countRemoved
  have hlisted := h.countListed
  rw [hcreated, Set.encard_empty, Nat.cast_eq_zero] at hc
  rw [hupdated, Set.encard_empty, Nat.cast_eq_zero] at hu
  rw [hgone, Set.encard_empty, Nat.cast_eq_zero] at hr
  rw [hc, hu, Nat.zero_add] at hlisted
  constructor
  · cases counts
    rw [Counts.mk.injEq]
    exact ⟨hc, hu, hlisted, hr⟩
  · funext id
    rw [h.history_eq, hdue, Option.map_none, Option.toList_none, List.append_nil]

theorem Reconciled.idle_again (hsame : SameLast a b) (hb : before.Consistent) (ha : after.Consistent)
    (h : Reconciled partition a batch before after counts)
    (h' : Reconciled partition b again after after' counts') :
    counts' = ⟨0, 0, (b.map (·.sourceId)).toFinset.card, 0⟩ ∧ after'.history = after.history := by
  apply h'.idle
  intro id
  rw [← hsame.due?_eq]
  exact h.nothing_due hb ha id

end

theorem progress_congr {σ : Type} {repo repo' : Repository σ} {s s' t t' : σ}
    {partition : PartitionKey} {a b : List Listing} {batch : BatchId} {counts : Counts}
    (hsame : SameLast a b)
    (ha : (reconcile partition a batch).Returns repo s counts s')
    (hb : (reconcile partition b batch).Returns repo' t counts t') :
    ((reconcile partition a batch).run repo s).progress =
      ((reconcile partition b batch).run repo' t).progress := by
  rw [(reports_reconcile partition a batch).of_returns ha,
    (reports_reconcile partition b batch).of_returns hb, length_lastWins, length_lastWins,
    hsame.toFinset_ids]

theorem Ledger.Sound.kept_of_returns {l l' : Ledger} (hs : l.Sound) {c : Conditions}
    {partition : PartitionKey} {listings : List Listing} {batch : BatchId} {counts : Counts}
    (h : (OfferLedger.reconcile partition listings batch).Returns (repository c) l counts l') :
    Kept l l' := by
  rw [← h.2]
  exact (calls_reconcile partition listings batch).run
    (fun _ _ hc hk => hk.trans (hk.sound.call c hc)) hs.kept

theorem Ledger.revisions_eq_of_histories {l l' : Ledger} (hp : l.revisions <+: l'.revisions)
    (h : l'.histories = l.histories) : l'.revisions = l.revisions := by
  obtain ⟨added, hadded⟩ := hp
  cases added with
  | nil => rw [← hadded, List.append_nil]
  | cons row rest =>
    -- A row that was added makes the history of its offer longer.
    have hhistory := history_eq_of_histories ⟨_, hadded⟩ (congrFun h row.sourceId)
    have hlength := congrArg List.length hhistory
    rw [Ledger.history, Ledger.history, ← hadded, List.filter_append,
      List.filter_cons_of_pos (by simp), List.length_append, List.length_cons] at hlength
    omega

/-- Two batches with the same last listings are reconciled alike from any state: with the same
counts and reports, to the same histories and activity. After one of them the other finds every
offer as it is listed, and nothing is appended. Batches can have been opened and closed in the
ledger before that. -/
theorem reconcile_sameLast (partition : PartitionKey) (a b : List Listing) (hsame : SameLast a b)
    (batch : BatchId) :
    (∀ s : MemoryStore, s.Reachable → ∀ again, ∃ counts once other twice,
      (reconcile partition a batch).Returns MemoryStore.repository s counts once ∧
      (reconcile partition b batch).Returns MemoryStore.repository s counts other ∧
      ((reconcile partition a batch).run MemoryStore.repository s).progress =
        ((reconcile partition b batch).run MemoryStore.repository s).progress ∧
      other.view = once.view ∧
      (reconcile partition b again).Returns MemoryStore.repository once
        ⟨0, 0, (b.map (·.sourceId)).toFinset.card, 0⟩ twice ∧
      twice.view = once.view) ∧
    ∀ l : Ledger, l.Reachable → l.hasBatch batch = true →
      ∀ c c' c'' : Conditions, c.faults = [] → c'.faults = [] → c''.faults = [] →
      ∃ counts once other,
        (reconcile partition a batch).Returns (Ledger.repository c) l counts once ∧
        (reconcile partition b batch).Returns (Ledger.repository c') l counts other ∧
        ((reconcile partition a batch).run (Ledger.repository c) l).progress =
          ((reconcile partition b batch).run (Ledger.repository c') l).progress ∧
        other.view = once.view ∧
        ∀ batches again, Ledger.hasBatch { once with batches := batches } again = true →
        ∃ twice,
          (reconcile partition b again).Returns (Ledger.repository c'')
            { once with batches := batches } ⟨0, 0, (b.map (·.sourceId)).toFinset.card, 0⟩ twice ∧
          twice.view = once.view ∧ twice.revisions = once.revisions := by
  constructor
  · intro s hs again
    have hopen : ∀ s batch, MemoryStore.store.HasBatch s batch := fun _ _ => trivial
    obtain ⟨counts, once, hrun, hs₁, honce⟩ :=
      MemoryStore.store.reconcile_sound hs.sound (hopen s batch) partition a
    obtain ⟨counts', other, hrun', hs₂, hother⟩ :=
      MemoryStore.store.reconcile_sound hs.sound (hopen s batch) partition b
    obtain ⟨counts'', twice, hrun'', hs₃, htwice⟩ :=
      MemoryStore.store.reconcile_sound hs₁ (hopen once again) partition b
    have hv₁ := MemoryStore.store.consistent hs₁
    obtain rfl := honce.counts_eq hsame hother
    obtain ⟨rfl, hidle⟩ := honce.idle_again hsame hs.sound.consistent hv₁ htwice
    have hreports := progress_congr hsame hrun hrun'
    have hview := (MemoryStore.store.consistent hs₂).ext hv₁ (honce.history_congr hsame hother).symm
    have hview' := (MemoryStore.store.consistent hs₃).ext hv₁ hidle
    exact ⟨counts, once, other, twice, hrun, hrun', hreports, hview, hrun'', hview'⟩
  · rintro l hl hb ⟨now, faults⟩ ⟨now', faults'⟩ ⟨now'', faults''⟩ rfl rfl rfl
    obtain ⟨counts, once, hrun, hs₁, honce⟩ :=
      (Ledger.store now).reconcile_sound hl.sound hb partition a
    obtain ⟨counts', other, hrun', hs₂, hother⟩ :=
      (Ledger.store now').reconcile_sound hl.sound hb partition b
    have hv₁ := Ledger.Sound.consistent hs₁
    obtain rfl := honce.counts_eq hsame hother
    have hreports := progress_congr hsame hrun hrun'
    have hview := (Ledger.Sound.consistent hs₂).ext hv₁ (honce.history_congr hsame hother).symm
    refine ⟨counts, once, other, hrun, hrun', hreports, hview, fun batches again hagain => ?_⟩
    have hopened := Ledger.Sound.withBatches hs₁ batches
    obtain ⟨counts'', twice, hrun'', hs₃, htwice⟩ :=
      (Ledger.store now'').reconcile_sound hopened hagain partition b
    obtain ⟨rfl, hidle⟩ := honce.idle_again hsame hl.sound.consistent hv₁ htwice
    have hkept := hopened.kept_of_returns hrun''
    exact ⟨twice, hrun'', (Ledger.Sound.consistent hs₃).ext hv₁ hidle,
      Ledger.revisions_eq_of_histories hkept.revisions hidle⟩

/-- From stores that hold one offer, which neither batch lists. The one batch is in another order
than the other and has a listing that is overwritten; both list an offer of another region. -/
theorem reconcile_sameLast_reordered :
    let s : MemoryStore := ((reconcile "SP" [{ sourceId := "x", uf := "SP" }] 1).run
      MemoryStore.repository {}).state
    let l : Ledger := ((reconcile "SP" [{ sourceId := "x", uf := "SP" }] 1).run
      (Ledger.repository ⟨⟨5⟩, []⟩) ⟨[⟨1, "SP", none, ⟨0⟩, none⟩], [], []⟩).state
    let a : List Listing := [{ sourceId := "b", uf := "SP", city := "Santos" },
      { sourceId := "c", uf := "RJ" }, { sourceId := "b", uf := "SP" }]
    let b : List Listing := [{ sourceId := "b", uf := "SP" }, { sourceId := "c", uf := "RJ" }]
    (∃ counts once other twice,
      (reconcile "SP" a 2).Returns MemoryStore.repository s counts once ∧
      (reconcile "SP" b 2).Returns MemoryStore.repository s counts other ∧
      ((reconcile "SP" a 2).run MemoryStore.repository s).progress =
        ((reconcile "SP" b 2).run MemoryStore.repository s).progress ∧
      other.view = once.view ∧
      (reconcile "SP" b 3).Returns MemoryStore.repository once
        ⟨0, 0, (b.map (·.sourceId)).toFinset.card, 0⟩ twice ∧
      twice.view = once.view) ∧
    ∃ counts once other twice,
      (reconcile "SP" a 1).Returns (Ledger.repository ⟨⟨7⟩, []⟩) l counts once ∧
      (reconcile "SP" b 1).Returns (Ledger.repository ⟨⟨8⟩, []⟩) l counts other ∧
      ((reconcile "SP" a 1).run (Ledger.repository ⟨⟨7⟩, []⟩) l).progress =
        ((reconcile "SP" b 1).run (Ledger.repository ⟨⟨8⟩, []⟩) l).progress ∧
      other.view = once.view ∧
      (reconcile "SP" b 2).Returns (Ledger.repository ⟨⟨9⟩, []⟩)
        { once with batches := once.batches ++ [⟨2, "SP", none, ⟨8⟩, none⟩] }
        ⟨0, 0, (b.map (·.sourceId)).toFinset.card, 0⟩ twice ∧
      twice.view = once.view ∧ twice.revisions = once.revisions := by
  intro s l a b
  have hs : s.Reachable := MemoryStore.Reachable.empty.reconcile _ _ _
  have hopen : Ledger.Reachable ⟨[⟨1, "SP", none, ⟨0⟩, none⟩], [], []⟩ :=
    .startBatch (c := ⟨⟨0⟩, []⟩) .empty rfl
  have hl : l.Reachable := hopen.reconcile _ _ _ _
  have hsame : SameLast a b := by decide +kernel
  obtain ⟨counts, once, other, hrun, hrun', hprogress, hview, hagain⟩ :=
    (reconcile_sameLast "SP" a b hsame 1).2 l hl (by decide +kernel)
      ⟨⟨7⟩, []⟩ ⟨⟨8⟩, []⟩ ⟨⟨9⟩, []⟩ rfl rfl rfl
  obtain ⟨twice, htwice⟩ := hagain (once.batches ++ [⟨2, "SP", none, ⟨8⟩, none⟩]) 2
    (by simp [Ledger.hasBatch])
  exact ⟨(reconcile_sameLast "SP" a b hsame 2).1 s hs 3,
    counts, once, other, twice, hrun, hrun', hprogress, hview, htwice⟩

end OfferLedger
