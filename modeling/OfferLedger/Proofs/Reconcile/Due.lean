import OfferLedger.Proofs.Reconcile.Effect
import OfferLedger.Proofs.Store.Effects

/-! # What is due

A reconciliation makes at most one entry for an offer, and what the offer was before says which. A run
that was stopped has made some of the entries that were due, and no others. What it has made is not due
any more, so that running again makes the rest. -/
namespace OfferLedger
namespace View

/-- The entry that reconciling a region with some listings makes for an offer. -/
def due? (v : View) (partition : PartitionKey) (listings : List Listing) (id : SourceId) :
    Option Entry :=
  match lastFor listings id with
  | some l =>
    match v.latest? id with
    | none => some ⟨l, 1, .insert⟩
    | some r => if v.Shows l then none else some ⟨l, r.version + 1, .update⟩
  | none => (v.missing? partition ((lastWins listings).map (·.sourceId)) id).map Revision.removal

section

variable {v w : View} {partition : PartitionKey} {listings : List Listing} {id : SourceId}
  {l : Listing} {e : Entry}

theorem due?_of_new (hl : lastFor listings id = some l) (hr : v.latest? id = none) :
    v.due? partition listings id = some ⟨l, 1, .insert⟩ := by
  simp [due?, hl, hr]

theorem due?_of_changed {r : Revision} (hl : lastFor listings id = some l)
    (hr : v.latest? id = some r) (hshows : ¬ v.Shows l) :
    v.due? partition listings id = some ⟨l, r.version + 1, .update⟩ := by
  simp [due?, hl, hr, hshows]

theorem due?_of_shows (hl : lastFor listings id = some l) (hshows : v.Shows l) :
    v.due? partition listings id = none := by
  have hlisting := hshows.2
  rw [sourceId_of_lastFor hl] at hlisting
  obtain ⟨r, hr, -⟩ := Option.map_eq_some_iff.mp hlisting
  simp [due?, hl, hr, hshows]

theorem notMem_of_missing? {r : Revision}
    (hr : v.missing? partition ((lastWins listings).map (·.sourceId)) id = some r) :
    id ∉ listings.map (·.sourceId) :=
  ((isSome_missing?_lastWins id).mp (Option.isSome_of_eq_some hr)).1

theorem due?_of_unlisted (hid : id ∉ listings.map (·.sourceId)) :
    v.due? partition listings id =
      (v.missing? partition ((lastWins listings).map (·.sourceId)) id).map Revision.removal := by
  rw [due?, (lastFor_eq_none_iff listings id).mpr hid]

theorem due?_of_missing {r : Revision}
    (hr : v.missing? partition ((lastWins listings).map (·.sourceId)) id = some r) :
    v.due? partition listings id = some r.removal := by
  rw [due?_of_unlisted (notMem_of_missing? hr), hr]
  rfl

theorem due?_cases (h : v.due? partition listings id = some e) :
    (lastFor listings id = some e.listing ∧ v.latest? id = none ∧ e = ⟨e.listing, 1, .insert⟩) ∨
    (lastFor listings id = some e.listing ∧ ¬ v.Shows e.listing ∧
      ∃ r, v.latest? id = some r ∧ e = ⟨e.listing, r.version + 1, .update⟩) ∨
    ∃ r, v.missing? partition ((lastWins listings).map (·.sourceId)) id = some r ∧
      e = r.removal := by
  unfold due? at h
  split at h
  · rename_i l hl
    split at h
    · rename_i hr
      cases h
      exact .inl ⟨hl, hr, rfl⟩
    · rename_i r hr
      split at h
      · cases h
      · rename_i hshows
        cases h
        exact .inr (.inl ⟨hl, hshows, r, hr, rfl⟩)
  · obtain ⟨r, hr, rfl⟩ := Option.map_eq_some_iff.mp h
    exact .inr (.inr ⟨r, hr, rfl⟩)

theorem Consistent.sourceId_due? (hv : v.Consistent) (h : v.due? partition listings id = some e) :
    e.listing.sourceId = id := by
  rcases due?_cases h with ⟨hl, -⟩ | ⟨hl, -⟩ | ⟨r, hr, rfl⟩
  · exact sourceId_of_lastFor hl
  · exact sourceId_of_lastFor hl
  · exact hv.sourceId_missing hr

theorem uf_due? (huf : ∀ l ∈ listings, l.uf = partition)
    (h : v.due? partition listings id = some e) : e.listing.uf = partition := by
  rcases due?_cases h with ⟨hl, -⟩ | ⟨hl, -⟩ | ⟨r, hr, rfl⟩
  · exact huf _ (mem_of_lastFor hl)
  · exact huf _ (mem_of_lastFor hl)
  · have hp := (Option.filter_eq_some_iff.mp hr).2
    simp only [Bool.and_eq_true, decide_eq_true_eq] at hp
    exact hp.1.2

theorem Consistent.fits_due? (hv : v.Consistent) (h : v.due? partition listings id = some e) :
    v.history.Fits e := by
  have hid := hv.sourceId_due? h
  subst hid
  unfold Histories.Fits
  rcases due?_cases h with ⟨-, hr, he⟩ | ⟨-, -, r, hr, he⟩ | ⟨r, hr, he⟩
  · rw [(v.latest?_eq_none_iff _).mp hr, he]
    rfl
  · rw [← hv.version_latest hr, he]
  · rw [← hv.version_latest (Option.filter_eq_some_iff.mp hr).1, he]
    rfl

theorem Consistent.missing?_congr (hv : v.Consistent) (hw : w.Consistent)
    (h : v.history id = w.history id) (partition : PartitionKey) (ids : List SourceId) :
    v.missing? partition ids id = w.missing? partition ids id := by
  rw [missing?, missing?, hv.isActive_congr hw h, latest?, latest?, h]

theorem Consistent.due?_congr (hv : v.Consistent) (hw : w.Consistent)
    (h : v.history id = w.history id) (partition : PartitionKey) (listings : List Listing) :
    v.due? partition listings id = w.due? partition listings id := by
  have hlatest : v.latest? id = w.latest? id := by rw [latest?, latest?, h]
  cases hl : lastFor listings id with
  | none =>
    have hid := (lastFor_eq_none_iff listings id).mp hl
    rw [due?_of_unlisted hid, due?_of_unlisted hid, hv.missing?_congr hw h]
  | some l =>
    have hshows : v.Shows l ↔ w.Shows l := hv.shows_congr hw (by rw [sourceId_of_lastFor hl, h])
    by_cases hs : v.Shows l
    · rw [due?_of_shows hl hs, due?_of_shows hl (hshows.mp hs)]
    · have hs' : ¬ w.Shows l := mt hshows.mpr hs
      cases hr : v.latest? id with
      | none => rw [due?_of_new hl hr, due?_of_new hl (hlatest ▸ hr)]
      | some r => rw [due?_of_changed hl hr hs, due?_of_changed hl (hlatest ▸ hr) hs']

/-- What was due is no longer due once it was made. -/
theorem Consistent.due?_of_made (hw : w.Consistent) {batch : BatchId}
    (he : v.due? partition listings id = some e) (hv : v.Consistent)
    (h : w.history id = v.history id ++ [e.revision batch]) :
    w.due? partition listings id = none := by
  have hlatest : w.latest? id = some (e.revision batch) := by
    rw [latest?, h, List.getLast?_concat]
  have hid := hv.sourceId_due? he
  subst hid
  rcases due?_cases he with ⟨hl, -, hentry⟩ | ⟨hl, -, r, -, hentry⟩ | ⟨r, hr, rfl⟩
  · exact due?_of_shows hl (hw.shows_of_append h (by rw [hentry]; exact Operation.noConfusion))
  · exact due?_of_shows hl (hw.shows_of_append h (by rw [hentry]; exact Operation.noConfusion))
  · have hinactive : w.isActive r.removal.listing.sourceId = false := by
      rw [hw.isActive, hlatest]
      rfl
    rw [due?_of_unlisted (notMem_of_missing? hr), missing?, hlatest, hinactive]
    rfl

end
end View

theorem Reconciled.history_eq {partition : PartitionKey} {listings : List Listing} {batch : BatchId}
    {before after : View} {counts : Counts}
    (h : Reconciled partition listings batch before after counts) (id : SourceId) :
    after.history id = before.history id ++
      ((before.due? partition listings id).map (·.revision batch)).toList := by
  cases hl : lastFor listings id with
  | none =>
    have hid := (lastFor_eq_none_iff listings id).mp hl
    rw [View.due?_of_unlisted hid]
    cases hr : before.missing? partition ((lastWins listings).map (·.sourceId)) id with
    | none =>
      have hgone : id ∉ before.gone partition listings := by
        rw [← View.isSome_missing?_lastWins, hr]
        simp
      simp [(h.others id hid hgone).1]
    | some r =>
      have hgone : id ∈ before.gone partition listings := by
        rw [← View.isSome_missing?_lastWins, hr]
        rfl
      exact (h.removed id hgone r (Option.filter_eq_some_iff.mp hr).1).1
  | some l =>
    by_cases hs : before.Shows l
    · rw [View.due?_of_shows hl hs, h.skipped id ⟨l, hl, hs⟩]
      simp
    · cases hr : before.latest? id with
      | none =>
        rw [View.due?_of_new hl hr, h.created id ⟨l, hl, hr⟩ l hl,
          (before.latest?_eq_none_iff id).mp hr]
        rfl
      | some r =>
        have hknown : before.latest? id ≠ none := by simp [hr]
        rw [View.due?_of_changed hl hr hs, h.updated id ⟨l, hl, hknown, hs⟩ l r hl hr]
        rfl

/-- A reconciliation of a region that was begun: for each offer it has made what is due, or nothing. -/
def Partway (partition : PartitionKey) (listings : List Listing) (batch : BatchId)
    (before now : View) : Prop :=
  ∀ id, now.history id = before.history id ∨
    ∃ e, before.due? partition listings id = some e ∧
      now.history id = before.history id ++ [e.revision batch]

/-- A call that makes nothing but what is due. -/
def Call.MakesDue (v : View) (partition : PartitionKey) (listings : List Listing) (batch : BatchId) :
    Call → Prop
  | append entries batch' => batch' = batch ∧
      ∀ e ∈ entries, v.due? partition listings e.listing.sourceId = some e
  | removeMissing partition' ids batch' => partition' = partition ∧
      ids = (lastWins listings).map (·.sourceId) ∧ batch' = batch
  | _ => True

theorem Call.Effect.partway {c : Call} {partition : PartitionKey} {listings : List Listing}
    {batch : BatchId} {before now after : View} (he : c.Effect now after.history)
    (hw : c.WellFormed) (hc : c.MakesDue before partition listings batch)
    (hb : before.Consistent) (hn : now.Consistent)
    (h : Partway partition listings batch before now) :
    Partway partition listings batch before after := by
  intro id
  generalize after.history = history at he
  cases he with
  | unchanged => exact h id
  | @appended entries batch' v hfits =>
    obtain ⟨rfl, hdue⟩ := hc
    by_cases hid : id ∈ entries.map (·.listing.sourceId)
    · obtain ⟨e, hmem, rfl⟩ := List.mem_map.mp hid
      rw [Histories.grown_of_mem hw.1 hmem]
      rcases h e.listing.sourceId with hsame | ⟨e', -, hmade⟩
      · exact .inr ⟨e, hdue e hmem, by rw [hsame]⟩
      · -- An entry that is due fits what was there before, and nothing longer.
        have hfits' := hb.fits_due? (hdue e hmem)
        have hnow := hfits e hmem
        rw [Histories.Fits] at hfits' hnow
        rw [hmade, List.length_append, List.length_singleton] at hnow
        omega
    · rw [Histories.grown_of_notMem hid]
      exact h id
  | removed partition' ids batch' v =>
    obtain ⟨rfl, rfl, rfl⟩ := hc
    unfold View.removed
    split
    · exact h id
    · rename_i r hr
      have hdue := View.due?_of_missing hr
      rcases h id with hsame | ⟨e, he, hmade⟩
      · rw [hn.due?_congr hb hsame] at hdue
        exact .inr ⟨r.removal, hdue, by rw [hsame]⟩
      · rw [hn.due?_of_made he hb hmade] at hdue
        cases hdue

section

variable {v : View} {partition : PartitionKey} {listings : List Listing} {batch : BatchId}
  {known : Keyed SourceId Known}
  (hknown : ∀ id, Keyed.get? known id = (lastFor listings id).bind v.known?)
include hknown

theorem Plan.due_of_mem_inserts {e : Entry}
    (he : e ∈ (classify (Keyed.get? known) (lastWins listings)).inserts) :
    v.due? partition listings e.listing.sourceId = some e := by
  obtain ⟨hl, hr, heq⟩ := (mem_inserts_iff hknown e).mp he
  rw [View.due?_of_new hl hr, ← heq]

theorem Plan.due_of_mem_updates {e : Entry}
    (he : e ∈ (classify (Keyed.get? known) (lastWins listings)).updates) :
    v.due? partition listings e.listing.sourceId = some e := by
  obtain ⟨hl, hshows, r, hr, heq⟩ := (mem_updates_iff hknown e).mp he
  rw [View.due?_of_changed hl hr hshows, ← heq]

theorem makesDue_of_mem_callsAfter (hv : v.Consistent) {c : Call}
    (hc : c ∈ callsAfter partition listings batch known) :
    c.WellFormed ∧ c.MakesDue v partition listings batch := by
  rcases mem_callsAfter hc with rfl | rfl | rfl | rfl
  · exact ⟨Plan.wellFormed_inserts hknown batch, rfl, fun e he => Plan.due_of_mem_inserts hknown he⟩
  · exact ⟨Plan.wellFormed_updates hknown hv batch, rfl,
      fun e he => Plan.due_of_mem_updates hknown he⟩
  · exact ⟨trivial, trivial⟩
  · exact ⟨trivial, rfl, rfl, rfl⟩

end

theorem partway_refl (partition : PartitionKey) (listings : List Listing) (batch : BatchId)
    (v : View) : Partway partition listings batch v v :=
  fun _ => .inl rfl

theorem Faithful.partway {σ : Type} {answers : Answers σ} {view : σ → View} {Sound : σ → Prop}
    (F : Faithful answers view Sound) {s s' : σ} {partition : PartitionKey}
    {listings : List Listing} {batch : BatchId} {r : Except RepositoryError Counts} (hs : Sound s)
    (h : (reconcile partition listings batch).Ends answers s r s') :
    Sound s' ∧ Partway partition listings batch (view s) (view s') := by
  have hv := F.consistent hs
  have hstep : ∀ (c : Call) s₁ (r : Except RepositoryError c.Reply) s₂,
      c.WellFormed ∧ c.MakesDue (view s) partition listings batch →
      Sound s₁ ∧ Partway partition listings batch (view s) (view s₁) → answers c s₁ r s₂ →
      Sound s₂ ∧ Partway partition listings batch (view s) (view s₂) := by
    rintro c s₁ r s₂ ⟨hw, hc⟩ ⟨hs₁, hp⟩ hans
    obtain ⟨hs₂, he⟩ := F.effect hs₁ hw hans
    exact ⟨hs₂, he.partway hw hc hv (F.consistent hs₁) hp⟩
  have hbegin := And.intro hs (partway_refl partition listings batch (view s))
  rcases made_of_reconcile h with ⟨e, hans⟩ | ⟨known, s₁, hans, hmade⟩
  · exact hstep (.find (lastWins listings)) _ _ _ ⟨trivial, trivial⟩ hbegin hans
  · obtain ⟨rfl, hknown⟩ := F.find_lastWins hs hans
    exact hmade.keeps hstep (fun c hc => makesDue_of_mem_callsAfter hknown hv hc) hbegin

end OfferLedger
