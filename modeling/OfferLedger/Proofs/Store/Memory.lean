import OfferLedger.Proofs.Store.Basic
import OfferLedger.Repository.Memory

/-! # The repository in memory is a store

Every call keeps the histories numbered, also one that fails halfway. -/
namespace OfferLedger.MemoryStore

structure Sound (s : MemoryStore) : Prop where
  nodup : (Keyed.keys s.histories).Nodup
  numbered : Histories.Numbered s.history

def view (s : MemoryStore) : View := ⟨s.history, s.isActive⟩

theorem Sound.consistent {s : MemoryStore} (hs : s.Sound) : s.view.Consistent :=
  ⟨hs.numbered, fun _ => rfl⟩

theorem sound_empty : Sound {} := ⟨List.nodup_nil, Histories.numbered_empty⟩

theorem known?_eq_view (s : MemoryStore) (l : Listing) : s.known? l = s.view.known? l := by
  have hv : s.view.latest? l.sourceId = s.latest? l.sourceId := rfl
  have ha : s.view.isActive l.sourceId = (s.latest? l.sourceId).any fun r => !r.isDelete := rfl
  rw [known?, View.known?, hv, ha]
  cases s.latest? l.sourceId <;> simp

theorem get?_find (s : MemoryStore) (listings : List Listing) (id : SourceId) :
    Keyed.get? (s.find listings) id = (lastFor listings id).bind s.view.known? := by
  rw [find, Keyed.get?_ofList, ← View.last?_known]
  simp only [known?_eq_view]

theorem history_put (s : MemoryStore) (id : SourceId) (revisions : List Revision)
    (lastSeen : Keyed SourceId BatchId) (id' : SourceId) :
    history ⟨s.histories.put id revisions, lastSeen⟩ id' =
      if id = id' then revisions else s.history id' := by
  unfold history
  rw [Keyed.get?_put]
  split <;> rfl

theorem appendOne_of_fits {s : MemoryStore} {e : Entry} (hs : s.Sound) (batch : BatchId)
    (he : Histories.Fits s.history e) :
    ∃ s', s.appendOne e batch = .ok s' ∧ s'.Sound ∧
      s'.history = Histories.grown s.history batch [e] := by
  have hv : e.version = s.nextVersion e.listing.sourceId := he
  let s' : MemoryStore := {
    histories := s.histories.put e.listing.sourceId
      (s.history e.listing.sourceId ++ [e.revision batch])
    lastSeen := s.lastSeen.put e.listing.sourceId batch }
  have hh : s'.history = Histories.grown s.history batch [e] := by
    funext id
    rw [history_put, Histories.grown_singleton]
    split
    · rename_i hid
      rw [hid]
    · rfl
  refine ⟨s', if_neg (not_not.mpr hv), ⟨Keyed.nodup_keys_put hs.nodup _ _, ?_⟩, hh⟩
  rw [hh]
  exact hs.numbered.grown he batch

theorem appendOne_of_not_fits {s : MemoryStore} {e : Entry} (batch : BatchId)
    (he : ¬ Histories.Fits s.history e) : s.appendOne e batch = .error e.conflict :=
  if_pos he

theorem appendAll_of_foldlM {batch : BatchId} {entries : List Entry} {s s' : MemoryStore}
    (h : entries.foldlM (fun s e => s.appendOne e batch) s = .ok s') :
    appendAll batch s entries = (.ok (), s') := by
  induction entries generalizing s with
  | nil =>
    cases h
    rfl
  | cons e rest ih =>
    rw [List.foldlM_cons] at h
    rw [appendAll]
    cases h₁ : s.appendOne e batch with
    | error err =>
      rw [h₁] at h
      cases h
    | ok s₁ =>
      rw [h₁] at h
      exact ih h

theorem appendAll_of_fits {s : MemoryStore} {entries : List Entry} (hs : s.Sound)
    (batch : BatchId) (hd : (entries.map (·.listing.sourceId)).Nodup)
    (hf : ∀ e ∈ entries, Histories.Fits s.history e) :
    ∃ s', appendAll batch s entries = (.ok (), s') ∧ s'.Sound ∧
      s'.history = Histories.grown s.history batch entries := by
  have happend : Appends (fun s e => s.appendOne e batch) history Sound batch
      (fun revisions e => e.version = revisions.length + 1) False :=
    fun s e hs he => .inr (appendOne_of_fits hs batch he)
  obtain ⟨s', h, hs', hh⟩ := happend.foldlM_ok hs hd hf
  exact ⟨s', appendAll_of_foldlM h, hs', hh⟩

theorem sound_appendAll {s : MemoryStore} (hs : s.Sound) (batch : BatchId) (entries : List Entry) :
    (appendAll batch s entries).2.Sound := by
  induction entries generalizing s with
  | nil => exact hs
  | cons e rest ih =>
    rw [appendAll]
    by_cases he : Histories.Fits s.history e
    · obtain ⟨s₁, h₁, hs₁, -⟩ := appendOne_of_fits hs batch he
      rw [h₁]
      exact ih hs₁
    · rw [appendOne_of_not_fits batch he]
      exact hs

theorem mem_histories_iff {s : MemoryStore} (hs : s.Sound) {id : SourceId}
    {revisions : List Revision} (hne : revisions ≠ []) :
    (id, revisions) ∈ s.histories ↔ s.history id = revisions := by
  rw [← Keyed.get?_eq_some_iff hs.nodup, history]
  cases h : Keyed.get? s.histories id with
  | none => simpa using hne.symm
  | some revisions' => simp

theorem mem_active_iff {s : MemoryStore} (hs : s.Sound) (l : Listing) :
    l ∈ s.active ↔
      ∃ r, s.latest? l.sourceId = some r ∧ r.isDelete = false ∧ r.listing = l := by
  unfold active
  rw [List.mem_filterMap]
  constructor
  · rintro ⟨revisions, hm, hl⟩
    obtain ⟨e, he, rfl⟩ := List.mem_map.mp hm
    cases hr : e.2.getLast? with
    | none =>
      rw [hr] at hl
      cases hl
    | some r =>
      have hne : e.2 ≠ [] := fun h => by
        rw [h] at hr
        cases hr
      have hh : s.history e.1 = e.2 := (mem_histories_iff hs hne).mp he
      have hid : r.listing.sourceId = e.1 :=
        hs.numbered.sourceId e.1 r (hh ▸ List.mem_of_getLast? hr)
      simp only [hr] at hl
      split at hl
      · cases hl
      · rename_i hd
        cases hl
        refine ⟨r, ?_, by simpa using hd, rfl⟩
        rw [latest?, hid, hh, hr]
  · rintro ⟨r, hr, hd, rfl⟩
    have hne : s.history r.listing.sourceId ≠ [] := fun h => by
      rw [latest?, h] at hr
      cases hr
    have he : (r.listing.sourceId, s.history r.listing.sourceId) ∈ s.histories :=
      (mem_histories_iff hs hne).mpr rfl
    refine ⟨s.history r.listing.sourceId, List.mem_map_of_mem (f := Prod.snd) he, ?_⟩
    rw [latest?] at hr
    simp [hr, hd]

theorem nodup_active {s : MemoryStore} (hs : s.Sound) : (s.active.map (·.sourceId)).Nodup := by
  have own : ∀ e ∈ s.histories, ∀ r ∈ e.2, r.listing.sourceId = e.1 := by
    intro e he r hr
    have hh : s.history e.1 = e.2 := (mem_histories_iff hs (List.ne_nil_of_mem hr)).mp he
    exact hs.numbered.sourceId e.1 r (hh ▸ hr)
  refine hs.nodup.sublist ?_
  unfold active Keyed.values Keyed.keys
  rw [List.filterMap_map]
  refine map_filterMap_sublist fun e he l hl => ?_
  rw [Function.comp_apply] at hl
  split at hl
  · rename_i r hr
    split at hl
    · cases hl
    · cases hl
      exact own e he r (List.mem_of_getLast? hr)
  · cases hl

theorem mem_missing_iff {s : MemoryStore} (hs : s.Sound) (partition : PartitionKey)
    (ids : List SourceId) (e : Entry) :
    e ∈ s.missing partition ids ↔
      ∃ r, s.view.missing? partition ids e.listing.sourceId = some r ∧ e = r.removal := by
  have hactive (id : SourceId) : s.view.isActive id = (s.latest? id).any fun r => !r.isDelete := rfl
  have hnext {id : SourceId} {r : Revision} (hr : s.latest? id = some r) :
      s.nextVersion id = r.version + 1 := by
    rw [hs.consistent.version_latest hr]
    rfl
  constructor
  · intro he
    obtain ⟨l, hl, rfl⟩ := List.mem_map.mp he
    obtain ⟨hl, hp⟩ := List.mem_filter.mp hl
    obtain ⟨r, hr, hd, rfl⟩ := (mem_active_iff hs l).mp hl
    refine ⟨r, Option.filter_eq_some_iff.mpr ⟨hr, ?_⟩, ?_⟩
    · rw [hactive, hr]
      simpa [hd] using hp
    · rw [hnext hr]
      rfl
  · rintro ⟨r, hr, rfl⟩
    change s.view.missing? partition ids r.listing.sourceId = some r at hr
    obtain ⟨hr, hp⟩ := Option.filter_eq_some_iff.mp hr
    change s.latest? r.listing.sourceId = some r at hr
    rw [hactive, hr] at hp
    simp only [Option.any_some, Bool.and_eq_true, Bool.not_eq_true', decide_eq_true_eq] at hp
    refine List.mem_map.mpr ⟨r.listing, List.mem_filter.mpr ⟨?_, ?_⟩, ?_⟩
    · exact (mem_active_iff hs r.listing).mpr ⟨r, hr, hp.1.1, rfl⟩
    · simpa [hp.1.2] using hp.2
    · rw [hnext hr]
      rfl

theorem nodup_missing {s : MemoryStore} (hs : s.Sound) (partition : PartitionKey)
    (ids : List SourceId) : ((s.missing partition ids).map (·.listing.sourceId)).Nodup := by
  unfold missing
  rw [List.map_map]
  exact (nodup_active hs).sublist (List.filter_sublist.map _)

theorem fits_of_mem_missing {s : MemoryStore} {partition : PartitionKey} {ids : List SourceId}
    {e : Entry} (he : e ∈ s.missing partition ids) : Histories.Fits s.history e := by
  obtain ⟨l, -, rfl⟩ := List.mem_map.mp he
  rfl

theorem removeMissing_eq {s : MemoryStore} (hs : s.Sound) (partition : PartitionKey)
    (ids : List SourceId) (batch : BatchId) :
    ∃ s', s.removeMissing partition ids batch = (.ok (s.missing partition ids).length, s') ∧
      s'.history = s.view.removed partition ids batch := by
  obtain ⟨s', h, -, hh⟩ := appendAll_of_fits hs batch (nodup_missing hs partition ids)
    fun e he => fits_of_mem_missing he
  refine ⟨s', ?_, hh.trans ?_⟩
  · rw [removeMissing, h]
    rfl
  · exact hs.consistent.grown_removals (nodup_missing hs partition ids)
      (mem_missing_iff hs partition ids) batch

theorem Sound.touch {s : MemoryStore} (hs : s.Sound) (ids : List SourceId) (batch : BatchId) :
    (s.touch ids batch).Sound :=
  ⟨hs.nodup, hs.numbered⟩

theorem Sound.call {s : MemoryStore} (hs : s.Sound) (c : Call) : (repository c s).2.Sound := by
  cases c with
  | find => exact hs
  | append entries batch =>
    change (s.append entries batch).2.Sound
    unfold append
    split
    · exact hs
    · exact sound_appendAll hs batch entries
  | touch ids batch => exact hs.touch ids batch
  | removeMissing partition ids batch => exact sound_appendAll hs batch _

def store : Store MemoryStore where
  repository := repository
  view := view
  Sound := Sound
  HasBatch _ _ := True
  consistent := Sound.consistent
  call hs c _ := ⟨hs.call c, fun _ => Iff.rfl⟩
  find := by
    intro s _ listings
    exact ⟨s.find listings, rfl, get?_find s listings⟩
  append := by
    intro s entries batch hs _ hw hf
    have hnone : s.firstConflict? entries = none := by
      refine List.find?_eq_none.mpr fun e he => ?_
      have hv : e.version = s.nextVersion e.listing.sourceId := hf e he
      simpa using hv
    obtain ⟨s', h, -, hh⟩ := appendAll_of_fits hs batch hw.1 hf
    refine ⟨s', ?_, hh⟩
    rw [← h]
    change s.append entries batch = _
    rw [append, hnone]
  conflict := by
    intro s entries batch e _ _ _ he
    have hfirst : s.firstConflict? entries = some e := he
    change s.append entries batch = _
    rw [append, hfirst]
    rfl
  touch := by
    intro s batch _ _ ids
    exact ⟨s.touch ids batch, rfl, rfl⟩
  removeMissing := by
    intro s batch hs _ partition ids
    obtain ⟨s', h, hh⟩ := removeMissing_eq hs partition ids batch
    exact ⟨_, s', h, hs.consistent.encard_missing (nodup_missing hs partition ids)
      (mem_missing_iff hs partition ids), hh⟩

/-- The states that any calls lead to, also calls that fail. -/
inductive Reachable : MemoryStore → Prop where
  | empty : Reachable {}
  | call {s} (c : Call) : Reachable s → Reachable (repository c s).2

theorem Reachable.sound {s : MemoryStore} (h : s.Reachable) : s.Sound := by
  induction h with
  | empty => exact sound_empty
  | call c _ ih => exact ih.call c

end OfferLedger.MemoryStore
