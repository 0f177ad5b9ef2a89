import OfferLedger.Ledger.Write
import OfferLedger.Proofs.Ledger.Sound

/-! # Recording one revision

A write adds one row and gives its offer a new head. The guards accept exactly the next version: a
version that is there already stops at the rows, and one that leaves a gap at the head. -/
namespace OfferLedger.Ledger

def rowOf (c : Conditions) (batch : BatchId) (e : Entry) : RevisionRow :=
  ⟨e.revision batch, c.now, []⟩

def recorded (l : Ledger) (c : Conditions) (batch : BatchId) (e : Entry) : Ledger :=
  { l with revisions := l.revisions ++ [rowOf c batch e] }

def headAfter (c : Conditions) (batch : BatchId) (e : Entry) : Option Head → Head
  | none => ⟨e.listing.sourceId, e.listing.uf, 1, true, c.now, c.now, batch⟩
  | some h => advance c batch e h

/-- One row more, and a new head for its offer; nothing else is different. -/
structure Grown (l : Ledger) (row : RevisionRow) (head : Head) (l' : Ledger) : Prop where
  batches : l'.batches = l.batches
  revisions : l'.revisions = l.revisions ++ [row]
  nodup : (l'.heads.map (·.sourceId)).Nodup
  head? : ∀ id, l'.head? id = if row.sourceId = id then some head else l.head? id

theorem Grown.history {l l' : Ledger} {row : RevisionRow} {head : Head} (hg : Grown l row head l')
    (id : SourceId) :
    l'.history id = if row.sourceId = id then l.history id ++ [row] else l.history id := by
  rw [Ledger.history, hg.revisions, List.filter_append, List.filter_singleton]
  by_cases hid : row.sourceId = id <;> simp [hid, Ledger.history]

theorem Grown.histories {l l' : Ledger} {c : Conditions} {batch : BatchId} {e : Entry} {head : Head}
    (hg : Grown l (rowOf c batch e) head l') : l'.histories = l.histories.grown batch [e] := by
  funext id
  rw [Ledger.histories, hg.history, Histories.grown_singleton]
  change List.map _ (if e.listing.sourceId = id then _ else _) = _
  split
  · rw [List.map_append]
    rfl
  · rfl

/-- From one ledger to the other soundness is kept, no batch comes or goes, and no row is lost. -/
structure Kept (l l' : Ledger) : Prop where
  sound : l'.Sound
  batches : l'.batches = l.batches
  revisions : l.revisions <+: l'.revisions

theorem Sound.kept {l : Ledger} (hs : l.Sound) : Kept l l := ⟨hs, rfl, List.prefix_rfl⟩

theorem Kept.trans {l l' l'' : Ledger} (h : Kept l l') (h' : Kept l' l'') : Kept l l'' :=
  ⟨h'.sound, h'.batches.trans h.batches, h.revisions.trans h'.revisions⟩

theorem Kept.hasBatch_eq {l l' : Ledger} (h : Kept l l') (batch : BatchId) :
    l'.hasBatch batch = l.hasBatch batch :=
  congrArg (·.any (·.id = batch)) h.batches

theorem Kept.history {l l' : Ledger} (h : Kept l l') (id : SourceId) :
    l.history id <+: l'.history id :=
  h.revisions.filter _

theorem rows_of_histories {l l' : Ledger} (hp : l.revisions <+: l'.revisions) {id : SourceId}
    {added : List Revision} (h : l'.histories id = l.histories id ++ added) :
    ∃ rows, l'.history id = l.history id ++ rows ∧ rows.map (·.revision) = added := by
  obtain ⟨rows, hrows⟩ : l.history id <+: l'.history id := hp.filter _
  refine ⟨rows, hrows.symm, ?_⟩
  rw [Ledger.histories, Ledger.histories, ← hrows, List.map_append] at h
  exact List.append_cancel_left h

theorem history_eq_of_histories {l l' : Ledger} (hp : l.revisions <+: l'.revisions) {id : SourceId}
    (h : l'.histories id = l.histories id) : l'.history id = l.history id := by
  obtain ⟨rows, hrows, hadded⟩ := rows_of_histories hp (h.trans (List.append_nil _).symm)
  rw [hrows, List.map_eq_nil_iff.mp hadded, List.append_nil]

theorem Sound.grown {l l' : Ledger} {c : Conditions} {batch : BatchId} {e : Entry} {head : Head}
    (hs : l.Sound) (hg : Grown l (rowOf c batch e) head l') (hf : l.histories.Fits e)
    (hstanding : head.standing = (rowOf c batch e).standing)
    (hfirst : head.firstSeen = ((l.head? e.listing.sourceId).map (·.firstSeen)).getD c.now) :
    Kept l l' := by
  have hs' : l'.Sound := by
    constructor
    · exact hg.nodup
    · rw [hg.histories]
      exact hs.numbered.grown hf batch
    · intro row hr
      rw [hg.revisions, List.mem_append, List.mem_singleton] at hr
      rcases hr with hr | rfl
      · exact hs.undamaged row hr
      · rfl
    · intro id
      rw [hg.head?, hg.history]
      split
      · rw [List.getLast?_concat, Option.map_some, Option.map_some, hstanding]
      · exact hs.latest id
    · intro id
      rw [hg.head?, hg.history]
      split
      · rename_i hid
        have h := hs.first id
        rw [Option.map_some, hfirst, show e.listing.sourceId = id from hid, h, List.head?_append]
        cases (l.history id).head? <;> rfl
      · exact hs.first id
  exact ⟨hs', hg.batches, ⟨_, hg.revisions.symm⟩⟩

theorem record_eq_ok {c : Conditions} {batch : BatchId} {l l' : Ledger} {e : Entry}
    (h : l.record c batch e = .ok l') :
    1 ≤ e.version ∧ l.row? e.listing.sourceId e.version = none ∧ l.hasBatch batch = true ∧
      l' = l.recorded c batch e := by
  unfold record at h
  split at h
  · cases h
  · split at h
    · cases h
    · split at h
      · cases h
      · split at h
        · cases h
        · rename_i hv hr hb
          cases h
          exact ⟨by omega, by simpa using hr, by simpa using hb, rfl⟩

theorem record_of_free {c : Conditions} {batch : BatchId} {l : Ledger} {e : Entry}
    (hc : c.faults = []) (hb : l.hasBatch batch = true) (hv : 1 ≤ e.version)
    (hr : l.row? e.listing.sourceId e.version = none) :
    l.record c batch e = .ok (l.recorded c batch e) := by
  have hlow : ¬ e.version < 1 := by omega
  simp [record, hc, hb, hr, hlow, recorded, rowOf, Entry.revision]

theorem record_of_taken {c : Conditions} {batch : BatchId} {l : Ledger} {e : Entry}
    (hc : c.faults = []) (hv : 1 ≤ e.version)
    (hr : (l.row? e.listing.sourceId e.version).isSome) :
    l.record c batch e = .error e.conflict := by
  have hlow : ¬ e.version < 1 := by omega
  simp [record, hc, hr, hlow, Entry.conflict]

theorem head?_append_singleton (l : Ledger) (h : Head) (id : SourceId) :
    head? { l with heads := l.heads ++ [h] } id =
      (l.head? id).or (if h.sourceId = id then some h else none) := by
  rw [head?, List.find?_append]
  by_cases hid : h.sourceId = id <;> simp [hid, head?]

theorem find?_map_heads (heads : List Head) (move : Head → Head)
    (hm : ∀ h, (move h).sourceId = h.sourceId) (id : SourceId) :
    (heads.map move).find? (·.sourceId = id) = (heads.find? (·.sourceId = id)).map move := by
  rw [List.find?_map]
  simp only [Function.comp_def, hm]

theorem grown_of_moveHead {c : Conditions} {l l' : Ledger} {batch : BatchId} {e : Entry}
    {version : Int} {f : Head → Head} (hd : (l.heads.map (·.sourceId)).Nodup)
    (h : (l.recorded c batch e).moveHead c e.listing.sourceId version f = some l')
    (hf : ∀ h, (f h).sourceId = h.sourceId) :
    ∃ h₀, l.head? e.listing.sourceId = some h₀ ∧ h₀.latestVersion = version ∧
      Grown l (rowOf c batch e) (f h₀) l' := by
  simp only [moveHead] at h
  split at h
  · rename_i hany
    cases h
    rw [Bool.and_eq_true, List.any_eq_true] at hany
    obtain ⟨-, h₀, hmem, hat⟩ := hany
    simp only [Bool.and_eq_true, decide_eq_true_eq] at hat
    obtain ⟨hid, rfl⟩ := hat
    have hh₀ := head?_of_mem hd hmem
    rw [hid] at hh₀
    have hkeep : ∀ h : Head, (if h.sourceId = e.listing.sourceId &&
        h.latestVersion = h₀.latestVersion then f h else h).sourceId = h.sourceId := by
      intro h
      split
      · exact hf h
      · rfl
    refine ⟨h₀, hh₀, rfl, rfl, rfl, ?_, fun id => ?_⟩
    · rw [List.map_map]
      rwa [show ((·.sourceId) ∘ fun h : Head =>
        if h.sourceId = e.listing.sourceId && h.latestVersion = h₀.latestVersion then f h else h) =
          (·.sourceId) from funext hkeep]
    · rw [head?, find?_map_heads _ _ hkeep]
      change (l.head? id).map _ = if e.listing.sourceId = id then _ else _
      split
      · rename_i hid'
        rw [← hid', hh₀]
        simp [hid]
      · rename_i hid'
        cases hh' : l.head? id with
        | none => rfl
        | some h' =>
          have hne : h'.sourceId ≠ e.listing.sourceId := fun heq => hid' (heq ▸ head?_sourceId hh')
          simp [hne]
  · cases h

theorem moveHead_of_head? {c : Conditions} {l : Ledger} {e : Entry} {h : Head} (hc : c.faults = [])
    (batch : BatchId) (hh : l.head? e.listing.sourceId = some h) (f : Head → Head) :
    ∃ l', (l.recorded c batch e).moveHead c e.listing.sourceId h.latestVersion f = some l' := by
  have hany : l.heads.any
      (fun h' => h'.sourceId = e.listing.sourceId && h'.latestVersion = h.latestVersion) := by
    refine List.any_eq_true.mpr ⟨h, List.mem_of_find?_eq_some hh, ?_⟩
    simp [head?_sourceId hh]
  exact ⟨_, if_pos (by rw [hc]; exact hany)⟩

end OfferLedger.Ledger
