import OfferLedger.Proofs.Ledger.Frame

/-! # When offers were last seen

Each store marks an offer with the batch in which it was last written or touched. A removal is made
in a batch that does not list the offer: the ledger leaves its mark alone, and the repository in
memory, which appends a deletion like any other revision, does not. -/
namespace OfferLedger

/-- The batch in which each known offer was last seen. -/
abbrev Marks := SourceId → Option BatchId

def Marks.put (m : Marks) (batch : BatchId) (ids : List SourceId) : Marks := fun id =>
  if id ∈ ids then some batch else m id

theorem Marks.put_singleton (m : Marks) (batch : BatchId) (id id' : SourceId) :
    m.put batch [id] id' = if id = id' then some batch else m id' := by
  simp only [put, List.mem_singleton, eq_comm]

theorem Marks.put_put (m : Marks) (batch : BatchId) (a b : List SourceId) :
    (m.put batch a).put batch b = m.put batch (a ++ b) := by
  funext id
  simp only [put, List.mem_append]
  by_cases ha : id ∈ a <;> by_cases hb : id ∈ b <;> simp [ha, hb]

/-- What the calls that succeed make of the marks. Stores differ in the mark of an offer that was
removed. -/
structure Marking {σ : Type} (answers : Answers σ) (view : σ → View) (Sound : σ → Prop)
    (marks : σ → Marks) (removal : BatchId → Option BatchId → Option BatchId) : Prop where
  append : ∀ {s s' entries batch}, Sound s → (Call.append entries batch).Live →
    answers (.append entries batch) s (.ok ()) s' →
    marks s' = (marks s).put batch (entries.map (·.listing.sourceId))
  touch : ∀ {s s' ids batch}, Sound s → (∀ id ∈ ids, (view s).latest? id ≠ none) →
    answers (.touch ids batch) s (.ok ()) s' → marks s' = (marks s).put batch ids
  removed : ∀ {s s' partition ids batch n}, Sound s →
    answers (.removeMissing partition ids batch) s (.ok n) s' → ∀ id,
    ((view s).missing? partition ids id).isSome → marks s' id = removal batch (marks s id)
  kept : ∀ {s s' partition ids batch n}, Sound s →
    answers (.removeMissing partition ids batch) s (.ok n) s' → ∀ id,
    (view s).missing? partition ids id = none → marks s' id = marks s id

namespace MemoryStore

variable {s s' : MemoryStore} {batch : BatchId}

theorem lastSeenBatch?_of_appendOne {e : Entry} (h : s.appendOne e batch = .ok s') :
    s'.lastSeenBatch? = Marks.put s.lastSeenBatch? batch [e.listing.sourceId] := by
  simp only [appendOne] at h
  split at h
  · cases h
  · cases h
    funext id
    rw [Marks.put_singleton, lastSeenBatch?, Keyed.get?_put]
    rfl

theorem lastSeenBatch?_of_appendAll {entries : List Entry}
    (h : appendAll batch s entries = (.ok (), s')) :
    s'.lastSeenBatch? = Marks.put s.lastSeenBatch? batch (entries.map (·.listing.sourceId)) := by
  induction entries generalizing s with
  | nil =>
    cases h
    rfl
  | cons e rest ih =>
    rw [appendAll] at h
    cases hone : s.appendOne e batch with
    | error err =>
      rw [hone] at h
      cases h
    | ok s₁ =>
      rw [hone] at h
      rw [ih h, lastSeenBatch?_of_appendOne hone, Marks.put_put]
      rfl

theorem lastSeenBatch?_touch (s : MemoryStore) (ids : List SourceId) (batch : BatchId) :
    (s.touch ids batch).lastSeenBatch? = Marks.put s.lastSeenBatch? batch ids := by
  obtain ⟨histories, lastSeen⟩ := s
  induction ids generalizing lastSeen with
  | nil => rfl
  | cons id rest ih =>
    refine (ih (lastSeen.put id batch)).trans ?_
    rw [← List.singleton_append, ← Marks.put_put]
    congr 1
    funext id'
    rw [Marks.put_singleton, lastSeenBatch?, Keyed.get?_put]
    rfl

theorem lastSeenBatch?_of_removeMissing (hs : s.Sound) {partition : PartitionKey}
    {ids : List SourceId} {n : Nat} (h : s.removeMissing partition ids batch = (.ok n, s'))
    (id : SourceId) : s'.lastSeenBatch? id =
      if (s.view.missing? partition ids id).isSome then some batch else s.lastSeenBatch? id := by
  have hall : appendAll batch s (s.missing partition ids) = (.ok (), s') := by
    simp only [removeMissing] at h
    cases happend : appendAll batch s (s.missing partition ids) with
    | mk result state =>
      rw [happend] at h
      cases result with
      | error e => cases h
      | ok u =>
        cases h
        rfl
  have hmem : id ∈ (s.missing partition ids).map (·.listing.sourceId) ↔
      (s.view.missing? partition ids id).isSome := by
    rw [List.mem_map, Option.isSome_iff_exists]
    constructor
    · rintro ⟨e, he, rfl⟩
      obtain ⟨r, hr, -⟩ := (mem_missing_iff hs partition ids e).mp he
      exact ⟨r, hr⟩
    · rintro ⟨r, hr⟩
      have hid : r.removal.listing.sourceId = id := hs.consistent.sourceId_missing hr
      subst hid
      exact ⟨r.removal, (mem_missing_iff hs partition ids _).mpr ⟨r, hr, rfl⟩, rfl⟩
  rw [lastSeenBatch?_of_appendAll hall, Marks.put]
  simp only [hmem]

theorem marking : Marking answers view Sound lastSeenBatch? fun batch _ => some batch where
  append := by
    intro s s' entries batch _ _ h
    rcases h with h | ⟨⟨e, he⟩, -⟩
    · change s.append entries batch = _ at h
      unfold append at h
      split at h
      · cases h
      · exact lastSeenBatch?_of_appendAll h
    · cases he
  touch := by
    intro s s' ids batch _ _ h
    rcases h with h | ⟨⟨e, he⟩, -⟩
    · cases h
      exact lastSeenBatch?_touch s ids batch
    · cases he
  removed := by
    intro s s' partition ids batch n hs h id hid
    rcases h with h | ⟨⟨e, he⟩, -⟩
    · rw [lastSeenBatch?_of_removeMissing hs h, if_pos hid]
    · cases he
  kept := by
    intro s s' partition ids batch n hs h id hid
    rcases h with h | ⟨⟨e, he⟩, -⟩
    · rw [lastSeenBatch?_of_removeMissing hs h, hid]
      rfl
    · cases he

end MemoryStore

namespace Ledger

variable {l l' : Ledger} {c : Conditions} {batch : BatchId}

def marks (l : Ledger) : Marks := fun id => (l.head? id).map (·.lastSeenBatch)

theorem marks_of_appendOne {e : Entry} (hs : l.Sound) (h : appendOne c batch l e = .ok l') :
    l'.marks = l.marks.put batch [e.listing.sourceId] := by
  obtain ⟨-, -, hg⟩ := hs.of_appendOne h
  have hhead : (headAfter c batch e (l.head? e.listing.sourceId)).lastSeenBatch = batch := by
    cases l.head? e.listing.sourceId <;> rfl
  funext id
  rw [marks, hg.head?, Marks.put_singleton]
  change Option.map _ (if e.listing.sourceId = id then _ else _) = _
  split
  · rw [Option.map_some, hhead]
  · rfl

theorem marks_of_append {entries : List Entry} (hs : l.Sound)
    (hlive : (Call.append entries batch).Live) (h : l.append c entries batch = .ok l') :
    l'.marks = l.marks.put batch (entries.map (·.listing.sourceId)) := by
  refine (foldlM_induction (P := fun before l' => l'.Sound ∧
    l'.marks = l.marks.put batch (before.map (·.listing.sourceId))) h ⟨hs, rfl⟩ ?_).2
  rintro e he before l₁ l₂ ⟨hs₁, hm₁⟩ h₂
  refine ⟨(hs₁.after_appendOne (hlive e he) h₂).1.sound, ?_⟩
  rw [marks_of_appendOne hs₁ h₂, hm₁, Marks.put_put, List.map_append]
  rfl

theorem marks_of_touch {ids : List SourceId} (h : l.touch c ids batch = .ok l') (id : SourceId) :
    l'.marks id = if id ∈ ids then (l.marks id).map fun _ => batch else l.marks id := by
  rw [touch_eq_ok h, marks, head?_touched, marks]
  split
  · rw [Option.map_map, Option.map_map]
    rfl
  · rfl

theorem marks_of_removeOne {e : Entry} (hd : (l.heads.map (·.sourceId)).Nodup)
    (h : removeOne c batch l e = .ok l') :
    (l'.heads.map (·.sourceId)).Nodup ∧ l'.marks = l.marks := by
  obtain ⟨h₀, hh, -, hg⟩ := grown_of_removeOne hd h
  refine ⟨hg.nodup, ?_⟩
  funext id
  rw [marks, hg.head?, marks]
  change Option.map _ (if e.listing.sourceId = id then _ else _) = _
  split
  · rename_i hid
    rw [← hid, hh]
    rfl
  · rfl

theorem marks_of_removeMissing (hs : l.Sound) {partition : PartitionKey} {ids : List SourceId}
    {n : Nat} (h : l.removeMissing c partition ids batch = .ok (n, l')) : l'.marks = l.marks := by
  obtain ⟨entries, -, h⟩ := bind_eq_ok h
  obtain ⟨l₁, hrun, h⟩ := bind_eq_ok h
  cases h
  refine (foldlM_induction (P := fun _ l' => (l'.heads.map (·.sourceId)).Nodup ∧
    l'.marks = l.marks) hrun ⟨hs.nodup, rfl⟩ ?_).2
  rintro e - _ l₁ l₂ ⟨hd, hm₁⟩ h₂
  obtain ⟨hd₂, hm₂⟩ := marks_of_removeOne hd h₂
  exact ⟨hd₂, hm₂.trans hm₁⟩

theorem Sound.isSome_marks (hs : l.Sound) {id : SourceId} (h : l.view.latest? id ≠ none) :
    (l.marks id).isSome := by
  rw [marks, Option.isSome_map, Option.isSome_iff_ne_none, ne_eq, hs.head?_eq_none_iff]
  intro hnil
  rw [latest?_view, hnil] at h
  exact h rfl

theorem marking : Marking answers view Sound marks fun _ mark => mark where
  append := by
    intro l l' entries batch hs hlive h
    obtain ⟨c, h | ⟨⟨e, he⟩, -⟩⟩ := h
    · exact marks_of_append hs hlive (map_eq_ok (commit_eq_ok h))
    · cases he
  touch := by
    intro l l' ids batch hs hknown h
    obtain ⟨c, h | ⟨⟨e, he⟩, -⟩⟩ := h
    · funext id
      rw [marks_of_touch (map_eq_ok (commit_eq_ok h)), Marks.put]
      split
      · rename_i hid
        obtain ⟨mark, hmark⟩ := Option.isSome_iff_exists.mp (hs.isSome_marks (hknown id hid))
        rw [hmark]
        rfl
      · rfl
    · cases he
  removed := by
    intro l l' partition ids batch n hs h id _
    obtain ⟨c, h | ⟨⟨e, he⟩, -⟩⟩ := h
    · rw [marks_of_removeMissing hs (commit_eq_ok h)]
    · cases he
  kept := by
    intro l l' partition ids batch n hs h id _
    obtain ⟨c, h | ⟨⟨e, he⟩, -⟩⟩ := h
    · rw [marks_of_removeMissing hs (commit_eq_ok h)]
    · cases he

end Ledger
end OfferLedger
