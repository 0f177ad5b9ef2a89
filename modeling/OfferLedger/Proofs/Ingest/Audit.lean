import OfferLedger.Proofs.Ingest.Attempts

/-! # Batches account for revisions

What a batch says it has created, updated and removed is what is recorded under its number. The batches and
the revisions are written apart from each other, and a group can fail at any call, but no attempt writes
under a number that is not its own. -/
namespace OfferLedger
namespace View

variable (v : View) (partition : PartitionKey) (listings : List Listing)

/-- The offers for which an entry of an operation is due. -/
def dueBy (op : Operation) : Set SourceId :=
  {id | ∃ e, v.due? partition listings id = some e ∧ e.operation = op}

theorem dueBy_insert : v.dueBy partition listings .insert = v.created listings := by
  ext id
  constructor
  · rintro ⟨e, he, hop⟩
    rcases due?_cases he with ⟨hl, hr, -⟩ | ⟨-, -, r, -, heq⟩ | ⟨r, -, rfl⟩
    · exact ⟨e.listing, hl, hr⟩
    · rw [heq] at hop
      cases hop
    · cases hop
  · rintro ⟨l, hl, hr⟩
    exact ⟨_, due?_of_new hl hr, rfl⟩

theorem dueBy_update : v.dueBy partition listings .update = v.updated listings := by
  ext id
  constructor
  · rintro ⟨e, he, hop⟩
    rcases due?_cases he with ⟨-, -, heq⟩ | ⟨hl, hshows, r, hr, -⟩ | ⟨r, -, rfl⟩
    · rw [heq] at hop
      cases hop
    · exact ⟨e.listing, hl, by simp [hr], hshows⟩
    · cases hop
  · rintro ⟨l, hl, hknown, hshows⟩
    obtain ⟨r, hr⟩ := Option.ne_none_iff_exists'.mp hknown
    exact ⟨_, due?_of_changed hl hr hshows, rfl⟩

theorem dueBy_delete : v.dueBy partition listings .delete = v.gone partition listings := by
  ext id
  rw [← isSome_missing?_lastWins, Option.isSome_iff_exists]
  constructor
  · rintro ⟨e, he, hop⟩
    rcases due?_cases he with ⟨-, -, heq⟩ | ⟨-, -, r, -, heq⟩ | ⟨r, hr, -⟩
    · rw [heq] at hop
      cases hop
    · rw [heq] at hop
      cases hop
    · exact ⟨r, hr⟩
  · rintro ⟨r, hr⟩
    exact ⟨_, due?_of_missing hr, rfl⟩

end View

namespace Ledger

/-- How many revisions of an operation are recorded under a batch. -/
def written (l : Ledger) (batch : BatchId) (op : Operation) : Nat :=
  l.revisions.countP fun row => row.revision.batch = batch && row.revision.operation = op

/-- The counts of a batch are right: every offer that its group lists is counted once, and what is
counted as written is what is recorded under the batch. -/
structure Tallies (l : Ledger) (group : Group) (batch : BatchId) (counts : Counts) : Prop where
  listed : counts.created + counts.updated + counts.skipped =
    (group.2.map (·.sourceId)).toFinset.card
  created : l.written batch .insert = counts.created
  updated : l.written batch .update = counts.updated
  removed : l.written batch .delete = counts.removed

/-- A closed batch of a group. If it succeeded, its counts are right. -/
structure Accounts (l : Ledger) (group : Group) (b : Batch) : Prop where
  partition : b.partition = group.1
  seen : ∃ finishedAt outcome, b.closing = some ⟨finishedAt, group.2.length, outcome⟩
  counts : ∀ counts, b.counts? = some counts → l.Tallies group b.id counts

section

variable {l l' : Ledger} {rows : List RevisionRow} (hrows : l'.revisions = l.revisions ++ rows)
include hrows

theorem histories_append (id : SourceId) :
    l'.histories id = l.histories id ++ (rows.filter (·.sourceId = id)).map (·.revision) := by
  rw [histories, history, hrows, List.filter_append, List.map_append]
  rfl

theorem written_append (batch : BatchId) (op : Operation) :
    l'.written batch op = l.written batch op +
      rows.countP fun row => row.revision.batch = batch && row.revision.operation = op := by
  rw [written, hrows, List.countP_append, written]

end

theorem encard_of_due {due : SourceId → Option Entry} {batch : BatchId} {rows : List RevisionRow}
    (h : ∀ id, (rows.filter (·.sourceId = id)).map (·.revision) =
      ((due id).map (·.revision batch)).toList) (op : Operation) :
    {id | ∃ e, due id = some e ∧ e.operation = op}.encard =
      rows.countP fun row => row.revision.batch = batch && row.revision.operation = op := by
  have hone : ∀ id, (rows.filter (·.sourceId = id)).length ≤ 1 := by
    intro id
    rw [← List.length_map (f := fun row : RevisionRow => row.revision), h]
    cases due id <;> simp
  have hd : (rows.map (·.sourceId)).Nodup := by
    rw [List.nodup_iff_count_le_one]
    intro id
    rw [List.count_eq_countP, List.countP_map, List.countP_eq_length_filter]
    exact hone id
  rw [List.countP_eq_length_filter, ← List.length_map (f := fun row : RevisionRow => row.sourceId)]
  refine encard_eq_length (hd.sublist (List.filter_sublist.map _)) fun id => ?_
  rw [List.mem_map, Set.mem_ofPred_eq]
  constructor
  · rintro ⟨row, hrow, rfl⟩
    obtain ⟨hrow, hp⟩ := List.mem_filter.mp hrow
    have hmem : row.revision ∈ (rows.filter (·.sourceId = row.sourceId)).map (·.revision) :=
      List.mem_map_of_mem (List.mem_filter.mpr ⟨hrow, by simp⟩)
    rw [h, Option.mem_toList, Option.map_eq_some_iff] at hmem
    obtain ⟨e, he, heq⟩ := hmem
    simp only [Bool.and_eq_true, decide_eq_true_eq] at hp
    exact ⟨e, he, by rw [← hp.2, ← heq]; rfl⟩
  · rintro ⟨e, he, rfl⟩
    have hmem : e.revision batch ∈ (rows.filter (·.sourceId = id)).map (·.revision) := by
      rw [h, he]
      simp
    obtain ⟨row, hrow, heq⟩ := List.mem_map.mp hmem
    obtain ⟨hrow, hid⟩ := List.mem_filter.mp hrow
    refine ⟨row, List.mem_filter.mpr ⟨hrow, ?_⟩, of_decide_eq_true hid⟩
    simp [heq, Entry.revision]

section

variable {l l' : Ledger} {group : Group} {outcome : BatchOutcome} {b : Batch}

theorem Attempted.exists_rows (ha : Attempted group outcome l l' b) :
    ∃ rows, l'.revisions = l.revisions ++ rows ∧ ∀ row ∈ rows, row.revision.batch = b.id := by
  obtain ⟨marked, hframed, -⟩ := ha.framed
  obtain ⟨rows, hrows⟩ := hframed.revisions
  refine ⟨rows, hrows.symm, fun row hrow => ?_⟩
  have hmem : row.revision ∈ (rows.filter (·.sourceId = row.sourceId)).map (·.revision) :=
    List.mem_map_of_mem (List.mem_filter.mpr ⟨hrow, by simp⟩)
  have happend := histories_append hrows.symm row.sourceId
  rcases ha.partway row.sourceId with hsame | ⟨e, -, hmade⟩
  · have hnone := List.self_eq_append_right.mp (hsame.symm.trans happend)
    rw [hnone] at hmem
    exact absurd hmem List.not_mem_nil
  · have hone := List.append_cancel_left (hmade.symm.trans happend)
    rw [← hone, List.mem_singleton] at hmem
    rw [hmem]
    rfl

theorem Attempted.written_eq (ha : Attempted group outcome l l' b) {batch : BatchId}
    (hne : batch ≠ b.id) (op : Operation) : l'.written batch op = l.written batch op := by
  obtain ⟨rows, hrows, hbatch⟩ := ha.exists_rows
  rw [written_append hrows, List.countP_eq_zero.mpr, Nat.add_zero]
  intro row hrow
  simp [hbatch row hrow, hne.symm]

theorem Attempted.encard_dueBy (ha : Attempted group outcome l l' b) {counts : Counts}
    (hr : Reconciled group.1 group.2 b.id l.view l'.view counts)
    (hold : ∀ row ∈ l.revisions, row.revision.batch ≠ b.id) (op : Operation) :
    (l.view.dueBy group.1 group.2 op).encard = l'.written b.id op := by
  obtain ⟨rows, hrows, -⟩ := ha.exists_rows
  have hnone : l.written b.id op = 0 := by
    rw [written, List.countP_eq_zero]
    intro row hrow
    simp [hold row hrow]
  rw [written_append hrows, hnone, Nat.zero_add]
  refine encard_of_due (fun id => ?_) op
  have hhistory : l'.histories id = _ := hr.history_eq id
  rw [histories_append hrows] at hhistory
  exact List.append_cancel_left hhistory

theorem Attempted.tallies (ha : Attempted group outcome l l' b) {counts : Counts}
    (hr : Reconciled group.1 group.2 b.id l.view l'.view counts)
    (hold : ∀ row ∈ l.revisions, row.revision.batch ≠ b.id) : l'.Tallies group b.id counts := by
  have hwritten := ha.encard_dueBy hr hold
  have hcreated := hwritten .insert
  have hupdated := hwritten .update
  have hremoved := hwritten .delete
  rw [View.dueBy_insert, ← hr.countCreated] at hcreated
  rw [View.dueBy_update, ← hr.countUpdated] at hupdated
  rw [View.dueBy_delete, ← hr.countRemoved] at hremoved
  exact ⟨hr.countListed, Nat.cast_inj.mp hcreated.symm, Nat.cast_inj.mp hupdated.symm,
    Nat.cast_inj.mp hremoved.symm⟩

theorem Attempted.counts?_eq (ha : Attempted group outcome l l' b) :
    b.counts? = outcome.counts? := by
  obtain ⟨finishedAt, hclosing⟩ := ha.closing
  rw [Batch.counts?, Batch.outcome?, hclosing]
  rfl

theorem Attempted.accounts (ha : Attempted group outcome l l' b)
    (h : ∀ counts, outcome.counts? = some counts → l'.Tallies group b.id counts) :
    Accounts l' group b := by
  obtain ⟨finishedAt, hclosing⟩ := ha.closing
  exact ⟨ha.partition, ⟨finishedAt, outcome, hclosing⟩,
    fun counts hcounts => h counts (ha.counts?_eq.symm.trans hcounts)⟩

theorem Accounts.attempted {group' : Group} {b' : Batch} (h : Accounts l group' b')
    (ha : Attempted group outcome l l' b) (hne : b'.id ≠ b.id) : Accounts l' group' b' := by
  refine ⟨h.partition, h.seen, fun counts hcounts => ?_⟩
  obtain ⟨hlisted, hcreated, hupdated, hremoved⟩ := h.counts counts hcounts
  have hsame := ha.written_eq hne
  exact ⟨hlisted, (hsame _).trans hcreated, (hsame _).trans hupdated, (hsame _).trans hremoved⟩

end

/-- Every batch accounts for what is recorded under its number, and no number of a batch or of a recorded
revision is beyond the number of batches. -/
structure Audited (groups : List Group) (l : Ledger) : Prop where
  sound : l.Sound
  ids : ∀ b ∈ l.batches, b.id ≤ l.batches.length
  rows : ∀ row ∈ l.revisions, row.revision.batch ≤ l.batches.length
  accounts : List.Forall₂ (Accounts l) groups l.batches

theorem audited_empty : Audited [] empty :=
  ⟨sound_empty, fun _ hb => absurd hb List.not_mem_nil, fun _ hr => absurd hr List.not_mem_nil,
    .nil⟩

section

variable {l l' : Ledger} {groups : List Group}

theorem Audited.attempted {group : Group} {outcome : BatchOutcome} {b : Batch}
    (h : Audited groups l) (ha : Attempted group outcome l l' b) (hb : Accounts l' group b) :
    Audited (groups ++ [group]) l' := by
  have hlength : (l'.batches.length : Int) = l.batches.length + 1 := by
    rw [ha.batches, List.length_append]
    rfl
  have hmore : (l.batches.length : Int) ≤ l'.batches.length := by omega
  have hid : b.id = l'.batches.length := ha.id.trans hlength.symm
  obtain ⟨added, hrevisions, hbatch⟩ := ha.exists_rows
  constructor
  · exact ha.sound
  · intro b' hb'
    rw [ha.batches, List.mem_append, List.mem_singleton] at hb'
    rcases hb' with hb' | rfl
    · exact (h.ids b' hb').trans hmore
    · exact hid.le
  · intro row hrow
    rw [hrevisions, List.mem_append] at hrow
    rcases hrow with hrow | hrow
    · exact (h.rows row hrow).trans hmore
    · exact (hbatch row hrow).trans_le hid.le
  · rw [ha.batches]
    refine List.rel_append (List.forall₂_iff_zip.mpr ⟨h.accounts.length_eq, ?_⟩) (.cons hb .nil)
    intro group' b' hzip
    have hlt : b'.id < b.id := ha.id ▸ Int.lt_add_one_of_le (h.ids b' (List.of_mem_zip hzip).2)
    exact (List.forall₂_zip h.accounts hzip).attempted ha hlt.ne

theorem Audited.attempt {group : Group} {digest : Option String}
    {r : Except IngestError PartitionReport} (h : Audited groups l)
    (ha : Attempt digest group l r l') : Audited (groups ++ [group]) l' := by
  obtain ⟨b, ⟨counts, -, hb, hr⟩ | ⟨cause, -, hb⟩⟩ := ha.cases h.sound h.ids
  · have hold : ∀ row ∈ l.revisions, row.revision.batch ≠ b.id := by
      intro row hrow
      have hlt : row.revision.batch < b.id := hb.id ▸ Int.lt_add_one_of_le (h.rows row hrow)
      exact hlt.ne
    refine h.attempted hb (hb.accounts fun counts' hcounts => ?_)
    cases hcounts
    exact hb.tallies hr hold
  · exact h.attempted hb (hb.accounts fun counts hcounts => nomatch hcounts)

theorem Audited.attempts {digest : Option String} {snapshot attempted : List Group}
    {r : Except IngestError (List PartitionReport)} (h : Audited groups l)
    (ha : Attempts digest snapshot attempted l r l') : Audited (groups ++ attempted) l' := by
  induction ha generalizing groups with
  | done l => rwa [List.append_nil]
  | next hfirst _ ih =>
    have hrest := ih (h.attempt hfirst)
    rwa [List.append_assoc] at hrest
  | stop hfirst => exact h.attempt hfirst

theorem FromSnapshots.audited (h : FromSnapshots groups l) : Audited groups l := by
  induction h with
  | empty => exact audited_empty
  | ingest _ ha ih => exact ih.attempts ha

end

end Ledger
end OfferLedger
