import OfferLedger.Proofs.Store.Ledger

/-! # Finding and touching, whatever was called before

Heads and rows stay linked under every call, whatever fails in it and whatever is appended, and the
links are all that finding needs. So the answer about an offer depends on its head, its latest row and
its last listing only, and touching reaches the heads that are listed and nothing else, wherever the
chunks of a call end. -/
namespace OfferLedger.Ledger

/-- The ledgers that any calls lead to, whatever fails, with batches opened and closed in between. What
is appended may also be a deletion. -/
inductive Possible : Ledger → Prop where
  | empty : Possible Ledger.empty
  | call {l} (c : Conditions) (call : Call) : Possible l → Possible (repository c call l).2
  | startBatch {l l'} {c : Conditions} {partition : PartitionKey} {digest : Option String}
      {batch : BatchId} : Possible l → l.startBatch c partition digest = .ok (batch, l') →
      Possible l'
  | finishBatch {l l'} {c : Conditions} {batch : BatchId} {listingsSeen : Nat}
      {outcome : BatchOutcome} : Possible l →
      l.finishBatch c batch listingsSeen outcome = .ok l' → Possible l'

section

variable {l l' : Ledger} {c : Conditions} {batch : BatchId} {e : Entry} (hl : l.Linked)
include hl

theorem Linked.grown {head : Head} (hg : Grown l (rowOf c batch e) head l')
    (hv : e.version = l.headVersion e.listing.sourceId + 1) (hhead : head.latestVersion = e.version) :
    l'.Linked := by
  constructor
  · exact hg.nodup
  · intro row hr
    rw [hg.revisions, List.mem_append, List.mem_singleton] at hr
    rcases hr with hr | rfl
    · exact hl.undamaged row hr
    · rfl
  · intro id
    rw [hg.history]
    split
    · rename_i hid
      refine List.pairwise_append.mpr ⟨hl.ascending id, List.pairwise_singleton .., ?_⟩
      intro row hr new hnew
      rw [List.mem_singleton.mp hnew]
      have hle := hl.version_le_headVersion hr
      rw [← hid] at hle
      change row.version < e.version
      rw [hv]
      exact Int.lt_add_one_of_le hle
    · exact hl.ascending id
  · intro id
    rw [hg.head?, hg.history]
    split
    · rw [List.getLast?_concat]
      exact congrArg some hhead
    · exact hl.latest id

theorem Linked.of_appendOne (h : appendOne c batch l e = .ok l') : l'.Linked := by
  obtain ⟨hv, -, hg⟩ := grown_of_appendOne hl.nodup h
  refine hl.grown hg hv ?_
  unfold headVersion at hv
  cases hh : l.head? e.listing.sourceId with
  | none =>
    rw [hh] at hv
    exact hv.symm
  | some h₀ => rfl

theorem Linked.of_removeOne (h : removeOne c batch l e = .ok l') : l'.Linked := by
  obtain ⟨h₀, hh, hat, hg⟩ := grown_of_removeOne hl.nodup h
  refine hl.grown hg ?_ rfl
  rw [headVersion, hh]
  change e.version = h₀.latestVersion + 1
  omega

theorem Linked.touched (now : Timestamp) (batch : BatchId) (ids : List SourceId) :
    (l.touched now batch ids).Linked := by
  refine ⟨?_, hl.undamaged, hl.ascending, fun id => ?_⟩
  · rw [ids_touched]
    exact hl.nodup
  · rw [head?_touched]
    split
    · rw [Option.map_map]
      exact hl.latest id
    · exact hl.latest id

theorem Linked.call (c : Conditions) (call : Call) : (repository c call l).2.Linked := by
  cases call with
  | find => exact hl
  | append entries batch =>
    refine of_commit (P := Linked) hl fun _ l' h => ?_
    exact foldlM_induction (P := fun _ l' => l'.Linked) (map_eq_ok h) hl
      fun _ _ _ _ _ hl₁ h₂ => hl₁.of_appendOne h₂
  | touch ids batch =>
    refine of_commit (P := Linked) hl fun _ l' h => ?_
    rw [touch_eq_ok (map_eq_ok h)]
    exact hl.touched c.now batch ids
  | removeMissing partition ids batch =>
    refine of_commit (P := Linked) hl fun _ l' h => ?_
    obtain ⟨entries, -, h⟩ := bind_eq_ok h
    obtain ⟨l₁, hrun, h⟩ := bind_eq_ok h
    cases h
    exact foldlM_induction (P := fun _ l' => l'.Linked) hrun hl
      fun _ _ _ _ _ hl₁ h₂ => hl₁.of_removeOne h₂

end

theorem Possible.linked {l : Ledger} (hl : l.Possible) : l.Linked := by
  induction hl with
  | empty => exact sound_empty.linked
  | call c call _ ih => exact ih.call c call
  | startBatch _ h ih =>
    obtain ⟨-, rfl⟩ := startBatch_eq_ok h
    exact ⟨ih.nodup, ih.undamaged, ih.ascending, ih.latest⟩
  | finishBatch _ h ih =>
    obtain rfl := finishBatch_eq_ok h
    exact ⟨ih.nodup, ih.undamaged, ih.ascending, ih.latest⟩

/-- One entry for each listed offer that has a head, with the version and the activity of the head. The
offer has changed if it is inactive or its latest row differs from the last of its listings. -/
structure Finds (l : Ledger) (listings : List Listing) (known : Keyed SourceId Known) : Prop where
  once : (Keyed.keys known).Nodup
  mem_keys_iff : ∀ id,
    id ∈ Keyed.keys known ↔ id ∈ listings.map (·.sourceId) ∧ (l.head? id).isSome
  entry : ∀ id k, (id, k) ∈ known → ∃ h row last, l.head? id = some h ∧ l.IsLatest id row ∧
    row.version = h.latestVersion ∧ lastFor listings id = some last ∧
    k.latestVersion = h.latestVersion ∧ k.isActive = h.isActive ∧
    (k.changed = true ↔ h.isActive = false ∨ row.revision.listing ≠ last)

section

variable {l : Ledger} (hl : l.Linked)
include hl

theorem Linked.known?_of_head? {h : Head} {row : RevisionRow} {listing : Listing}
    (hh : l.head? listing.sourceId = some h)
    (hr : (l.history listing.sourceId).getLast? = some row) :
    l.view.known? listing =
      some ⟨h.latestVersion, h.isActive, !h.isActive || row.revision.listing ≠ listing⟩ := by
  obtain ⟨row', hr', hv⟩ := hl.exists_latest hh
  rw [hr] at hr'
  cases hr'
  have hactive : l.view.isActive listing.sourceId = h.isActive := by
    change (l.head? listing.sourceId).any (·.isActive) = _
    rw [hh]
    rfl
  rw [View.known?, latest?_view, hr, hactive, ← hv]
  rfl

theorem Linked.exists_of_known? {listing : Listing} {k : Known}
    (hk : l.view.known? listing = some k) :
    ∃ h row, l.head? listing.sourceId = some h ∧
      (l.history listing.sourceId).getLast? = some row ∧
      k = ⟨h.latestVersion, h.isActive, !h.isActive || row.revision.listing ≠ listing⟩ := by
  obtain ⟨r, hr, -⟩ := Option.map_eq_some_iff.mp hk
  rw [latest?_view] at hr
  obtain ⟨row, hrow, -⟩ := Option.map_eq_some_iff.mp hr
  obtain ⟨h, hh, -⟩ := hl.exists_head hrow
  rw [hl.known?_of_head? hh hrow] at hk
  exact ⟨h, row, hh, hrow, (Option.some.inj hk).symm⟩

theorem Linked.finds {listings : List Listing} {known : Keyed SourceId Known}
    (hd : (Keyed.keys known).Nodup)
    (hget : ∀ id, known.get? id = (lastFor listings id).bind l.view.known?) :
    l.Finds listings known := by
  have hmem : ∀ id k, (id, k) ∈ known ↔
      ∃ last, lastFor listings id = some last ∧ l.view.known? last = some k := by
    intro id k
    rw [← Keyed.get?_eq_some_iff hd, hget, Option.bind_eq_some_iff]
  constructor
  · exact hd
  · intro id
    rw [Keyed.mem_keys_iff, ← lastFor_isSome_iff]
    constructor
    · rintro ⟨k, hk⟩
      obtain ⟨last, hlast, hk⟩ := (hmem id k).mp hk
      obtain ⟨h, -, hh, -⟩ := hl.exists_of_known? hk
      rw [sourceId_of_lastFor hlast] at hh
      rw [hlast, hh]
      exact ⟨rfl, rfl⟩
    · rintro ⟨hlisted, hhead⟩
      obtain ⟨last, hlast⟩ := Option.isSome_iff_exists.mp hlisted
      obtain ⟨h, hh⟩ := Option.isSome_iff_exists.mp hhead
      rw [← sourceId_of_lastFor hlast] at hh
      obtain ⟨row, hrow, -⟩ := hl.exists_latest hh
      exact ⟨_, (hmem id _).mpr ⟨last, hlast, hl.known?_of_head? hh hrow⟩⟩
  · intro id k hk
    obtain ⟨last, hlast, hk⟩ := (hmem id k).mp hk
    obtain ⟨h, row, hh, hrow, rfl⟩ := hl.exists_of_known? hk
    rw [sourceId_of_lastFor hlast] at hh hrow
    obtain ⟨row', hrow', hv⟩ := hl.exists_latest hh
    rw [hrow] at hrow'
    cases hrow'
    refine ⟨h, row, last, hh, (hl.isLatest_iff id row).mpr hrow, hv, hlast, rfl, rfl, ?_⟩
    simp

end

/-- Whatever calls were made before, finding gives one entry for each listed offer with a head, compared
with its last listing, and touching marks the listed heads and changes nothing else. -/
theorem Possible.finds_and_touches {l : Ledger} (hl : l.Possible) (c : Conditions) :
    (∀ listings, ∃ known, repository c (.find listings) l = (.ok known, l) ∧
      l.Finds listings known) ∧
    ∀ ids batch, Fault.touches ∉ c.faults → l.hasBatch batch = true →
      repository c (.touch ids batch) l = (.ok (), l.touched c.now batch ids) := by
  constructor
  · intro listings
    obtain ⟨known, hfind, hd, hget⟩ := hl.linked.find_eq listings
    exact ⟨known, congrArg (·, l) hfind, hl.linked.finds hd hget⟩
  · intro ids batch hc hb
    rw [repository, touch_of_batch hc hb]
    rfl

/-- The last listing of an offer in a chunk of its own: it is the one that the offer is compared with. The
offer is active although a deletion was appended to it. -/
theorem Possible.finds_and_touches_across_chunks :
    let a : Listing := { sourceId := "a", uf := "SP" }
    let a' : Listing := { sourceId := "a", uf := "SP", city := "SANTOS" }
    let batches : List Batch := [⟨1, "SP", none, ⟨0⟩, none⟩]
    let rows : List RevisionRow := [⟨⟨1, .insert, 1, a⟩, ⟨5⟩, []⟩, ⟨⟨2, .delete, 1, a'⟩, ⟨7⟩, []⟩]
    let l : Ledger := ⟨batches, rows, [⟨"a", "SP", 2, true, ⟨5⟩, ⟨7⟩, 1⟩]⟩
    (∃ known, repository ⟨⟨9⟩, []⟩ (.find (List.replicate chunkSize a ++ [a'])) l = (.ok known, l) ∧
      ("a", ⟨2, true, false⟩) ∈ known) ∧
    repository ⟨⟨9⟩, []⟩ (.touch (List.replicate chunkSize "b" ++ ["a"]) 1) l =
      (.ok (), ⟨batches, rows, [⟨"a", "SP", 2, true, ⟨5⟩, ⟨9⟩, 1⟩]⟩) := by
  intro a a' batches rows l
  have hl : l.Possible :=
    .call ⟨⟨7⟩, []⟩ (.append [⟨a', 2, .delete⟩] 1) <|
      .call ⟨⟨5⟩, []⟩ (.append [⟨a, 1, .insert⟩] 1) <| .startBatch (c := ⟨⟨0⟩, []⟩) .empty rfl
  obtain ⟨hfind, htouch⟩ := hl.finds_and_touches ⟨⟨9⟩, []⟩
  constructor
  · obtain ⟨known, hknown, hfinds⟩ := hfind (List.replicate chunkSize a ++ [a'])
    refine ⟨known, hknown, ?_⟩
    have hkey : "a" ∈ Keyed.keys known := (hfinds.mem_keys_iff "a").mpr ⟨by simp [a'], rfl⟩
    obtain ⟨k, hk⟩ := (Keyed.mem_keys_iff known "a").mp hkey
    obtain ⟨h, row, last, hh, ⟨hrow, -⟩, hv, hlast, hversion, hactive, hchanged⟩ :=
      hfinds.entry "a" k hk
    obtain rfl : ⟨"a", "SP", 2, true, ⟨5⟩, ⟨7⟩, 1⟩ = h := Option.some.inj hh
    obtain rfl : a' = last := by
      rw [lastFor_append] at hlast
      exact Option.some.inj hlast
    have hsame : row.revision.listing = a' := by
      rcases List.mem_pair.mp (show row ∈ rows from hrow) with rfl | rfl
      · exact absurd hv (by decide)
      · rfl
    have hk' : k = ⟨2, true, false⟩ := by
      rw [hsame] at hchanged
      cases k
      simp_all
    exact hk' ▸ hk
  · rw [htouch _ 1 List.not_mem_nil rfl]
    simp [touched, l, Head.seen]

end OfferLedger.Ledger
