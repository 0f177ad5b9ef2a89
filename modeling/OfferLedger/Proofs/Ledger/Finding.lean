import OfferLedger.Ledger.Write
import OfferLedger.Proofs.Failing
import OfferLedger.Proofs.Ledger.Sound

/-! # Reading what is stored

No row of a linked ledger is damaged, so no reading fails, and what is found is what the heads and their
latest rows say. In a sound ledger that is what the histories say. -/
namespace OfferLedger.Ledger

section

variable {l : Ledger} (hl : l.Linked) {heads : List Head} (hsub : ∀ h ∈ heads, h ∈ l.heads)
include hl hsub

theorem Linked.map_head_join : (l.join heads).map (·.head) = heads := by
  induction heads with
  | nil => rfl
  | cons h rest ih =>
    obtain ⟨row, -, hst⟩ := hl.stored?_eq (hsub h (List.mem_cons_self ..))
    rw [join, List.filterMap_cons_some hst, List.map_cons]
    exact congrArg _ (ih fun h' hm => hsub h' (List.mem_cons_of_mem _ hm))

theorem Linked.mem_join_iff (s : Stored) :
    s ∈ l.join heads ↔
      s.head ∈ heads ∧ (l.history s.head.sourceId).getLast? = some s.row := by
  rw [join, List.mem_filterMap]
  constructor
  · rintro ⟨h, hm, hst⟩
    obtain ⟨row, hr, hst'⟩ := hl.stored?_eq (hsub h hm)
    rw [hst'] at hst
    cases hst
    exact ⟨hm, hr⟩
  · rintro ⟨hm, hr⟩
    obtain ⟨row, hr', hst⟩ := hl.stored?_eq (hsub s.head hm)
    rw [hr] at hr'
    cases hr'
    exact ⟨s.head, hm, hst⟩

end

theorem Sound.mem_active_iff {l : Ledger} (hs : l.Sound) (s : Stored) :
    s ∈ l.active ↔ s.head ∈ l.heads ∧ s.head.isActive = true ∧
      (l.history s.head.sourceId).getLast? = some s.row := by
  rw [active, hs.linked.mem_join_iff fun h hm => (List.mem_filter.mp hm).1, List.mem_filter,
    and_assoc]

theorem latest?_stored {l : Ledger} {s : Stored}
    (hr : (l.history s.head.sourceId).getLast? = some s.row) :
    l.view.latest? s.head.sourceId = some s.row.revision := by
  rw [latest?_view, hr]
  rfl

section

variable {l : Ledger} (hl : l.Linked) {s : Stored}
include hl

theorem Linked.isActive_stored (hm : s.head ∈ l.heads) :
    l.view.isActive s.head.sourceId = s.head.isActive := by
  change (l.head? s.head.sourceId).any (·.isActive) = _
  rw [head?_of_mem hl.nodup hm]
  rfl

variable (hr : (l.history s.head.sourceId).getLast? = some s.row)
include hr

theorem Linked.undamaged_stored : s.row.damage = [] :=
  hl.undamaged s.row (List.mem_filter.mp (List.mem_of_getLast? hr)).1

theorem Linked.version_stored (hm : s.head ∈ l.heads) : s.row.version = s.head.latestVersion := by
  obtain ⟨row, hr', hv⟩ := hl.exists_latest (head?_of_mem hl.nodup hm)
  rw [hr] at hr'
  cases hr'
  exact hv

end

section

variable {l : Ledger} (hs : l.Sound) {s : Stored}
include hs

theorem Sound.isActive_stored (hm : s.head ∈ l.heads) :
    l.view.isActive s.head.sourceId = s.head.isActive :=
  hs.linked.isActive_stored hm

variable (hr : (l.history s.head.sourceId).getLast? = some s.row)
include hr

theorem Sound.standing_stored (hm : s.head ∈ l.heads) : s.row.standing = s.head.standing := by
  obtain ⟨row, hr', hst⟩ := hs.exists_latest (head?_of_mem hs.nodup hm)
  rw [hr] at hr'
  cases hr'
  exact hst

theorem Sound.sourceId_stored : s.row.revision.listing.sourceId = s.head.sourceId :=
  hs.consistent.sourceId_latest (latest?_stored hr)

theorem Sound.undamaged_stored : s.row.damage = [] :=
  hs.linked.undamaged_stored hr

end

theorem Linked.exists_stored {l : Ledger} (hl : l.Linked) {id : SourceId} {r : Revision}
    (hr : l.view.latest? id = some r) :
    ∃ s : Stored, s.head ∈ l.heads ∧ s.head.sourceId = id ∧
      (l.history s.head.sourceId).getLast? = some s.row ∧ s.row.revision = r := by
  rw [latest?_view] at hr
  obtain ⟨row, hrow, rfl⟩ := Option.map_eq_some_iff.mp hr
  obtain ⟨h, hh, -⟩ := hl.exists_head hrow
  have hid := head?_sourceId hh
  exact ⟨⟨h, row⟩, List.mem_of_find?_eq_some hh, hid, hid ▸ hrow, rfl⟩

theorem Sound.exists_stored {l : Ledger} (hs : l.Sound) {id : SourceId} {r : Revision}
    (hr : l.view.latest? id = some r) :
    ∃ s : Stored, s.head ∈ l.heads ∧ s.head.sourceId = id ∧
      (l.history s.head.sourceId).getLast? = some s.row ∧ s.row.revision = r :=
  hs.linked.exists_stored hr

section

variable {l : Ledger} (hl : l.Linked)
include hl

theorem Linked.known?_stored {s : Stored} (hm : s.head ∈ l.heads)
    (hr : (l.history s.head.sourceId).getLast? = some s.row) {incoming : List Listing} {k : Listing}
    (hk : lastFor incoming s.head.sourceId = some k) :
    l.view.known? k = some (knownOf incoming s s.row.revision.listing) := by
  have hid := sourceId_of_lastFor hk
  have hv : s.row.revision.version = s.head.latestVersion := hl.version_stored hr hm
  rw [lastFor] at hk
  simp [View.known?, hid, latest?_stored hr, hl.isActive_stored hm, knownOf, hk, hv, eq_comm]

theorem Linked.findChunk_eq (incoming : List Listing) :
    ∃ found, l.findChunk incoming = .ok found ∧
      ∀ id, Keyed.last? found id = (lastFor incoming id).bind l.view.known? := by
  let heads := (l.headsOf (incoming.map (·.sourceId))).mergeSort fun a b => a.sourceId ≤ b.sourceId
  have hsub : ∀ h ∈ heads, h ∈ l.heads := fun h hm =>
    (List.mem_filter.mp (List.mem_mergeSort.mp hm)).1
  have hids : ∀ h, h ∈ heads ↔ h ∈ l.heads ∧ h.sourceId ∈ incoming.map (·.sourceId) := fun h =>
    List.mem_mergeSort.trans (List.mem_filter.trans (by simp))
  let found := (l.join heads).map fun s =>
    (s.head.sourceId, knownOf incoming s s.row.revision.listing)
  have hkeys : Keyed.keys found = heads.map (·.sourceId) := by
    rw [← hl.map_head_join hsub, List.map_map, Keyed.keys, List.map_map]
    rfl
  have hd : (Keyed.keys found).Nodup := by
    rw [hkeys]
    refine ((List.mergeSort_perm _ _).map _).nodup_iff.mpr ?_
    exact hl.nodup.sublist (List.filter_sublist.map _)
  refine ⟨found, mapM_eq_ok fun s hm => ?_, fun id => ?_⟩
  · obtain ⟨hm, hr⟩ := (hl.mem_join_iff hsub s).mp hm
    rw [s.row.readListing_of_sound 3 (hl.undamaged_stored hr)]
  · ext k
    rw [Keyed.last?_eq_some_iff hd, List.mem_map, Option.bind_eq_some_iff]
    constructor
    · rintro ⟨s, hm, hk⟩
      cases hk
      obtain ⟨hm, hr⟩ := (hl.mem_join_iff hsub s).mp hm
      obtain ⟨hm, hid⟩ := (hids _).mp hm
      obtain ⟨k, hk⟩ := Option.isSome_iff_exists.mp ((lastFor_isSome_iff _ _).mpr hid)
      exact ⟨k, hk, hl.known?_stored hm hr hk⟩
    · rintro ⟨i, hi, hk⟩
      have hi' := hi
      obtain ⟨r, hlatest, -⟩ := Option.map_eq_some_iff.mp hk
      rw [sourceId_of_lastFor hi] at hlatest
      obtain ⟨s, hm, rfl, hr, -⟩ := hl.exists_stored hlatest
      rw [hl.known?_stored hm hr hi] at hk
      refine ⟨s, (hl.mem_join_iff hsub s).mpr ⟨(hids _).mpr ⟨hm, ?_⟩, hr⟩, ?_⟩
      · rw [← lastFor_isSome_iff, hi]
        rfl
      · rw [Option.some.inj hk]

/-- Asked in chunks, the last chunk that names an offer answers for it. -/
theorem Linked.find_chunks (pieces : List (List Listing)) :
    ∃ found, pieces.mapM l.findChunk = .ok found ∧
      ∀ id, Keyed.last? found.flatten id = (lastFor pieces.flatten id).bind l.view.known? := by
  induction pieces with
  | nil => exact ⟨[], rfl, fun _ => rfl⟩
  | cons piece rest ih =>
    obtain ⟨f, hf, hlast⟩ := hl.findChunk_eq piece
    obtain ⟨found, hfound, hlasts⟩ := ih
    refine ⟨f :: found, ?_, fun id => ?_⟩
    · rw [List.mapM_cons, hf, hfound]
      rfl
    · rw [List.flatten_cons, List.flatten_cons, Keyed.last?_append, View.known?_append, hlasts, hlast]

theorem Linked.find_eq (listings : List Listing) :
    ∃ known, l.find listings = .ok known ∧ (Keyed.keys known).Nodup ∧
      ∀ id, Keyed.get? known id = (lastFor listings id).bind l.view.known? := by
  obtain ⟨found, hfound, hlast⟩ := hl.find_chunks (chunks chunkSize listings)
  refine ⟨Keyed.ofList found.flatten, ?_, Keyed.nodup_keys_ofList _, fun id => ?_⟩
  · rw [find, hfound]
    rfl
  · rw [Keyed.get?_ofList, hlast, flatten_chunks]

end

theorem Sound.find_eq {l : Ledger} (hs : l.Sound) (listings : List Listing) :
    ∃ known, l.find listings = .ok known ∧
      ∀ id, Keyed.get? known id = (lastFor listings id).bind l.view.known? := by
  obtain ⟨known, hfind, -, hget⟩ := hs.linked.find_eq listings
  exact ⟨known, hfind, hget⟩

section

variable {l : Ledger} (hs : l.Sound)
include hs

theorem Sound.removal_stored {s : Stored} (hm : s.head ∈ l.heads)
    (hr : (l.history s.head.sourceId).getLast? = some s.row) :
    Entry.mk s.row.revision.listing (s.head.latestVersion + 1) .delete =
      s.row.revision.removal := by
  have hv : s.row.version = s.head.latestVersion :=
    congrArg Standing.version (hs.standing_stored hr hm)
  rw [← hv]
  rfl

theorem Sound.missing?_stored {s : Stored} (hm : s.head ∈ l.heads)
    (hr : (l.history s.head.sourceId).getLast? = some s.row) (partition : PartitionKey)
    (ids : List SourceId) (r : Revision) :
    l.view.missing? partition ids s.head.sourceId = some r ↔
      (s.head.uf = partition ∧ s.head.isActive = true) ∧ s.head.sourceId ∉ ids ∧
        s.row.revision = r := by
  have huf : s.row.revision.listing.uf = s.head.uf :=
    congrArg Standing.uf (hs.standing_stored hr hm)
  rw [View.missing?, latest?_stored hr, hs.isActive_stored hm, Option.filter_eq_some_iff]
  constructor
  · rintro ⟨h, hp⟩
    cases h
    rw [huf] at hp
    simp_all
  · rintro ⟨⟨hpart, hactive⟩, hid, rfl⟩
    rw [huf, hactive]
    simp [hpart, hid]

theorem Sound.missing_eq (partition : PartitionKey) (ids : List SourceId) :
    ∃ entries, l.missing partition ids = .ok entries ∧
      (entries.map (·.listing.sourceId)).Nodup ∧
      ∀ e, e ∈ entries ↔
        ∃ r, l.view.missing? partition ids e.listing.sourceId = some r ∧ e = r.removal := by
  let heads := l.heads.filter fun h => h.uf = partition && h.isActive
  have hsub : ∀ h ∈ heads, h ∈ l.heads := fun h hm => (List.mem_filter.mp hm).1
  let removals := (l.join heads).map fun s => s.row.revision.removal
  refine ⟨removals.filter fun e => !ids.contains e.listing.sourceId, ?_, ?_, fun e => ?_⟩
  · change (l.join heads).mapM _ >>= _ = _
    rw [mapM_eq_ok (g := fun s => s.row.revision.removal)]
    · rfl
    · intro s hm
      obtain ⟨hm, hr⟩ := (hs.linked.mem_join_iff hsub s).mp hm
      rw [s.row.readListing_of_sound 2 (hs.undamaged_stored hr)]
      exact congrArg Except.ok (hs.removal_stored (hsub _ hm) hr)
  · refine List.Nodup.sublist (List.filter_sublist.map _) ?_
    have hkeys : removals.map (·.listing.sourceId) = heads.map (·.sourceId) := by
      conv_rhs => rw [← hs.linked.map_head_join hsub]
      rw [List.map_map, List.map_map]
      refine List.map_congr_left fun s hm => ?_
      exact hs.sourceId_stored ((hs.linked.mem_join_iff hsub s).mp hm).2
    rw [hkeys]
    exact hs.nodup.sublist (List.filter_sublist.map _)
  · rw [List.mem_filter, List.mem_map]
    constructor
    · rintro ⟨⟨s, hm, rfl⟩, hid⟩
      obtain ⟨hm, hr⟩ := (hs.linked.mem_join_iff hsub s).mp hm
      obtain ⟨hm, hp⟩ := List.mem_filter.mp hm
      have hsid : s.row.revision.removal.listing.sourceId = s.head.sourceId :=
        hs.sourceId_stored hr
      rw [hsid] at hid ⊢
      refine ⟨_, (hs.missing?_stored hm hr partition ids _).mpr ⟨?_, ?_, rfl⟩, rfl⟩
      · simpa using hp
      · simpa using hid
    · rintro ⟨r, hmiss, rfl⟩
      change l.view.missing? partition ids r.sourceId = some r at hmiss
      obtain ⟨s, hm, hsid, hr, rfl⟩ := hs.exists_stored (Option.filter_eq_some_iff.mp hmiss).1
      rw [← hsid] at hmiss
      obtain ⟨hp, hid, -⟩ := (hs.missing?_stored hm hr partition ids _).mp hmiss
      refine ⟨⟨s, (hs.linked.mem_join_iff hsub s).mpr ⟨List.mem_filter.mpr ⟨hm, ?_⟩, hr⟩, rfl⟩, ?_⟩
      · simpa using hp
      · change !ids.contains s.row.revision.sourceId
        rw [hsid] at hid
        simpa using hid

end
end OfferLedger.Ledger
