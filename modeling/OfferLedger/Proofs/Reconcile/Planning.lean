import OfferLedger.Proofs.Store.Basic
import OfferLedger.Reconcile.Basic

/-! # What a batch of listings asks for

Against what can be seen of a store, every listed offer is to be created, updated or skipped, and the
missing ones are to be removed. A plan made from the answer of the store holds each of the first three
groups. -/
namespace OfferLedger
namespace View

/-- The offer of a listing is active and its latest revision is exactly this listing. -/
def Shows (v : View) (l : Listing) : Prop :=
  v.isActive l.sourceId = true ∧ (v.latest? l.sourceId).map (·.listing) = some l

instance (v : View) (l : Listing) : Decidable (v.Shows l) := inferInstanceAs (Decidable (_ ∧ _))

variable (v : View) (partition : PartitionKey) (listings : List Listing)

def created : Set SourceId := {id | ∃ l, lastFor listings id = some l ∧ v.latest? id = none}

def updated : Set SourceId :=
  {id | ∃ l, lastFor listings id = some l ∧ v.latest? id ≠ none ∧ ¬ v.Shows l}

def skipped : Set SourceId := {id | ∃ l, lastFor listings id = some l ∧ v.Shows l}

/-- The active offers of a region that are not listed. -/
def gone : Set SourceId :=
  {id | id ∉ listings.map (·.sourceId) ∧ v.isActive id = true ∧
    ∃ r, v.latest? id = some r ∧ r.listing.uf = partition}

variable {v partition listings}

theorem Shows.eq_of_sourceId {l l' : Listing} (h : v.Shows l) (h' : v.Shows l')
    (hid : l.sourceId = l'.sourceId) : l = l' := by
  have hl := h.2
  rw [hid, h'.2] at hl
  exact (Option.some.inj hl).symm

theorem missing?_lastWins {id : SourceId} (h : id ∈ v.gone partition listings) {r : Revision}
    (hr : v.latest? id = some r) :
    v.missing? partition ((lastWins listings).map (·.sourceId)) id = some r := by
  obtain ⟨hid, hactive, r', hr', huf⟩ := h
  rw [hr] at hr'
  cases hr'
  rw [← mem_ids_lastWins] at hid
  refine Option.filter_eq_some_iff.mpr ⟨hr, ?_⟩
  simpa [hactive, huf] using hid

theorem isSome_missing?_lastWins (id : SourceId) :
    (v.missing? partition ((lastWins listings).map (·.sourceId)) id).isSome ↔
      id ∈ v.gone partition listings := by
  constructor
  · intro h
    obtain ⟨r, hr⟩ := Option.isSome_iff_exists.mp h
    obtain ⟨hr, hp⟩ := Option.filter_eq_some_iff.mp hr
    simp only [Bool.and_eq_true, decide_eq_true_eq, Bool.not_eq_true', List.contains_eq_mem,
      decide_eq_false_iff_not] at hp
    exact ⟨fun hid => hp.2 ((mem_ids_lastWins _ _).mpr hid), hp.1.1, r, hr, hp.1.2⟩
  · intro h
    have ⟨_, _, r, hr, _⟩ := h
    rw [missing?_lastWins h hr]
    rfl

end View

namespace Plan

variable {v : View} {listings : List Listing} {known : SourceId → Option Known}

theorem length_classify (known : SourceId → Option Known) (listings : List Listing) :
    (classify known listings).inserts.length + (classify known listings).updates.length +
      (classify known listings).touches.length = listings.length := by
  induction listings with
  | nil => rfl
  | cons l rest ih =>
    have hcons {β : Type} (f : Listing → Option β) : ((l :: rest).filterMap f).length =
        (f l).toList.length + (rest.filterMap f).length := by
      cases h : f l <;> simp [h, Nat.add_comm]
    have hone : (insertOf? known l).toList.length + (updateOf? known l).toList.length +
        (touchOf? known l).toList.length = 1 := by
      unfold insertOf? updateOf? touchOf?
      cases known l.sourceId with
      | none => rfl
      | some k => by_cases hc : k.changed = true <;> simp [hc]
    simp only [classify, hcons, List.length_cons] at ih ⊢
    omega

theorem nodup_inserts (known : SourceId → Option Known) (listings : List Listing) :
    ((classify known (lastWins listings)).inserts.map (·.listing.sourceId)).Nodup := by
  refine (nodup_lastWins listings).sublist (map_filterMap_sublist fun l _ e he => ?_)
  unfold insertOf? at he
  split at he
  · cases he
    rfl
  · cases he

theorem nodup_updates (known : SourceId → Option Known) (listings : List Listing) :
    ((classify known (lastWins listings)).updates.map (·.listing.sourceId)).Nodup := by
  refine (nodup_lastWins listings).sublist (map_filterMap_sublist fun l _ e he => ?_)
  unfold updateOf? at he
  split at he
  · cases he
  · split at he
    · cases he
      rfl
    · cases he

theorem nodup_touches (known : SourceId → Option Known) (listings : List Listing) :
    (classify known (lastWins listings)).touches.Nodup := by
  rw [← List.map_id (classify known (lastWins listings)).touches]
  refine (nodup_lastWins listings).sublist (map_filterMap_sublist fun l _ id he => ?_)
  unfold touchOf? at he
  split at he
  · cases he
  · split at he
    · cases he
    · cases he
      rfl

section

variable (hknown : ∀ id, known id = (lastFor listings id).bind v.known?)
include hknown

theorem known_of_mem {l : Listing} (hl : lastFor listings l.sourceId = some l) :
    known l.sourceId = v.known? l := by
  rw [hknown, hl]
  rfl

theorem known_of_latest {l : Listing} {r : Revision} (hl : lastFor listings l.sourceId = some l)
    (hr : v.latest? l.sourceId = some r) :
    ∃ k, known l.sourceId = some k ∧ k.latestVersion = r.version ∧
      (k.changed = false ↔ v.Shows l) := by
  refine ⟨_, (known_of_mem hknown hl).trans (congrArg _ hr), rfl, ?_⟩
  rw [View.Shows, hr]
  simp

omit hknown in
theorem mem_filterMap_lastWins {β : Type} {f : Listing → Option β} {b : β} :
    b ∈ (lastWins listings).filterMap f ↔
      ∃ l, lastFor listings l.sourceId = some l ∧ f l = some b := by
  simp only [List.mem_filterMap, mem_lastWins_iff]

theorem insertOf?_eq_some_iff {l : Listing} (hl : lastFor listings l.sourceId = some l) (e : Entry) :
    insertOf? known l = some e ↔ v.latest? l.sourceId = none ∧ e = ⟨l, 1, .insert⟩ := by
  unfold insertOf?
  cases hr : v.latest? l.sourceId with
  | none =>
    rw [known_of_mem hknown hl, View.known?, hr]
    simp [eq_comm]
  | some r =>
    obtain ⟨k, hk, -⟩ := known_of_latest hknown hl hr
    rw [hk]
    simp

theorem updateOf?_eq_some_iff {l : Listing} (hl : lastFor listings l.sourceId = some l) (e : Entry) :
    updateOf? known l = some e ↔ ¬ v.Shows l ∧
      ∃ r, v.latest? l.sourceId = some r ∧ e = ⟨l, r.version + 1, .update⟩ := by
  unfold updateOf?
  cases hr : v.latest? l.sourceId with
  | none =>
    rw [known_of_mem hknown hl, View.known?, hr]
    simp
  | some r =>
    obtain ⟨k, hk, hv, hc⟩ := known_of_latest hknown hl hr
    rw [hk, ← hc]
    by_cases hc : k.changed = true <;> simp [hc, hv, eq_comm]

theorem touchOf?_eq_some_iff {l : Listing} (hl : lastFor listings l.sourceId = some l)
    (id : SourceId) : touchOf? known l = some id ↔ v.Shows l ∧ l.sourceId = id := by
  unfold touchOf?
  cases hr : v.latest? l.sourceId with
  | none =>
    rw [known_of_mem hknown hl, View.known?, View.Shows, hr]
    simp
  | some r =>
    obtain ⟨k, hk, -, hc⟩ := known_of_latest hknown hl hr
    rw [hk, ← hc]
    by_cases hc : k.changed = true <;> simp [hc]

theorem mem_inserts_iff (e : Entry) :
    e ∈ (classify known (lastWins listings)).inserts ↔
      lastFor listings e.listing.sourceId = some e.listing ∧
      v.latest? e.listing.sourceId = none ∧ e = ⟨e.listing, 1, .insert⟩ := by
  refine mem_filterMap_lastWins.trans ⟨?_, ?_⟩
  · rintro ⟨l, hl, he⟩
    obtain ⟨hr, rfl⟩ := (insertOf?_eq_some_iff hknown hl e).mp he
    exact ⟨hl, hr, rfl⟩
  · rintro ⟨hl, hr⟩
    exact ⟨e.listing, hl, (insertOf?_eq_some_iff hknown hl e).mpr hr⟩

theorem mem_updates_iff (e : Entry) :
    e ∈ (classify known (lastWins listings)).updates ↔
      lastFor listings e.listing.sourceId = some e.listing ∧ ¬ v.Shows e.listing ∧
      ∃ r, v.latest? e.listing.sourceId = some r ∧ e = ⟨e.listing, r.version + 1, .update⟩ := by
  refine mem_filterMap_lastWins.trans ⟨?_, ?_⟩
  · rintro ⟨l, hl, he⟩
    obtain ⟨hshows, r, hr, rfl⟩ := (updateOf?_eq_some_iff hknown hl e).mp he
    exact ⟨hl, hshows, r, hr, rfl⟩
  · rintro ⟨hl, hr⟩
    exact ⟨e.listing, hl, (updateOf?_eq_some_iff hknown hl e).mpr hr⟩

theorem mem_touches_iff (id : SourceId) :
    id ∈ (classify known (lastWins listings)).touches ↔ id ∈ v.skipped listings := by
  refine mem_filterMap_lastWins.trans ⟨?_, ?_⟩
  · rintro ⟨l, hl, he⟩
    obtain ⟨hshows, rfl⟩ := (touchOf?_eq_some_iff hknown hl id).mp he
    exact ⟨l, hl, hshows⟩
  · rintro ⟨l, hl, hshows⟩
    have hid := sourceId_of_lastFor hl
    subst hid
    exact ⟨l, hl, (touchOf?_eq_some_iff hknown hl _).mpr ⟨hshows, rfl⟩⟩

theorem wellFormed_inserts (batch : BatchId) :
    (Call.append (classify known (lastWins listings)).inserts batch).WellFormed := by
  refine ⟨nodup_inserts known listings, fun e he => ?_⟩
  obtain ⟨-, -, he⟩ := (mem_inserts_iff hknown e).mp he
  rw [he]
  exact ⟨le_rfl, Operation.noConfusion⟩

theorem fits_inserts {e : Entry} (he : e ∈ (classify known (lastWins listings)).inserts) :
    v.history.Fits e := by
  obtain ⟨-, hr, he⟩ := (mem_inserts_iff hknown e).mp he
  rw [Histories.Fits, (v.latest?_eq_none_iff _).mp hr, he]
  rfl

theorem fits_updates (hv : v.Consistent) {e : Entry}
    (he : e ∈ (classify known (lastWins listings)).updates) : v.history.Fits e := by
  obtain ⟨-, -, r, hr, he⟩ := (mem_updates_iff hknown e).mp he
  rw [Histories.Fits, ← hv.version_latest hr, he]

theorem wellFormed_updates (hv : v.Consistent) (batch : BatchId) :
    (Call.append (classify known (lastWins listings)).updates batch).WellFormed := by
  refine ⟨nodup_updates known listings, fun e he => ⟨?_, ?_⟩⟩
  · have hfits : e.version = _ := fits_updates hknown hv he
    omega
  · obtain ⟨-, -, r, -, he⟩ := (mem_updates_iff hknown e).mp he
    rw [he]
    exact Operation.noConfusion

theorem nodup_written :
    (((classify known (lastWins listings)).inserts ++
      (classify known (lastWins listings)).updates).map (·.listing.sourceId)).Nodup := by
  rw [List.map_append, List.nodup_append]
  refine ⟨nodup_inserts known listings, nodup_updates known listings, ?_⟩
  intro a ha b hb hab
  obtain ⟨i, hi, rfl⟩ := List.mem_map.mp ha
  obtain ⟨u, hu, rfl⟩ := List.mem_map.mp hb
  obtain ⟨-, hnone, -⟩ := (mem_inserts_iff hknown i).mp hi
  obtain ⟨-, -, r, hr, -⟩ := (mem_updates_iff hknown u).mp hu
  rw [hab, hr] at hnone
  cases hnone

theorem encard_created :
    (v.created listings).encard = (classify known (lastWins listings)).inserts.length := by
  refine encard_eq_length_entries (nodup_inserts known listings) fun id => ?_
  constructor
  · rintro ⟨l, hl, hr⟩
    have hid := sourceId_of_lastFor hl
    subst hid
    exact ⟨⟨l, 1, .insert⟩, (mem_inserts_iff hknown _).mpr ⟨hl, hr, rfl⟩, rfl⟩
  · rintro ⟨e, he, rfl⟩
    obtain ⟨hl, hr, -⟩ := (mem_inserts_iff hknown e).mp he
    exact ⟨e.listing, hl, hr⟩

theorem encard_updated :
    (v.updated listings).encard = (classify known (lastWins listings)).updates.length := by
  refine encard_eq_length_entries (nodup_updates known listings) fun id => ?_
  constructor
  · rintro ⟨l, hl, hr, hshows⟩
    obtain ⟨r, hr⟩ := Option.ne_none_iff_exists'.mp hr
    have hid := sourceId_of_lastFor hl
    subst hid
    exact ⟨⟨l, r.version + 1, .update⟩,
      (mem_updates_iff hknown _).mpr ⟨hl, hshows, r, hr, rfl⟩, rfl⟩
  · rintro ⟨e, he, rfl⟩
    obtain ⟨hl, hshows, r, hr, -⟩ := (mem_updates_iff hknown e).mp he
    refine ⟨e.listing, hl, fun hnone => ?_, hshows⟩
    rw [hr] at hnone
    cases hnone

theorem encard_skipped :
    (v.skipped listings).encard = (classify known (lastWins listings)).touches.length :=
  encard_eq_length (nodup_touches known listings) (mem_touches_iff hknown)

end
end Plan
end OfferLedger
