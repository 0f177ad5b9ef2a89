import OfferLedger.Proofs.Reconcile.LastWins
import OfferLedger.Reconcile.Deduped

/-! # The pass that removes repetitions

The places, the result and the listings gone through are tied together by one invariant: each source id
that has occurred stands in the result once, where the places say it does, with its last listing. So no
place lies outside of the result, and the pass makes the list that a reconciliation works on. -/
namespace OfferLedger

theorem getElem?_concat_eq_some_iff {α : Type} {xs : List α} {x y : α} {i : Nat} :
    (xs ++ [x])[i]? = some y ↔ xs[i]? = some y ∨ i = xs.length ∧ x = y := by
  rw [List.getElem?_append]
  split
  · rename_i hlt
    have hne : i ≠ xs.length := Nat.ne_of_lt hlt
    simp [hne]
  · rename_i hge
    have hnone : xs[i]? = none := List.getElem?_eq_none (Nat.le_of_not_lt hge)
    rw [hnone, List.getElem?_singleton]
    have hsub : i - xs.length = 0 ↔ i = xs.length := by omega
    simp [hsub]

namespace Deduped

def ids (d : Deduped) : List SourceId := d.listings.map (·.sourceId)

/-- A source id has a place exactly where a listing of it stands in the result. -/
def Placed (d : Deduped) : Prop := ∀ id i, d.places.get? id = some i ↔ d.ids[i]? = some id

/-- Where a pass is after some listings. -/
structure After (listings : List Listing) (d : Deduped) : Prop where
  placed : d.Placed
  ids : d.ids = (listings.map (·.sourceId)).eraseDups
  last : ∀ l ∈ d.listings, lastFor listings l.sourceId = some l
  count : d.duplicates + d.listings.length = listings.length

section

variable {before : List Listing} {d : Deduped} (h : d.After before)
include h

theorem After.nodup : d.ids.Nodup := by
  rw [h.ids]
  exact nodup_eraseDups _

theorem After.mem_ids_iff (id : SourceId) : id ∈ d.ids ↔ id ∈ before.map (·.sourceId) := by
  rw [h.ids, List.mem_eraseDups]

theorem After.places_eq_none_iff (id : SourceId) : d.places.get? id = none ↔ id ∉ d.ids := by
  constructor
  · intro hnone hm
    obtain ⟨i, hi⟩ := List.mem_iff_getElem?.mp hm
    rw [(h.placed id i).mpr hi] at hnone
    cases hnone
  · intro hm
    refine Option.eq_none_iff_forall_ne_some.mpr fun i hi => hm ?_
    exact List.mem_of_getElem? ((h.placed id i).mp hi)

/-- A listing of an offer that has a place is written there, over the earlier one. -/
theorem After.exists_add_of_place {l : Listing} {i : Nat} (hi : d.places.get? l.sourceId = some i) :
    ∃ d', d.add l = some d' ∧ d'.After (before ++ [l]) := by
  obtain ⟨hlt, hid⟩ := List.getElem?_eq_some_iff.mp ((h.placed _ i).mp hi)
  have hbound : i < d.listings.length := by simpa [Deduped.ids] using hlt
  let d' : Deduped :=
    { d with listings := d.listings.set i l, duplicates := d.duplicates + 1 }
  have hids : d'.ids = d.ids := by
    rw [Deduped.ids, List.map_set, ← hid]
    exact List.set_getElem_self hlt
  have hold : l.sourceId ∈ before.map (·.sourceId) := by
    rw [← h.mem_ids_iff, ← hid]
    exact List.getElem_mem hlt
  refine ⟨d', ?_, ?_⟩
  · rw [add, hi]
    exact if_pos hbound
  · constructor
    · intro id j
      rw [hids]
      exact h.placed id j
    · rw [hids, h.ids, List.map_append, List.map_singleton, eraseDups_concat, if_pos hold]
    · intro l' hl'
      obtain ⟨j, hj, rfl⟩ := List.mem_iff_getElem.mp hl'
      rw [List.length_set] at hj
      rw [lastFor_concat]
      simp only [d', List.getElem_set]
      split
      · exact if_pos rfl
      · rename_i hne
        -- The listings at the other places are of other offers.
        have hother : l.sourceId ≠ (d.listings[j]).sourceId := by
          intro heq
          have hj' : j < d.ids.length := by simpa [Deduped.ids] using hj
          have hsame : d.ids[i] = d.ids[j] := by
            rw [hid, heq]
            simp [Deduped.ids]
          exact hne (h.nodup.getElem_inj_iff.mp hsame)
        rw [if_neg hother]
        exact h.last _ (List.getElem_mem hj)
    · have := h.count
      simp only [d', List.length_set, List.length_append, List.length_singleton]
      omega

theorem After.exists_add_of_new {l : Listing} (hnone : d.places.get? l.sourceId = none) :
    ∃ d', d.add l = some d' ∧ d'.After (before ++ [l]) := by
  have hnew := (h.places_eq_none_iff _).mp hnone
  let d' : Deduped :=
    { d with places := d.places.put l.sourceId d.listings.length, listings := d.listings ++ [l] }
  have hids : d'.ids = d.ids ++ [l.sourceId] := List.map_append
  refine ⟨d', ?_, ?_⟩
  · rw [add, hnone]
  · constructor
    · intro id j
      rw [Keyed.get?_put, hids, getElem?_concat_eq_some_iff, ← h.placed id j]
      split
      · rename_i hid
        rw [← hid, hnone]
        simp [hid, Deduped.ids, eq_comm]
      · rename_i hid
        simp [hid]
    · rw [hids, List.map_append, List.map_singleton, eraseDups_concat,
        if_neg (mt (h.mem_ids_iff _).mpr hnew), ← h.ids]
    · intro l' hl'
      rw [lastFor_concat]
      rcases List.mem_append.mp hl' with hl' | hl'
      · have hother : l.sourceId ≠ l'.sourceId := fun heq =>
          hnew (heq ▸ List.mem_map_of_mem (f := (·.sourceId)) hl')
        rw [if_neg hother]
        exact h.last l' hl'
      · rw [List.mem_singleton.mp hl', if_pos rfl]
    · have := h.count
      simp only [d', List.length_append, List.length_singleton]
      omega

theorem After.exists_add (l : Listing) : ∃ d', d.add l = some d' ∧ d'.After (before ++ [l]) := by
  cases hi : d.places.get? l.sourceId with
  | some i => exact h.exists_add_of_place hi
  | none => exact h.exists_add_of_new hi

end

theorem after_empty : After [] {} where
  placed := by simp [Placed, Keyed.get?, Deduped.ids]
  ids := rfl
  last := fun _ hl => absurd hl List.not_mem_nil
  count := rfl

end Deduped

open Deduped

theorem exists_deduplicate (listings : List Listing) :
    ∃ d, deduplicate listings = some d ∧ d.After listings := by
  induction listings using List.reverseRecOn with
  | nil => exact ⟨{}, rfl, after_empty⟩
  | append_singleton before l ih =>
    obtain ⟨d, hd, hafter⟩ := ih
    obtain ⟨d', hadd, hafter'⟩ := hafter.exists_add l
    refine ⟨d', ?_, hafter'⟩
    rw [deduplicate, List.foldlM_append]
    change deduplicate before >>= _ = _
    rw [hd]
    simpa using hadd

theorem eq_of_ids {a b : List Listing} {f : SourceId → Option Listing}
    (hids : a.map (·.sourceId) = b.map (·.sourceId)) (ha : ∀ l ∈ a, f l.sourceId = some l)
    (hb : ∀ l ∈ b, f l.sourceId = some l) : a = b := by
  have hall : ∀ xs : List Listing, (∀ l ∈ xs, f l.sourceId = some l) →
      xs.map some = (xs.map (·.sourceId)).map f := by
    intro xs hxs
    rw [List.map_map]
    exact List.map_congr_left fun l hl => (hxs l hl).symm
  refine List.map_injective_iff.mpr (Option.some_injective _) ?_
  rw [hall a ha, hall b hb, hids]

theorem Deduped.After.listings_eq {listings : List Listing} {d : Deduped} (h : d.After listings) :
    d.listings = lastWins listings := by
  refine eq_of_ids ?_ h.last fun l hl => (mem_lastWins_iff listings l).mp hl
  rw [ids_lastWins]
  exact h.ids

theorem lastWins_lastWins (listings : List Listing) :
    lastWins (lastWins listings) = lastWins listings := by
  refine eq_of_ids (f := lastFor listings) ?_ ?_ ?_
  · rw [ids_lastWins, eraseDups_of_nodup (nodup_lastWins listings)]
  · intro l hl
    rw [← lastFor_lastWins]
    exact (mem_lastWins_iff _ l).mp hl
  · exact fun l hl => (mem_lastWins_iff listings l).mp hl

/-- The listings are the last ones for the ids that occurred, each id once and in the order in which the
ids first occurred, and the count says how many listings are missing. -/
structure Deduped.KeepsLast (listings : List Listing) (d : Deduped) : Prop where
  once : d.ids.Nodup
  mem_ids_iff : ∀ id, id ∈ d.ids ↔ id ∈ listings.map (·.sourceId)
  inOrder : d.ids.Pairwise fun a b =>
    (listings.map (·.sourceId)).idxOf a < (listings.map (·.sourceId)).idxOf b
  last : ∀ l ∈ d.listings, lastFor listings l.sourceId = some l
  count : d.duplicates + d.listings.length = listings.length

theorem Deduped.After.keepsLast {listings : List Listing} {d : Deduped} (h : d.After listings) :
    d.KeepsLast listings where
  once := h.nodup
  mem_ids_iff := h.mem_ids_iff
  inOrder := by
    rw [h.ids]
    exact pairwise_idxOf_eraseDups _
  last := h.last
  count := h.count

/-- The pass never stops early. It keeps the last listings, as a reconciliation does, and wherever it has
got to, each id has its place in what is there by then. Gone through again, the result stays as it is. -/
theorem deduplicate_keepsLast (listings : List Listing) :
    ∃ d, deduplicate listings = some d ∧ d.KeepsLast listings ∧ d.listings = lastWins listings ∧
      (∀ before after, before ++ after = listings → ∃ d',
        deduplicate before = some d' ∧ d'.Placed ∧ after.foldlM Deduped.add d' = some d) ∧
      ∃ again, deduplicate d.listings = some again ∧ again.listings = d.listings ∧
        again.duplicates = 0 := by
  obtain ⟨d, hd, hafter⟩ := exists_deduplicate listings
  refine ⟨d, hd, hafter.keepsLast, hafter.listings_eq, ?_, ?_⟩
  · rintro before after rfl
    obtain ⟨d', hd', hafter'⟩ := exists_deduplicate before
    refine ⟨d', hd', hafter'.placed, ?_⟩
    rw [← hd, deduplicate, List.foldlM_append]
    change _ = deduplicate before >>= _
    rw [hd']
    rfl
  · obtain ⟨again, hagain, hthen⟩ := exists_deduplicate d.listings
    have hsame : again.listings = d.listings := by
      rw [hthen.listings_eq, hafter.listings_eq, lastWins_lastWins]
    have hcount := hthen.count
    rw [hsame] at hcount
    exact ⟨again, hagain, hsame, by omega⟩

end OfferLedger
