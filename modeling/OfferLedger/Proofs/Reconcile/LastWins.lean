import OfferLedger.Proofs.Keyed
import OfferLedger.Reconcile.Basic
import Mathlib.Data.Finset.Card

/-! # The last listing for each source id

Reconciling keeps one listing for each source id. It is the last one that came in, whatever the order
of the others. -/
namespace OfferLedger

/-- The last of some listings for a source id. -/
def lastFor (listings : List Listing) (id : SourceId) : Option Listing :=
  listings.reverse.find? (·.sourceId = id)

theorem lastFor_eq_last? (listings : List Listing) (id : SourceId) :
    lastFor listings id = Keyed.last? (listings.map fun l => (l.sourceId, l)) id := by
  unfold lastFor Keyed.last?
  simp [← List.map_reverse, List.find?_map, Option.map_map, Function.comp_def]

theorem lastFor_append (a b : List Listing) (id : SourceId) :
    lastFor (a ++ b) id = (lastFor b id).or (lastFor a id) := by
  simp only [lastFor_eq_last?, List.map_append, Keyed.last?_append]

theorem lastFor_concat (listings : List Listing) (l : Listing) (id : SourceId) :
    lastFor (listings ++ [l]) id = if l.sourceId = id then some l else lastFor listings id := by
  rw [lastFor_append]
  by_cases hid : l.sourceId = id <;> simp [lastFor, hid]

theorem sourceId_of_lastFor {listings : List Listing} {id : SourceId} {l : Listing}
    (h : lastFor listings id = some l) : l.sourceId = id := by
  simpa using List.find?_some h

theorem mem_of_lastFor {listings : List Listing} {id : SourceId} {l : Listing}
    (h : lastFor listings id = some l) : l ∈ listings :=
  List.mem_reverse.mp (List.mem_of_find?_eq_some h)

theorem lastFor_isSome_iff (listings : List Listing) (id : SourceId) :
    (lastFor listings id).isSome ↔ id ∈ listings.map (·.sourceId) := by
  simp [lastFor]

theorem lastFor_eq_none_iff (listings : List Listing) (id : SourceId) :
    lastFor listings id = none ↔ id ∉ listings.map (·.sourceId) := by
  rw [← lastFor_isSome_iff, Option.not_isSome_iff_eq_none]

theorem lastFor_filter {listings : List Listing} {id : SourceId} {p : Listing → Bool}
    (h : ∀ l ∈ listings, l.sourceId = id → p l = true) :
    lastFor (listings.filter p) id = lastFor listings id := by
  have hfilter : (listings.reverse.filter p).filter (·.sourceId = id) =
      listings.reverse.filter (·.sourceId = id) := by
    rw [List.filter_filter]
    apply List.filter_congr
    intro l hl
    by_cases hid : l.sourceId = id
    · simp [hid, h l (List.mem_reverse.mp hl) hid]
    · simp [hid]
  rw [lastFor, ← List.filter_reverse, ← List.head?_filter, hfilter, List.head?_filter, lastFor]

theorem sourceId_of_mem_ofList {listings : List Listing} {e : SourceId × Listing}
    (h : e ∈ Keyed.ofList (listings.map fun l => (l.sourceId, l))) : e.2.sourceId = e.1 := by
  have hm := Keyed.mem_of_last? ((Keyed.mem_ofList_iff _ e.1 e.2).mp h)
  obtain ⟨l, -, hl⟩ := List.mem_map.mp hm
  rw [← show l = e.2 from congrArg Prod.snd hl]
  exact congrArg Prod.fst hl

theorem mem_lastWins_iff (listings : List Listing) (l : Listing) :
    l ∈ lastWins listings ↔ lastFor listings l.sourceId = some l := by
  rw [lastFor_eq_last?, ← Keyed.mem_ofList_iff]
  constructor
  · intro h
    obtain ⟨e, he, rfl⟩ := List.mem_map.mp h
    rw [sourceId_of_mem_ofList he]
    exact he
  · exact fun h => List.mem_map_of_mem (f := Prod.snd) h

theorem map_sourceId_lastWins (listings : List Listing) :
    (lastWins listings).map (·.sourceId) =
      Keyed.keys (Keyed.ofList (listings.map fun l => (l.sourceId, l))) := by
  unfold lastWins Keyed.values Keyed.keys
  rw [List.map_map]
  exact List.map_congr_left fun e he => sourceId_of_mem_ofList he

theorem ids_lastWins (listings : List Listing) :
    (lastWins listings).map (·.sourceId) = (listings.map (·.sourceId)).eraseDups := by
  rw [map_sourceId_lastWins, Keyed.keys_ofList, List.map_map]
  rfl

theorem nodup_lastWins (listings : List Listing) :
    ((lastWins listings).map (·.sourceId)).Nodup := by
  rw [map_sourceId_lastWins]
  exact Keyed.nodup_keys_ofList _

theorem lastFor_lastWins (listings : List Listing) (id : SourceId) :
    lastFor (lastWins listings) id = lastFor listings id := by
  ext l
  rw [lastFor_eq_last? (lastWins listings), Keyed.last?_eq_some_iff]
  · constructor
    · intro h
      obtain ⟨l', hl', he⟩ := List.mem_map.mp h
      have hid : l'.sourceId = id := congrArg Prod.fst he
      have hl : l' = l := congrArg Prod.snd he
      subst hid hl
      exact (mem_lastWins_iff listings l').mp hl'
    · intro h
      have hid := sourceId_of_lastFor h
      subst hid
      exact List.mem_map.mpr ⟨l, (mem_lastWins_iff listings l).mpr h, rfl⟩
  · have := nodup_lastWins listings
    simpa [Keyed.keys, List.map_map, Function.comp_def] using this

theorem mem_ids_lastWins (listings : List Listing) (id : SourceId) :
    id ∈ (lastWins listings).map (·.sourceId) ↔ id ∈ listings.map (·.sourceId) := by
  rw [← lastFor_isSome_iff, lastFor_lastWins, lastFor_isSome_iff]

theorem length_lastWins (listings : List Listing) :
    (lastWins listings).length = (listings.map (·.sourceId)).toFinset.card := by
  rw [← List.length_map (·.sourceId), ← List.toFinset_card_of_nodup (nodup_lastWins listings)]
  congr 1
  ext id
  rw [List.mem_toFinset, List.mem_toFinset, mem_ids_lastWins]

end OfferLedger
