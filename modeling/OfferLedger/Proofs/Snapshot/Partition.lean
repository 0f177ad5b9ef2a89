import OfferLedger.Snapshot.Partition
import OfferLedger.Proofs.Text.Blank
import OfferLedger.Proofs.Text.Upper

/-! # The groups of a snapshot

The keys of the groups ascend, so no key stands twice, and a group holds listings of its own region
only. The keys are the regions of the listings, or those that are requested. All groups together hold
every listing whose region is a key, as often as it was given. -/
namespace OfferLedger

namespace PartitionKey

theorem eq_of_not_lt {a b : PartitionKey} (hab : ¬ a < b) (hba : ¬ b < a) : a = b :=
  String.le_antisymm (String.not_lt.mp hba) (String.not_lt.mp hab)

theorem mem_insert_iff (k k' : PartitionKey) (keys : List PartitionKey) :
    k' ∈ insert k keys ↔ k' = k ∨ k' ∈ keys := by
  induction keys with
  | nil => exact List.mem_singleton.trans (by simp)
  | cons x rest ih =>
    unfold insert
    split
    · exact List.mem_cons
    · split
      · rw [List.mem_cons, ih, List.mem_cons]
        exact or_left_comm
      · rename_i hkx hxk
        rw [eq_of_not_lt hkx hxk, List.mem_cons]
        simp

theorem pairwise_insert (k : PartitionKey) {keys : List PartitionKey}
    (h : keys.Pairwise (· < ·)) : (insert k keys).Pairwise (· < ·) := by
  induction keys with
  | nil => exact List.pairwise_singleton _ _
  | cons x rest ih =>
    obtain ⟨hx, hrest⟩ := List.pairwise_cons.mp h
    unfold insert
    split
    · rename_i hkx
      apply List.pairwise_cons.mpr
      refine ⟨?_, h⟩
      intro y hy
      rcases List.mem_cons.mp hy with rfl | hy
      · exact hkx
      · exact String.lt_trans hkx (hx y hy)
    · split
      · rename_i hxk
        apply List.pairwise_cons.mpr
        refine ⟨?_, ih hrest⟩
        intro y hy
        rcases (mem_insert_iff k y rest).mp hy with rfl | hy
        · exact hxk
        · exact hx y hy
      · exact h

theorem mem_ascending_iff (k : PartitionKey) (keys : List PartitionKey) :
    k ∈ ascending keys ↔ k ∈ keys := by
  induction keys with
  | nil => rfl
  | cons x rest ih =>
    change k ∈ insert x (ascending rest) ↔ _
    rw [mem_insert_iff, ih, List.mem_cons]

theorem pairwise_ascending (keys : List PartitionKey) : (ascending keys).Pairwise (· < ·) := by
  induction keys with
  | nil => exact List.Pairwise.nil
  | cons k rest ih => exact pairwise_insert k ih

/-- Only a blank text has an empty key: no character is lost in upper case. -/
theorem isEmpty_ofText (s : String) : (ofText s).isEmpty = Text.isBlankText s := by
  rw [Bool.eq_iff_iff, ofText, String.isEmpty_iff, String.ofList_eq_empty_iff, Text.upper_eq_nil_iff]
  exact Text.trim_eq_nil_iff s

theorem mem_requested_iff (k : PartitionKey) (texts : List String) :
    k ∈ requested texts ↔ ∃ r ∈ texts, Text.isBlankText r = false ∧ ofText r = k := by
  rw [requested, mem_ascending_iff, List.mem_filter, List.mem_map]
  constructor
  · rintro ⟨⟨r, hr, rfl⟩, hne⟩
    refine ⟨r, hr, ?_, rfl⟩
    simpa [isEmpty_ofText] using hne
  · rintro ⟨r, hr, hblank, rfl⟩
    refine ⟨⟨r, hr, rfl⟩, ?_⟩
    simp [isEmpty_ofText, hblank]

end PartitionKey

theorem perm_flatMap_filter {α κ : Type} [DecidableEq κ] (key : α → κ) (xs : List α) {keys : List κ}
    (h : keys.Nodup) :
    (keys.flatMap fun k => xs.filter (key · = k)).Perm (xs.filter (key · ∈ keys)) := by
  induction keys with
  | nil => simp
  | cons k rest ih =>
    obtain ⟨hk, hrest⟩ := List.nodup_cons.mp h
    have hfirst : (xs.filter (key · ∈ k :: rest)).filter (key · = k) = xs.filter (key · = k) := by
      rw [List.filter_filter]
      apply List.filter_congr
      intro x _
      by_cases hx : key x = k
      · simp [hx]
      · simp [hx]
    have hothers : (xs.filter (key · ∈ k :: rest)).filter (fun x => !decide (key x = k)) =
        xs.filter (key · ∈ rest) := by
      rw [List.filter_filter]
      apply List.filter_congr
      intro x _
      by_cases hx : key x = k
      · simp [hx, hk]
      · simp [hx]
    have hsplit := List.filter_append_perm (key · = k) (xs.filter (key · ∈ k :: rest))
    rw [hfirst, hothers] at hsplit
    rw [List.flatMap_cons]
    exact ((ih hrest).append_left _).trans hsplit

variable (listings : List Listing) (requested : List String)

theorem map_fst_groups : (groups listings requested).map (·.1) = groupKeys listings requested := by
  rw [groups, List.map_map]
  exact List.map_id _

theorem pairwise_groupKeys : (groupKeys listings requested).Pairwise (· < ·) := by
  rw [groupKeys]
  split
  · exact PartitionKey.pairwise_ascending _
  · exact PartitionKey.pairwise_ascending _

theorem pairwise_groups :
    (groups listings requested).Pairwise fun g g' => g.1 < g'.1 := by
  apply List.pairwise_map.mp
  rw [map_fst_groups]
  exact pairwise_groupKeys listings requested

theorem mem_groupKeys_nil_iff (k : PartitionKey) :
    k ∈ groupKeys listings [] ↔ k ∈ listings.map (·.uf) :=
  PartitionKey.mem_ascending_iff k _

variable {requested} in
theorem mem_groupKeys_iff (h : requested ≠ []) (k : PartitionKey) :
    k ∈ groupKeys listings requested ↔
      ∃ r ∈ requested, Text.isBlankText r = false ∧ PartitionKey.ofText r = k := by
  rw [groupKeys, List.isEmpty_eq_false_iff.mpr h, if_neg Bool.false_ne_true]
  exact PartitionKey.mem_requested_iff k requested

theorem mem_groups_iff (g : Group) :
    g ∈ groups listings requested ↔
      g.1 ∈ groupKeys listings requested ∧ g.2 = listings.filter (·.uf = g.1) := by
  rw [groups, List.mem_map]
  constructor
  · rintro ⟨k, hk, rfl⟩
    exact ⟨hk, rfl⟩
  · rintro ⟨hk, heq⟩
    exact ⟨g.1, hk, Prod.ext rfl heq.symm⟩

theorem perm_flatMap_groups :
    ((groups listings requested).flatMap (·.2)).Perm
      (listings.filter (·.uf ∈ groupKeys listings requested)) := by
  rw [groups, List.flatMap_map]
  apply perm_flatMap_filter
  exact (pairwise_groupKeys listings requested).imp String.ne_of_lt

variable {listings requested}

theorem uf_of_mem_groups {g : Group} (hg : g ∈ groups listings requested) {l : Listing}
    (hl : l ∈ g.2) : l.uf = g.1 := by
  obtain ⟨k, -, rfl⟩ := List.mem_map.mp hg
  simpa using (List.mem_filter.mp hl).2

end OfferLedger
