import OfferLedger.Proofs.Reconcile.LastWins
import OfferLedger.Proofs.Store.Histories
import Mathlib.Data.Set.Card

/-! # Stores

What can be seen of a store is the history of every offer and which offers are active. A store is a
repository whose answers are decided by what can be seen of it: two stores that show the same answer
every call alike, however they keep it. -/
namespace OfferLedger

theorem encard_eq_length {α : Type} [DecidableEq α] {xs : List α} {s : Set α} (hd : xs.Nodup)
    (hm : ∀ a, a ∈ xs ↔ a ∈ s) : s.encard = xs.length := by
  have hs : s = (xs.toFinset : Set α) := by
    ext a
    rw [← hm a, Finset.mem_coe, List.mem_toFinset]
  rw [hs, Set.encard_coe_eq_coe_finsetCard, List.toFinset_card_of_nodup hd]

theorem encard_eq_length_entries {entries : List Entry} {s : Set SourceId}
    (hd : (entries.map (·.listing.sourceId)).Nodup)
    (hm : ∀ id, id ∈ s ↔ ∃ e ∈ entries, e.listing.sourceId = id) :
    s.encard = entries.length := by
  rw [← List.length_map (·.listing.sourceId)]
  exact encard_eq_length hd fun id => List.mem_map.trans (hm id).symm

theorem map_filterMap_sublist {α β κ : Type} {f : α → Option β} {key : β → κ} {key' : α → κ}
    {xs : List α} (hf : ∀ a ∈ xs, ∀ b, f a = some b → key b = key' a) :
    ((xs.filterMap f).map key).Sublist (xs.map key') := by
  induction xs with
  | nil => exact List.Sublist.slnil
  | cons a rest ih =>
    have hrest := ih fun a' ha' => hf a' (List.mem_cons_of_mem _ ha')
    rw [List.filterMap_cons, List.map_cons]
    cases h : f a with
    | none => exact hrest.cons _
    | some b =>
      rw [List.map_cons, hf a (List.mem_cons_self ..) b h]
      exact hrest.cons_cons _

/-- The entry that removes an offer after its latest revision. -/
def Revision.removal (r : Revision) : Entry := ⟨r.listing, r.version + 1, .delete⟩

structure View where
  history : Histories
  isActive : SourceId → Bool

namespace View

def latest? (v : View) (id : SourceId) : Option Revision := (v.history id).getLast?

/-- The latest revision of an offer says whether it is active. -/
structure Consistent (v : View) : Prop where
  numbered : v.history.Numbered
  isActive : ∀ id, v.isActive id = (v.latest? id).any fun r => !r.isDelete

def known? (v : View) (l : Listing) : Option Known :=
  (v.latest? l.sourceId).map fun r =>
    ⟨r.version, v.isActive l.sourceId, !v.isActive l.sourceId || r.listing ≠ l⟩

/-- The latest revision of an active offer of a region that is not listed. -/
def missing? (v : View) (partition : PartitionKey) (ids : List SourceId) (id : SourceId) :
    Option Revision :=
  (v.latest? id).filter fun r => v.isActive id && r.listing.uf = partition && !ids.contains id

def removed (v : View) (partition : PartitionKey) (ids : List SourceId) (batch : BatchId) :
    Histories := fun id =>
  match v.missing? partition ids id with
  | none => v.history id
  | some r => v.history id ++ [r.removal.revision batch]

theorem latest?_eq_none_iff (v : View) (id : SourceId) :
    v.latest? id = none ↔ v.history id = [] := by
  simp [latest?]

theorem known?_eq_none_iff (v : View) (l : Listing) :
    v.known? l = none ↔ v.history l.sourceId = [] := by
  rw [known?, Option.map_eq_none_iff, latest?_eq_none_iff]

theorem known?_append (v : View) (a b : List Listing) (id : SourceId) :
    (lastFor (a ++ b) id).bind v.known? =
      ((lastFor b id).bind v.known?).or ((lastFor a id).bind v.known?) := by
  rw [lastFor_append]
  cases hb : lastFor b id with
  | none => rfl
  | some l =>
    cases hk : v.known? l with
    | some k => simp [hk]
    | none =>
      -- An offer without a history is known through none of its listings.
      cases ha : lastFor a id with
      | none => simp [hk]
      | some l' =>
        have hk' : v.known? l' = none := by
          rw [known?_eq_none_iff, sourceId_of_lastFor ha, ← sourceId_of_lastFor hb]
          exact (known?_eq_none_iff v l).mp hk
        simp [hk, hk']

theorem last?_known (v : View) (listings : List Listing) (id : SourceId) :
    Keyed.last? (listings.filterMap fun l => (v.known? l).map fun k => (l.sourceId, k)) id =
      (lastFor listings id).bind v.known? := by
  induction listings with
  | nil => rfl
  | cons l rest ih =>
    have hone : Keyed.last? ([l].filterMap fun l => (v.known? l).map fun k => (l.sourceId, k)) id =
        (lastFor [l] id).bind v.known? := by
      cases hk : v.known? l <;> by_cases hid : l.sourceId = id <;>
        simp [lastFor, Keyed.last?, hk, hid]
    rw [← List.singleton_append, List.filterMap_append, Keyed.last?_append, known?_append, ih, hone]

theorem Consistent.version_latest {v : View} (hv : v.Consistent) {id : SourceId} {r : Revision}
    (hr : v.latest? id = some r) : r.version = (v.history id).length := by
  have hpos : 0 < (v.history id).length := by
    refine List.length_pos_iff.mpr fun hnil => ?_
    rw [(v.latest?_eq_none_iff id).mpr hnil] at hr
    cases hr
  rw [latest?, List.getLast?_eq_getElem?] at hr
  have := hv.numbered.version id _ r hr
  omega

theorem Consistent.sourceId_latest {v : View} (hv : v.Consistent) {id : SourceId} {r : Revision}
    (hr : v.latest? id = some r) : r.listing.sourceId = id :=
  hv.numbered.sourceId id r (List.mem_of_getLast? hr)

theorem Consistent.sourceId_missing {v : View} (hv : v.Consistent) {partition : PartitionKey}
    {ids : List SourceId} {id : SourceId} {r : Revision}
    (hr : v.missing? partition ids id = some r) : r.listing.sourceId = id :=
  hv.sourceId_latest (Option.filter_eq_some_iff.mp hr).1

theorem Consistent.ext {v w : View} (hv : v.Consistent) (hw : w.Consistent)
    (h : v.history = w.history) : v = w := by
  have hactive : v.isActive = w.isActive := by
    funext id
    rw [hv.isActive, hw.isActive, latest?, latest?, h]
  cases v
  cases w
  rw [View.mk.injEq]
  exact ⟨h, hactive⟩

section Removing

variable {v : View} {partition : PartitionKey} {ids : List SourceId} {entries : List Entry}

theorem Consistent.grown_removals (hv : v.Consistent)
    (hd : (entries.map (·.listing.sourceId)).Nodup)
    (hm : ∀ e, e ∈ entries ↔
      ∃ r, v.missing? partition ids e.listing.sourceId = some r ∧ e = r.removal)
    (batch : BatchId) : v.history.grown batch entries = v.removed partition ids batch := by
  funext id
  unfold removed
  cases hr : v.missing? partition ids id with
  | none =>
    refine Histories.grown_of_notMem fun hid => ?_
    obtain ⟨e, he, rfl⟩ := List.mem_map.mp hid
    obtain ⟨r, hr', -⟩ := (hm e).mp he
    rw [hr] at hr'
    cases hr'
  | some r =>
    have hid : r.removal.listing.sourceId = id := hv.sourceId_missing hr
    subst hid
    exact Histories.grown_of_mem hd ((hm r.removal).mpr ⟨r, hr, rfl⟩)

theorem Consistent.encard_missing (hv : v.Consistent)
    (hd : (entries.map (·.listing.sourceId)).Nodup)
    (hm : ∀ e, e ∈ entries ↔
      ∃ r, v.missing? partition ids e.listing.sourceId = some r ∧ e = r.removal) :
    {id | (v.missing? partition ids id).isSome}.encard = entries.length := by
  refine encard_eq_length_entries hd fun id => ?_
  rw [Set.mem_ofPred_eq, Option.isSome_iff_exists]
  constructor
  · rintro ⟨r, hr⟩
    have hid : r.removal.listing.sourceId = id := hv.sourceId_missing hr
    subst hid
    exact ⟨r.removal, (hm r.removal).mpr ⟨r, hr, rfl⟩, rfl⟩
  · rintro ⟨e, he, rfl⟩
    obtain ⟨r, hr, -⟩ := (hm e).mp he
    exact ⟨r, hr⟩

end Removing
end View

namespace Call

def batch? : Call → Option BatchId
  | find _ => none
  | append _ batch | touch _ batch | removeMissing _ _ batch => some batch

/-- What is appended is an insertion or an update; deletions are made by removing. -/
def Live : Call → Prop
  | append entries _ => ∀ e ∈ entries, e.operation ≠ .delete
  | _ => True

/-- What is appended belongs to different offers, is live, and has a version that there can be. -/
def WellFormed : Call → Prop
  | append entries _ =>
    (entries.map (·.listing.sourceId)).Nodup ∧
      ∀ e ∈ entries, 1 ≤ e.version ∧ e.operation ≠ .delete
  | _ => True

instance : DecidablePred Live
  | append entries _ => inferInstanceAs (Decidable (∀ e ∈ entries, e.operation ≠ .delete))
  | find _ | touch .. | removeMissing .. => .isTrue trivial

instance : DecidablePred WellFormed
  | append entries _ => inferInstanceAs (Decidable ((entries.map (·.listing.sourceId)).Nodup ∧
      ∀ e ∈ entries, 1 ≤ e.version ∧ e.operation ≠ .delete))
  | find _ | touch .. | removeMissing .. => .isTrue trivial

theorem WellFormed.live {c : Call} (hc : c.WellFormed) : c.Live := by
  cases c with
  | append entries batch => exact fun e he => (hc.2 e he).2
  | _ => trivial

end Call

/-- A repository with what can be seen of its states. `Sound` is what it keeps true of them, also
where a call fails, and `HasBatch` says which batches can be written in. -/
structure Store (σ : Type) where
  repository : Repository σ
  view : σ → View
  Sound : σ → Prop
  HasBatch : σ → BatchId → Prop
  consistent : ∀ {s}, Sound s → (view s).Consistent
  call : ∀ {s}, Sound s → ∀ {c : Call}, c.Live →
    Sound (repository c s).2 ∧ ∀ batch, HasBatch (repository c s).2 batch ↔ HasBatch s batch
  find : ∀ {s}, Sound s → ∀ listings, ∃ known,
    repository (.find listings) s = (.ok known, s) ∧
      ∀ id, Keyed.get? known id = (lastFor listings id).bind (view s).known?
  append : ∀ {s entries batch}, Sound s → HasBatch s batch →
    (Call.append entries batch).WellFormed → (∀ e ∈ entries, (view s).history.Fits e) →
    ∃ s', repository (.append entries batch) s = (.ok (), s') ∧
      (view s').history = (view s).history.grown batch entries
  conflict : ∀ {s entries batch e}, Sound s → HasBatch s batch →
    (Call.append entries batch).WellFormed →
    entries.find? (fun e => ¬ (view s).history.Fits e) = some e →
    repository (.append entries batch) s = (.error e.conflict, s)
  touch : ∀ {s batch}, Sound s → HasBatch s batch → ∀ ids,
    ∃ s', repository (.touch ids batch) s = (.ok (), s') ∧ (view s').history = (view s).history
  removeMissing : ∀ {s batch}, Sound s → HasBatch s batch → ∀ partition ids,
    ∃ n s', repository (.removeMissing partition ids batch) s = (.ok n, s') ∧
      {id | ((view s).missing? partition ids id).isSome}.encard = n ∧
      (view s').history = (view s).removed partition ids batch

theorem Store.append_or_conflict {σ : Type} (S : Store σ) {s : σ} {entries : List Entry}
    {batch : BatchId} (hs : S.Sound s) (hb : S.HasBatch s batch)
    (hw : (Call.append entries batch).WellFormed) :
    ((∀ e ∈ entries, (S.view s).history.Fits e) ∧
      ∃ s', S.repository (.append entries batch) s = (.ok (), s') ∧
        (S.view s').history = (S.view s).history.grown batch entries) ∨
    ∃ e ∈ entries, ¬ (S.view s).history.Fits e ∧
      S.repository (.append entries batch) s = (.error e.conflict, s) := by
  cases hfirst : entries.find? fun e => ¬ (S.view s).history.Fits e with
  | some e =>
    have hnot : ¬ (S.view s).history.Fits e := by simpa using List.find?_some hfirst
    exact .inr ⟨e, List.mem_of_find?_eq_some hfirst, hnot, S.conflict hs hb hw hfirst⟩
  | none =>
    have hfits : ∀ e ∈ entries, (S.view s).history.Fits e := by
      intro e he
      simpa using List.find?_eq_none.mp hfirst e he
    exact .inl ⟨hfits, S.append hs hb hw hfits⟩

end OfferLedger
