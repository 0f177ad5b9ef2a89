import OfferLedger.Proofs.Snapshot.Partition
import OfferLedger.Proofs.Snapshot.RoundTrip

/-! # From raw listings to regions

A listing can be used if it names its offer and its region. The region of a raw listing and a request
for a region lead to the same key if they differ in surrounding blanks and in case only, so no listing
of a requested region is passed over, and no region is taken for empty that is not. -/
namespace OfferLedger

namespace Listing

structure Usable (raw : Listing) : Prop where
  sourceId : Text.isBlankText raw.sourceId = false
  uf : Text.isBlankText raw.uf = false

theorem Usable.normalized {raw : Listing} (h : raw.Usable) : ∃ l, raw.normalized = .ok l := by
  unfold Listing.normalized
  simp only [Text.isEmpty_trimmed, PartitionKey.isEmpty_ofText, h.sourceId, h.uf]
  exact ⟨_, rfl⟩

theorem exists_invalid {raw : Listing} (h : ¬ raw.Usable) :
    ∃ cause, raw.normalized = .error cause := by
  unfold Listing.normalized
  simp only [Text.isEmpty_trimmed, PartitionKey.isEmpty_ofText]
  cases hid : Text.isBlankText raw.sourceId with
  | true => exact ⟨_, rfl⟩
  | false =>
    cases huf : Text.isBlankText raw.uf with
    | true => exact ⟨_, rfl⟩
    | false => exact absurd ⟨hid, huf⟩ h

theorem usable_of_normalized {raw l : Listing} (h : raw.normalized = .ok l) : raw.Usable := by
  by_contra hnot
  obtain ⟨cause, hcause⟩ := exists_invalid hnot
  rw [h] at hcause
  cases hcause

theorem uf_of_normalized {raw l : Listing} (h : raw.normalized = .ok l) :
    l.uf = PartitionKey.ofText raw.uf := by
  unfold Listing.normalized at h
  dsimp only at h
  split_ifs at h
  obtain rfl := Except.ok.inj h
  rfl

end Listing

/-- Whether a region is taken: every region is, or those that are requested. -/
def PartitionKey.Asked (requested : List String) (k : PartitionKey) : Prop :=
  requested = [] ∨ ∃ r ∈ requested, ofText r = k

namespace Snapshot

section

variable {raws listings : List Listing} (h : Normalized raws listings)
include h

theorem Normalized.map_uf : listings.map (·.uf) = raws.map fun raw => PartitionKey.ofText raw.uf := by
  induction h with
  | nil => rfl
  | cons hraw _ ih => rw [List.map_cons, List.map_cons, Listing.uf_of_normalized hraw, ih]

theorem Normalized.mem_iff (l : Listing) : l ∈ listings ↔ ∃ raw ∈ raws, raw.normalized = .ok l := by
  induction h with
  | nil => simp
  | cons hraw _ ih =>
    rw [List.mem_cons, ih, List.exists_mem_cons_iff, hraw, Except.ok.injEq]
    exact or_congr_left eq_comm

theorem Normalized.filter (k : PartitionKey) :
    Normalized (raws.filter fun raw => PartitionKey.ofText raw.uf = k)
      (listings.filter (·.uf = k)) := by
  apply List.rel_filter ?_ h
  intro raw l hraw
  simp [Listing.uf_of_normalized hraw]

end

theorem normalizeFrom_of_first {before after : List Listing} (hbefore : ∀ l ∈ before, l.Usable)
    {raw : Listing} {cause : Listing.Invalid} (hraw : raw.normalized = .error cause) (position : Nat) :
    normalizeFrom position (before ++ raw :: after) =
      .error (.invalid (position + before.length) cause) := by
  induction before generalizing position with
  | nil =>
    rw [List.nil_append, normalizeFrom, hraw]
    rfl
  | cons first rest ih =>
    obtain ⟨l, hl⟩ := (hbefore first (List.mem_cons_self ..)).normalized
    have hrest := ih (fun l hm => hbefore l (List.mem_cons_of_mem _ hm)) (position + 1)
    rw [List.cons_append, normalizeFrom, hl]
    dsimp only
    rw [hrest, List.length_cons, Nat.add_assoc, Nat.add_comm 1]
    rfl

theorem exists_normalized {raws : List Listing} (h : ∀ raw ∈ raws, raw.Usable) :
    ∃ listings, Normalized raws listings := by
  induction raws with
  | nil => exact ⟨[], .nil⟩
  | cons raw rest ih =>
    obtain ⟨l, hl⟩ := (h raw (List.mem_cons_self ..)).normalized
    obtain ⟨listings, hrest⟩ := ih fun raw hm => h raw (List.mem_cons_of_mem _ hm)
    exact ⟨l :: listings, .cons hl hrest⟩

theorem Normalized.usable {raws listings : List Listing} (h : Normalized raws listings) :
    ∀ raw ∈ raws, raw.Usable := by
  induction h with
  | nil => exact fun _ hm => absurd hm List.not_mem_nil
  | cons hraw _ ih => exact List.forall_mem_cons.mpr ⟨Listing.usable_of_normalized hraw, ih⟩

/-- Raw listings, normalised and put into groups. -/
structure Parted (raws listings : List Listing) (requested : List String) (gs : List Group) :
    Prop where
  ascending : gs.Pairwise fun g g' => g.1 < g'.1
  present : requested = [] → ∀ k, k ∈ gs.map (·.1) ↔ ∃ raw ∈ raws, PartitionKey.ofText raw.uf = k
  asked : requested ≠ [] → ∀ k, k ∈ gs.map (·.1) ↔
    ∃ r ∈ requested, Text.isBlankText r = false ∧ PartitionKey.ofText r = k
  group : ∀ g ∈ gs, Normalized (raws.filter fun raw => PartitionKey.ofText raw.uf = g.1) g.2
  placed : ∀ raw ∈ raws, ∀ l, raw.normalized = .ok l → ∀ k,
    (∃ ls, (k, ls) ∈ gs ∧ l ∈ ls) ↔ PartitionKey.ofText raw.uf = k ∧ PartitionKey.Asked requested k
  apart : gs.Pairwise fun g g' => g.2.Disjoint g'.2
  whole : requested = [] → (gs.flatMap (·.2)).Perm listings
  absent : ∀ r ∈ requested, Text.isBlankText r = false →
    (∀ raw ∈ raws, PartitionKey.ofText raw.uf ≠ PartitionKey.ofText r) →
      (PartitionKey.ofText r, []) ∈ gs

section

variable {raws listings : List Listing} (h : Normalized raws listings) (requested : List String)
include h

theorem Normalized.exists_group_iff {raw l : Listing} (hm : raw ∈ raws) (hl : raw.normalized = .ok l)
    (k : PartitionKey) :
    (∃ ls, (k, ls) ∈ groups listings requested ∧ l ∈ ls) ↔
      PartitionKey.ofText raw.uf = k ∧ PartitionKey.Asked requested k := by
  have hmem := (h.mem_iff l).mpr ⟨raw, hm, hl⟩
  have huf := Listing.uf_of_normalized hl
  constructor
  · rintro ⟨ls, hg, hls⟩
    obtain ⟨hk, -⟩ := (mem_groups_iff listings requested _).mp hg
    refine ⟨huf ▸ uf_of_mem_groups hg hls, ?_⟩
    by_cases hnil : requested = []
    · exact .inl hnil
    · obtain ⟨r, hr, -, hrk⟩ := (mem_groupKeys_iff listings hnil k).mp hk
      exact .inr ⟨r, hr, hrk⟩
  · rintro ⟨rfl, hasked⟩
    refine ⟨listings.filter (·.uf = PartitionKey.ofText raw.uf),
      (mem_groups_iff listings requested _).mpr ⟨?_, rfl⟩,
      List.mem_filter.mpr ⟨hmem, decide_eq_true huf⟩⟩
    rcases hasked with rfl | ⟨r, hr, hrk⟩
    · rw [mem_groupKeys_nil_iff, ← huf]
      exact List.mem_map_of_mem hmem
    · -- What is requested is not blank, since the region of the listing is not.
      have hblank : Text.isBlankText r = false := by
        rw [← PartitionKey.isEmpty_ofText, hrk, PartitionKey.isEmpty_ofText]
        exact (Listing.usable_of_normalized hl).uf
      exact (mem_groupKeys_iff listings (List.ne_nil_of_mem hr) _).mpr ⟨r, hr, hblank, hrk⟩

theorem Normalized.parted : Parted raws listings requested (groups listings requested) where
  ascending := pairwise_groups listings requested
  present := by
    rintro rfl k
    rw [map_fst_groups, mem_groupKeys_nil_iff, h.map_uf, List.mem_map]
  asked hne k := by
    rw [map_fst_groups]
    exact mem_groupKeys_iff listings hne k
  group g hg := by
    rw [((mem_groups_iff listings requested g).mp hg).2]
    exact h.filter g.1
  placed raw hm l hl k := h.exists_group_iff requested hm hl k
  apart := by
    apply (pairwise_groups listings requested).imp_of_mem
    intro g g' hg hg' hlt l hl hl'
    have heq := (uf_of_mem_groups hg hl).symm.trans (uf_of_mem_groups hg' hl')
    exact absurd heq (String.ne_of_lt hlt)
  whole := by
    rintro rfl
    have hperm := perm_flatMap_groups listings []
    rw [List.filter_eq_self.mpr] at hperm
    · exact hperm
    · intro l hl
      rw [decide_eq_true_eq, mem_groupKeys_nil_iff]
      exact List.mem_map_of_mem hl
  absent r hr hblank hnone := by
    have hnil : listings.filter (·.uf = PartitionKey.ofText r) = [] := by
      apply List.filter_eq_nil_iff.mpr
      intro l hl
      obtain ⟨raw, hm, hraw⟩ := (h.mem_iff l).mp hl
      rw [decide_eq_true_eq, Listing.uf_of_normalized hraw]
      exact hnone raw hm
    have hkey : PartitionKey.ofText r ∈ groupKeys listings requested :=
      (mem_groupKeys_iff listings (List.ne_nil_of_mem hr) _).mpr ⟨r, hr, hblank, rfl⟩
    exact (mem_groups_iff listings requested _).mpr ⟨hkey, hnil.symm⟩

end

section

variable {bytes : List UInt8} {raws : List Listing} (h : Listing.listOfJson bytes = .ok raws)
include h

theorem ofBytes_eq : ofBytes bytes =
    (normalizeFrom 0 raws).map fun listings => ⟨listings, some (Digest.sha256 bytes)⟩ := by
  rw [ofBytes, h]

theorem normalized_of_ofBytes {s : Snapshot} (hs : ofBytes bytes = .ok s) :
    Normalized raws s.listings := by
  rw [ofBytes_eq h] at hs
  cases hfrom : normalizeFrom 0 raws with
  | error e =>
    rw [hfrom] at hs
    cases hs
  | ok listings =>
    rw [hfrom] at hs
    obtain rfl := Except.ok.inj hs
    exact (normalizeFrom_eq_ok_iff 0 raws listings).mp hfrom

/-- A list of raw listings is a snapshot if all of them can be used, and is refused at the first one
that cannot. The listings of a snapshot are then in the groups of their own regions, whatever is
requested. -/
theorem ofBytes_parted :
    ((∃ s, ofBytes bytes = .ok s) ↔ ∀ raw ∈ raws, raw.Usable) ∧
      (∀ before raw after, raws = before ++ raw :: after → (∀ l ∈ before, l.Usable) →
        ¬ raw.Usable → ∃ cause, raw.normalized = .error cause ∧
          ofBytes bytes = .error (.invalid before.length cause)) ∧
      ∀ s, ofBytes bytes = .ok s → Normalized raws s.listings ∧
        ∀ requested, Parted raws s.listings requested (groups s.listings requested) := by
  refine ⟨⟨?_, ?_⟩, ?_, ?_⟩
  · rintro ⟨s, hs⟩
    exact (normalized_of_ofBytes h hs).usable
  · intro husable
    obtain ⟨listings, hlistings⟩ := exists_normalized husable
    rw [ofBytes_eq h, (normalizeFrom_eq_ok_iff 0 raws listings).mpr hlistings]
    exact ⟨_, rfl⟩
  · intro before raw after hraws hbefore hraw
    obtain ⟨cause, hcause⟩ := Listing.exists_invalid hraw
    refine ⟨cause, hcause, ?_⟩
    rw [ofBytes_eq h, hraws, normalizeFrom_of_first hbefore hcause, Nat.zero_add]
    rfl
  · intro s hs
    have hnormalized := normalized_of_ofBytes h hs
    exact ⟨hnormalized, hnormalized.parted⟩

end

/-- Two spellings of one region, one of which grows in upper case. -/
theorem ofBytes_parted_of_sharp_s :
    ∃ s, ofBytes (Text.utf8
        "[\x7b\"sourceId\":\"1\",\"uf\":\" ß\"\x7d,\x7b\"sourceId\":\"2\",\"uf\":\"ss\"\x7d]") = .ok s ∧
      ("RJ", []) ∈ groups s.listings ["Ss", "rj "] ∧
      ∀ l ∈ s.listings, ∃ ls, ("SS", ls) ∈ groups s.listings ["Ss", "rj "] ∧ l ∈ ls := by
  have hread : Listing.listOfJson (Text.utf8
      "[\x7b\"sourceId\":\"1\",\"uf\":\" ß\"\x7d,\x7b\"sourceId\":\"2\",\"uf\":\"ss\"\x7d]") =
        .ok [{ sourceId := "1", uf := " ß" }, { sourceId := "2", uf := "ss" }] := by
    decide +kernel
  have hkey : ∀ raw ∈ ([{ sourceId := "1", uf := " ß" }, { sourceId := "2", uf := "ss" }] :
      List Listing), raw.Usable ∧ PartitionKey.ofText raw.uf = "SS" := by
    intro raw hm
    rcases List.mem_pair.mp hm with rfl | rfl
    · exact ⟨⟨rfl, rfl⟩, rfl⟩
    · exact ⟨⟨rfl, rfl⟩, rfl⟩
  obtain ⟨hok, -, hparted⟩ := ofBytes_parted hread
  obtain ⟨s, hs⟩ := hok.mpr fun raw hm => (hkey raw hm).1
  obtain ⟨hnormalized, hgroups⟩ := hparted s hs
  refine ⟨s, hs, ?_, fun l hl => ?_⟩
  · refine (hgroups ["Ss", "rj "]).absent "rj " (by simp) rfl fun raw hm => ?_
    rw [(hkey raw hm).2]
    decide
  · obtain ⟨raw, hm, hraw⟩ := (hnormalized.mem_iff l).mp hl
    refine ((hgroups ["Ss", "rj "]).placed raw hm l hraw "SS").mpr ⟨(hkey raw hm).2, .inr ?_⟩
    exact ⟨"Ss", by simp, rfl⟩

end Snapshot
end OfferLedger
