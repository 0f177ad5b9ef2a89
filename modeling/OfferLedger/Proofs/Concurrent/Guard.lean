import OfferLedger.Proofs.Concurrent.Basic
import OfferLedger.Proofs.Ledger.Heads
import OfferLedger.Proofs.Reconcile.Planning

/-! # The version guard between runs

A run appends what it planned from the answer to its question. If another run has appended to one of
these offers since, the version is no longer the next one, and the call is refused as a whole. So
however the runs take turns, no revision is written over another one. -/
namespace OfferLedger

/-- What a run has planned for an offer that it was told about, and that nothing has happened to since:
the version after the one it was told, which is still the latest, or the first version of an offer that
was unknown and still has none. -/
def Follows (known : Keyed SourceId Known) (before : Ledger) (e : Entry) : Prop :=
  match Keyed.get? known e.listing.sourceId with
  | some k => e.version = k.latestVersion + 1 ∧
      (before.history e.listing.sourceId).getLast?.map (·.version) = some k.latestVersion
  | none => e.version = 1 ∧ before.history e.listing.sourceId = []

namespace Turn

variable {ι : Type}

/-- Each entry follows what its run was told, and is now one row more in the history of its offer. -/
def Commits (t : Turn ι) (known : Keyed SourceId Known) (entries : List Entry) (batch : BatchId) :
    Prop :=
  t.Succeeds ∧ ∀ e ∈ entries, Follows known t.before e ∧
    ∃ row, t.after.history e.listing.sourceId = t.before.history e.listing.sourceId ++ [row] ∧
      row.revision = e.revision batch

/-- The call reports a conflict at an entry that does not follow what its run was told, and the ledger is
as it was. -/
def Conflicts (t : Turn ι) (known : Keyed SourceId Known) (entries : List Entry) : Prop :=
  t.after = t.before ∧ ∃ e ∈ entries, ¬ Follows known t.before e ∧ t.reply = .error e.conflict

end Turn

theorem fits_of_follows {known : Keyed SourceId Known} {before : Ledger} (hs : before.Sound)
    {e : Entry} (h : Follows known before e) : before.histories.Fits e := by
  rw [Histories.Fits, Ledger.length_histories]
  unfold Follows at h
  split at h
  · obtain ⟨hnext, hlast⟩ := h
    obtain ⟨row, hrow, hversion⟩ := Option.map_eq_some_iff.mp hlast
    rw [hnext, ← hversion, hs.version_latest hrow]
  · obtain ⟨hone, hnil⟩ := h
    rw [hone, hnil]
    rfl

section

variable {v : View} {listings : List Listing} {known : Keyed SourceId Known}
  (hknown : ∀ id, Keyed.get? known id = (lastFor listings id).bind v.known?) (hv : v.Consistent)
include hknown hv

theorem latestVersion_pos {id : SourceId} {k : Known} (hk : Keyed.get? known id = some k) :
    1 ≤ k.latestVersion := by
  rw [hknown] at hk
  obtain ⟨l, -, hk⟩ := Option.bind_eq_some_iff.mp hk
  obtain ⟨r, hr, rfl⟩ := Option.map_eq_some_iff.mp hk
  have hpos := List.length_pos_of_mem (List.mem_of_getLast? hr)
  have hlen := hv.version_latest hr
  change 1 ≤ r.version
  omega

theorem wellFormed_of_mem_callsAfter {partition : PartitionKey} {entries : List Entry}
    {batch batch' : BatchId}
    (hc : .append entries batch ∈ callsAfter partition listings batch' known) :
    batch = batch' ∧ (Call.append entries batch).WellFormed ∧
      ∀ e ∈ entries, e ∈ (Plan.classify (Keyed.get? known) (lastWins listings)).inserts ∨
        e ∈ (Plan.classify (Keyed.get? known) (lastWins listings)).updates := by
  rcases mem_callsAfter hc with heq | heq | heq | heq
  · cases heq
    exact ⟨rfl, Plan.wellFormed_inserts hknown batch, fun e he => .inl he⟩
  · cases heq
    exact ⟨rfl, Plan.wellFormed_updates hknown hv batch, fun e he => .inr he⟩
  · cases heq
  · cases heq

theorem follows_of_fits {before : Ledger} (hs : before.Sound) {e : Entry}
    (he : e ∈ (Plan.classify (Keyed.get? known) (lastWins listings)).inserts ∨
      e ∈ (Plan.classify (Keyed.get? known) (lastWins listings)).updates)
    (hf : before.histories.Fits e) : Follows known before e := by
  have hversion : e.version = (before.histories e.listing.sourceId).length + 1 := hf
  rw [Ledger.length_histories] at hversion
  unfold Follows
  rcases he with he | he
  · obtain ⟨hnone, hentry⟩ := Plan.of_mem_inserts he
    have hone : e.version = 1 := congrArg Entry.version hentry
    rw [hnone]
    refine ⟨hone, List.length_eq_zero_iff.mp ?_⟩
    omega
  · obtain ⟨k, hk, hentry⟩ := Plan.of_mem_updates he
    have hnext : e.version = k.latestVersion + 1 := congrArg Entry.version hentry
    have hpos := latestVersion_pos hknown hv hk
    rw [hk]
    refine ⟨hnext, ?_⟩
    cases hlast : (before.history e.listing.sourceId).getLast? with
    | none =>
      rw [List.getLast?_eq_none_iff.mp hlast, List.length_nil] at hversion
      omega
    | some row =>
      have hlen := hs.version_latest hlast
      rw [Option.map_some, hlen]
      congr 1
      omega

end

theorem Ledger.Sound.known_of_find {l : Ledger} (hs : l.Sound) {listings : List Listing}
    {known : Keyed SourceId Known} (h : l.find (lastWins listings) = .ok known) (id : SourceId) :
    Keyed.get? known id = (lastFor listings id).bind l.view.known? := by
  obtain ⟨known', hfind, hget⟩ := hs.find_eq (lastWins listings)
  rw [h] at hfind
  cases hfind
  rw [hget, lastFor_lastWins]

theorem Turn.append_outcome {ι : Type} {t : Turn ι} {entries : List Entry} {batch : BatchId}
    (hs : t.before.Sound) (hb : t.before.hasBatch batch = true)
    (hcall : t.call = .append entries batch) (hw : (Call.append entries batch).WellFormed) :
    (t.Succeeds ∧ ∀ e ∈ entries, t.before.histories.Fits e ∧
      ∃ row, t.after.history e.listing.sourceId = t.before.history e.listing.sourceId ++ [row] ∧
        row.revision = e.revision batch) ∨
    ¬ t.Succeeds ∧ t.after = t.before ∧
      ∃ e ∈ entries, ¬ t.before.histories.Fits e ∧ t.reply = .error e.conflict := by
  obtain ⟨i, now, call, before⟩ := t
  subst hcall
  rcases (Ledger.store now).append_or_conflict hs hb hw with ⟨hfits, l', hok, hgrown⟩ | ⟨e, he, hnot, h⟩
  · have hafter : (Turn.mk i now (.append entries batch) before).after = l' := congrArg Prod.snd hok
    have hkept : Ledger.Kept before l' := hafter ▸ hs.call ⟨now, []⟩ hw.live
    refine .inl ⟨⟨(), congrArg Prod.fst hok⟩, fun e he => ⟨hfits e he, ?_⟩⟩
    have hlast := (congrFun hgrown e.listing.sourceId).trans (Histories.grown_of_mem hw.1 he)
    obtain ⟨rows, hrows, hadded⟩ := Ledger.rows_of_histories hkept.revisions hlast
    obtain ⟨row, rfl, hrow⟩ := List.map_eq_singleton_iff.mp hadded
    exact ⟨row, hafter ▸ hrows, hrow⟩
  · refine .inr ⟨?_, congrArg Prod.snd h, e, he, hnot, congrArg Prod.fst h⟩
    rintro ⟨reply, hreply⟩
    cases hreply.symm.trans (congrArg Prod.fst h)

namespace Concurrent

variable {ι : Type} [DecidableEq ι] {l : Ledger} {tasks : ι → Task} {w : Concurrent ι}

/-- Each append of a run either commits or conflicts, and no row was written over, lost or written
twice. -/
structure Guarded (l : Ledger) (tasks : ι → Task) (w : Concurrent ι) : Prop where
  append : ∀ (earlier later : List (Turn ι)) (t : Turn ι) entries batch,
    w.turns = earlier ++ t :: later → t.call = .append entries batch →
      ∃ now asked known, ⟨t.run, now, (tasks t.run).find, asked⟩ ∈ earlier ∧
        (Turn.mk t.run now (tasks t.run).find asked).reply = .ok known ∧
        (t.Commits known entries batch ∨
          t.Conflicts known entries ∧ ∀ t' ∈ later, t'.run ≠ t.run)
  beginning : l.revisions <+: w.ledger.revisions
  kept : ∀ t ∈ w.turns,
    t.before.revisions <+: t.after.revisions ∧ t.after.revisions <+: w.ledger.revisions
  oneRowPerVersion : (w.ledger.revisions.map fun row => (row.sourceId, row.version)).Nodup
  contiguous : ∀ id (i : Nat) row, (w.ledger.history id)[i]? = some row → row.version = i + 1

theorem Valid.append (h : Valid l tasks w) (hb : ∀ i, l.hasBatch (tasks i).batch = true)
    {earlier later : List (Turn ι)} {t : Turn ι} {entries : List Entry} {batch : BatchId}
    (hturns : w.turns = earlier ++ t :: later) (hcall : t.call = .append entries batch) :
    ∃ now asked known, ⟨t.run, now, (tasks t.run).find, asked⟩ ∈ earlier ∧
      (Turn.mk t.run now (tasks t.run).find asked).reply = .ok known ∧
      (t.Commits known entries batch ∨
        t.Conflicts known entries ∧ ∀ t' ∈ later, t'.run ≠ t.run) := by
  have hown : w.turns.filter (·.run = t.run) =
      earlier.filter (·.run = t.run) ++ t :: later.filter (·.run = t.run) := by
    simp [hturns]
  have hwrites : t.call ≠ (tasks t.run).find := by
    rw [hcall]
    exact Call.noConfusion
  obtain ⟨now, asked, known, hasked, hfind, hplanned, hend⟩ := (h.trace t.run).after_find hown hwrites
  have hearlier := (List.mem_filter.mp hasked).1
  have hsAsked : asked.Sound := by
    refine (h.before ⟨t.run, now, (tasks t.run).find, asked⟩ ?_).sound
    rw [hturns]
    exact List.mem_append_left _ hearlier
  have hknown := hsAsked.known_of_find hfind
  rw [hcall] at hplanned
  obtain ⟨rfl, hw, hplan⟩ := wellFormed_of_mem_callsAfter hknown hsAsked.consistent hplanned
  have hbefore : Ledger.Kept l t.before := by
    refine h.before t ?_
    rw [hturns]
    exact List.mem_append_right _ (List.mem_cons_self ..)
  have hbatch := (hbefore.hasBatch_eq _).trans (hb t.run)
  refine ⟨now, asked, known, hearlier, hfind, ?_⟩
  rcases Turn.append_outcome hbefore.sound hbatch hcall hw with
    ⟨hok, hrows⟩ | ⟨hfailed, hsame, e, he, hnot, hreply⟩
  · refine .inl ⟨hok, fun e he => ?_⟩
    obtain ⟨hfits, hrow⟩ := hrows e he
    exact ⟨follows_of_fits hknown hsAsked.consistent hbefore.sound (hplan e he) hfits, hrow⟩
  · refine .inr ⟨⟨hsame, e, he, fun h => hnot (fits_of_follows hbefore.sound h), hreply⟩, ?_⟩
    intro t' ht' hrun
    have hnone := hend.resolve_left hfailed
    exact List.filter_eq_nil_iff.mp hnone t' ht' (decide_eq_true hrun)

/-- Any number of reconciliations can share a ledger, in any order of their calls. -/
theorem guarded_after (hl : l.Reachable) (hb : ∀ i, l.hasBatch (tasks i).batch = true)
    (order : List (ι × Timestamp)) : Guarded l tasks ((start l tasks).after order) := by
  have h := (valid_start hl.sound tasks).after_turns order
  constructor
  · intro earlier later t entries batch hturns hcall
    exact h.append hb hturns hcall
  · exact h.kept.revisions
  · intro t ht
    obtain ⟨hk, hp⟩ := h.after t ht
    exact ⟨hk.revisions, hp⟩
  · exact h.kept.sound.nodup_keys
  · exact fun id i row hr => h.kept.sound.version hr

/-- Two runs insert the same offer, after both were told that it is unknown: the second one is stopped. -/
theorem guarded_after_two_insertions :
    let l : Ledger := ⟨[⟨1, "SP", none, ⟨0⟩, none⟩], [], []⟩
    let task : Task := ⟨"SP", [{ sourceId := "a", uf := "SP" }], 1⟩
    let w := (start l fun _ : Bool => task).after
      [(false, ⟨5⟩), (true, ⟨6⟩), (false, ⟨7⟩), (true, ⟨8⟩)]
    Guarded l (fun _ => task) w ∧ (w.runs true).isNone = true ∧ w.ledger.revisions.length = 1 := by
  intro l task w
  have hl : l.Reachable := .startBatch (c := ⟨⟨0⟩, []⟩) .empty rfl
  have hguarded : Guarded l (fun _ => task) w := guarded_after hl (fun _ => by decide) _
  exact ⟨hguarded, by decide +kernel, by decide +kernel⟩

end Concurrent
end OfferLedger
