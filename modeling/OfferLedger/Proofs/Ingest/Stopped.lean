import OfferLedger.Proofs.Ingest.Audit

/-! # Snapshots that were stopped

The groups of a snapshot are attempted in the order of their keys. The first one that fails is the last one
that is attempted: the groups before it have succeeded, its own batch says why it failed, and in the
regions after it nothing has happened. -/
namespace OfferLedger.Ledger

section

variable {l l' : Ledger} {group : Group} {outcome : BatchOutcome} {b : Batch}

theorem Attempted.untouched_or (ha : Attempted group outcome l l' b) (hs : l.Sound)
    (huf : ∀ w ∈ group.2, w.uf = group.1) (id : SourceId) :
    Untouched l l' id ∨ ∃ h, l'.head? id = some h ∧ h.uf = group.1 := by
  obtain ⟨marked, hframed, hmarked⟩ := ha.framed
  rcases ha.partway id with hsame | ⟨e, hdue, hmade⟩
  · by_cases hid : id ∈ marked
    · -- The offer was only seen again. It shows what the group lists.
      obtain ⟨w, hw, hshows⟩ := hmarked id hid
      have hsource := sourceId_of_lastFor hw
      subst hsource
      have hlisting := ((hs.consistent.shows_congr ha.sound.consistent hsame.symm).mp hshows).2
      obtain ⟨r, hr, rfl⟩ := Option.map_eq_some_iff.mp hlisting
      obtain ⟨h, hh, hregion⟩ := ha.sound.exists_head_of_latest? hr
      exact .inr ⟨h, hh, hregion.trans (huf _ (mem_of_lastFor hw))⟩
    · have hhistory := history_eq_of_histories hframed.revisions hsame
      exact .inl ⟨hhistory, hframed.head? id hid hhistory⟩
  · have hlatest : l'.view.latest? id = some (e.revision b.id) := by
      rw [View.latest?, hmade, List.getLast?_concat]
    obtain ⟨h, hh, hregion⟩ := ha.sound.exists_head_of_latest? hlatest
    exact .inr ⟨h, hh, hregion.trans (View.uf_due? huf hdue)⟩

theorem Attempted.untouched (ha : Attempted group outcome l l' b) (hs : l.Sound) {id : SourceId}
    (hid : id ∉ group.2.map (·.sourceId)) (hactive : ¬ l.ActiveIn [group.1] id) :
    Untouched l l' id := by
  obtain ⟨marked, hframed, hmarked⟩ := ha.framed
  have hgone : id ∉ l.view.gone group.1 group.2 := by
    intro h
    exact hactive ((hs.mem_gone_iff group.1 group.2 id).mp h).2
  have hunmarked : id ∉ marked := by
    intro h
    obtain ⟨w, hw, -⟩ := hmarked id h
    exact hid ((lastFor_isSome_iff _ _).mp (Option.isSome_of_eq_some hw))
  rcases ha.partway id with hsame | ⟨e, hdue, -⟩
  · have hhistory := history_eq_of_histories hframed.revisions hsame
    exact ⟨hhistory, hframed.head? id hunmarked hhistory⟩
  · rw [View.due?_of_unlisted hid, Option.map_eq_some_iff] at hdue
    obtain ⟨r, hr, -⟩ := hdue
    rw [← View.isSome_missing?_lastWins, hr] at hgone
    exact absurd rfl hgone

end

section

variable {l l' : Ledger} {groups snapshot attempted : List Group} {digest : Option String}
  {r : Except IngestError (List PartitionReport)}

theorem Audited.attempts_induction {P : List Group → Ledger → Ledger → Prop}
    (hnone : ∀ l, P [] l l)
    (hfirst : ∀ group rest l l₁ l' outcome b, l.Sound → Attempted group outcome l l₁ b →
      P rest l₁ l' → P (group :: rest) l l')
    (h : Audited groups l) (ha : Attempts digest snapshot attempted l r l') : P attempted l l' := by
  induction ha generalizing groups with
  | done l => exact hnone l
  | next hattempt _ ih =>
    obtain ⟨b, ⟨counts, -, hb, -⟩ | ⟨cause, -, hb⟩⟩ := hattempt.cases h.sound h.ids
    · exact hfirst _ _ _ _ _ _ b h.sound hb (ih (h.attempt hattempt))
    · exact hfirst _ _ _ _ _ _ b h.sound hb (ih (h.attempt hattempt))
  | stop hattempt =>
    obtain ⟨b, ⟨counts, hr, -⟩ | ⟨cause, -, hb⟩⟩ := hattempt.cases h.sound h.ids
    · cases hr
    · exact hfirst _ _ _ _ _ _ b h.sound hb (hnone _)

theorem Audited.untouched_or (h : Audited groups l)
    (ha : Attempts digest snapshot attempted l r l')
    (huf : ∀ g ∈ attempted, ∀ w ∈ g.2, w.uf = g.1) (id : SourceId) :
    Untouched l l' id ∨ ∃ h, l'.head? id = some h ∧ h.uf ∈ attempted.map (·.1) := by
  refine h.attempts_induction (P := fun attempted l l' =>
    (∀ g ∈ attempted, ∀ w ∈ g.2, w.uf = g.1) →
      Untouched l l' id ∨ ∃ h, l'.head? id = some h ∧ h.uf ∈ attempted.map (·.1)) ?_ ?_ ha huf
  · exact fun l _ => .inl ⟨rfl, rfl⟩
  · intro group rest l l₁ l' outcome b hs hb ih huf
    rcases ih fun g hg => huf g (List.mem_cons_of_mem _ hg) with hrest | ⟨head, hh, hregion⟩
    · rcases hb.untouched_or hs (huf group (List.mem_cons_self ..)) id with
        hfirst | ⟨head, hh, hregion⟩
      · exact .inl (hfirst.trans hrest)
      · exact .inr ⟨head, hrest.2.trans hh, hregion ▸ List.mem_cons_self ..⟩
    · exact .inr ⟨head, hh, List.mem_cons_of_mem _ hregion⟩

theorem Audited.untouched (h : Audited groups l) (ha : Attempts digest snapshot attempted l r l')
    {id : SourceId} (hid : ¬ Listed attempted id)
    (hactive : ¬ l.ActiveIn (attempted.map (·.1)) id) : Untouched l l' id := by
  refine h.attempts_induction (P := fun attempted l l' => ¬ Listed attempted id →
    ¬ l.ActiveIn (attempted.map (·.1)) id → Untouched l l' id) ?_ ?_ ha hid hactive
  · exact fun l _ _ => ⟨rfl, rfl⟩
  · intro group rest l l₁ l' outcome b hs hb ih hid hactive
    obtain ⟨hfirst, hlater⟩ := not_listed_cons hid
    obtain ⟨hhere, hthere⟩ := not_or.mp (mt ActiveIn.cons_iff.mpr hactive)
    have hbefore := hb.untouched hs hfirst hhere
    exact hbefore.trans (ih hlater (mt (hbefore.activeIn_iff _).mp hthere))

/-- The batches that a run opens until a group fails: those of the groups before it have succeeded, and the
last one is closed with the error. -/
structure Failed (done : List Group) (group : Group) (cause : RepositoryError) (opened : List Batch)
    (last : Batch) (l l' : Ledger) : Prop where
  batches : l'.batches = l.batches ++ (opened ++ [last])
  keys : (opened ++ [last]).map (·.partition) = (done ++ [group]).map (·.1)
  succeeded : ∀ b ∈ opened, b.counts?.isSome
  closing : ∃ finishedAt, last.closing = some ⟨finishedAt, group.2.length, .failed cause.message⟩

theorem Failed.cons {done : List Group} {first group : Group} {cause : RepositoryError}
    {opened : List Batch} {b last : Batch} {l₁ : Ledger} {counts : Counts}
    (hb : Attempted first (.succeeded counts) l l₁ b)
    (h : Failed done group cause opened last l₁ l') :
    Failed (first :: done) group cause (b :: opened) last l l' := by
  constructor
  · rw [h.batches, hb.batches]
    simp
  · rw [List.cons_append, List.map_cons, h.keys, hb.partition]
    rfl
  · intro b' hb'
    rcases List.mem_cons.mp hb' with rfl | hb'
    · rw [hb.counts?_eq]
      rfl
    · exact h.succeeded b' hb'
  · exact h.closing

theorem Audited.failed {e : IngestError} (h : Audited groups l)
    (ha : Attempts digest snapshot attempted l (.error e) l') :
    ∃ done group later opened last cause, snapshot = done ++ group :: later ∧
      attempted = done ++ [group] ∧ e = .repository group.1 last.id cause ∧
      Failed done group cause opened last l l' := by
  generalize hr : Except.error e = r at ha
  induction ha generalizing groups with
  | done => cases hr
  | @next first rest attempted l l₁ l' report r hattempt _ ih =>
    obtain ⟨b, ⟨counts, -, hb, -⟩ | ⟨cause, hreport, -⟩⟩ := hattempt.cases h.sound h.ids
    · cases r with
      | ok reports => cases hr
      | error e' =>
        cases hr
        obtain ⟨done, group, later, opened, last, cause, rfl, rfl, he, hfailed⟩ :=
          ih (h.attempt hattempt) rfl
        exact ⟨first :: done, group, later, b :: opened, last, cause, rfl, rfl, he,
          hfailed.cons hb⟩
    · cases hreport
  | @stop group rest l l' e' hattempt =>
    cases hr
    obtain ⟨b, ⟨counts, hreport, -⟩ | ⟨cause, hreport, hb⟩⟩ := hattempt.cases h.sound h.ids
    · cases hreport
    · cases hreport
      refine ⟨[], group, rest, [], b, cause, rfl, rfl, rfl, hb.batches, ?_, ?_, hb.closing⟩
      · exact congrArg (fun k => [k]) hb.partition
      · exact fun _ hm => absurd hm List.not_mem_nil

end

theorem Attempts.eq_of_ok {digest : Option String} {snapshot attempted : List Group} {l l' : Ledger}
    {reports : List PartitionReport} (h : Attempts digest snapshot attempted l (.ok reports) l') :
    attempted = snapshot := by
  generalize hr : Except.ok reports = r at h
  induction h generalizing reports with
  | done => rfl
  | @next group rest attempted l l₁ l' report r _ _ ih =>
    cases r with
    | ok reports' => rw [ih rfl]
    | error e => cases hr
  | stop => cases hr

theorem FromSnapshots.ingested {groups : List Group} {l : Ledger} {c : Conditions}
    (h : FromSnapshots groups l) (hc : c.faults = []) (snapshot : Snapshot)
    (requested : List String) :
    FromSnapshots (groups ++ OfferLedger.groups snapshot.listings requested)
      (Ledger.ingest c l snapshot requested).ledger := by
  obtain ⟨reports, hresult⟩ : ∃ reports, (Ledger.ingest c l snapshot requested).result = .ok reports :=
    h.audited.sound.ingestGroups_succeeds hc _ _
  have hclose : Fault.batchClose ∉ c.faults := by simp [hc]
  obtain ⟨attempted, ha⟩ :=
    attempts_ingest hclose fun cause hcause => nomatch hresult.symm.trans hcause
  have hfrom := h.ingest ha
  rw [hresult] at ha
  rwa [ha.eq_of_ok] at hfrom

/-- What a run leaves that was stopped at a group: its batches stand in ascending order of their regions,
none of them is for a region after the group, and no offer of such a region has changed. -/
structure Stopped (done : List Group) (group : Group) (later : List Group) (cause : RepositoryError)
    (opened : List Batch) (last : Batch) (l l' : Ledger) : Prop
    extends Failed done group cause opened last l l' where
  ascending : ((opened ++ [last]).map (·.partition)).Pairwise (· < ·)
  unopened : ∀ g ∈ later, ∀ b ∈ opened ++ [last], b.partition ≠ g.1
  unchanged : ∀ g ∈ later, ∀ id h, l'.head? id = some h → h.uf = g.1 → Untouched l l' id
  others : ∀ id, ¬ Listed (done ++ [group]) id →
    ¬ l.ActiveIn ((done ++ [group]).map (·.1)) id → Untouched l l' id

theorem Audited.stopped {groups done later : List Group} {group : Group} {digest : Option String}
    {l l' : Ledger} {opened : List Batch} {last : Batch} {cause : RepositoryError} {e : IngestError}
    (h : Audited groups l) (hk : (done ++ group :: later).Pairwise fun g g' => g.1 < g'.1)
    (huf : ∀ g ∈ done ++ group :: later, ∀ w ∈ g.2, w.uf = g.1)
    (ha : Attempts digest (done ++ group :: later) (done ++ [group]) l (.error e) l')
    (hf : Failed done group cause opened last l l') :
    Stopped done group later cause opened last l l' := by
  rw [List.append_cons] at hk huf
  obtain ⟨hattempted, -, hbefore⟩ := List.pairwise_append.mp hk
  have hkeys : ∀ g ∈ later, ∀ k ∈ (done ++ [group]).map (·.1), k ≠ g.1 := by
    intro g hg k hkey heq
    obtain ⟨g', hg', rfl⟩ := List.mem_map.mp hkey
    exact String.lt_irrefl _ (heq ▸ hbefore g' hg' g hg)
  refine ⟨hf, ?_, ?_, ?_, fun id hid hactive => h.untouched ha hid hactive⟩
  · rw [hf.keys]
    exact List.pairwise_map.mpr hattempted
  · intro g hg b hb
    exact hkeys g hg _ (hf.keys ▸ List.mem_map_of_mem hb)
  · intro g hg id head hhead hregion
    have huf' : ∀ g' ∈ done ++ [group], ∀ w ∈ g'.2, w.uf = g'.1 :=
      fun g' hg' => huf g' (List.mem_append_left _ hg')
    rcases h.untouched_or ha huf' id with hsame | ⟨head', hhead', hkey⟩
    · exact hsame
    · cases hhead.symm.trans hhead'
      exact absurd hregion (hkeys g hg _ hkey)

theorem Audited.stopped_of_attempts {groups attempted : List Group} {l l' : Ledger}
    {snapshot : Snapshot} {requested : List String} {e : IngestError} (h : Audited groups l)
    (ha : Attempts snapshot.digest (OfferLedger.groups snapshot.listings requested) attempted l
      (.error e) l') :
    ∃ done group later opened last cause,
      OfferLedger.groups snapshot.listings requested = done ++ group :: later ∧
      attempted = done ++ [group] ∧ e = .repository group.1 last.id cause ∧
      Stopped done group later cause opened last l l' := by
  obtain ⟨done, group, later, opened, last, cause, hgroups, rfl, rfl, hfailed⟩ := h.failed ha
  have hk := pairwise_groups snapshot.listings requested
  have huf : ∀ g ∈ OfferLedger.groups snapshot.listings requested, ∀ w ∈ g.2, w.uf = g.1 :=
    fun g hg w hw => uf_of_mem_groups hg hw
  rw [hgroups] at hk huf ha
  exact ⟨done, group, later, opened, last, cause, hgroups, rfl, rfl, h.stopped hk huf ha hfailed⟩

/-- In a ledger that was made by ingesting snapshots, each of which was taken to its end or to a call that
failed, the batches account for what was recorded. A snapshot that is stopped on it leaves the batches of
the groups that were attempted, and nothing of the others. Ingesting one more snapshot leads to such a
ledger again, unless a batch cannot be opened or closed. -/
theorem FromSnapshots.batches_account {groups : List Group} {l : Ledger}
    (h : FromSnapshots groups l) :
    List.Forall₂ (Accounts l) groups l.batches ∧
    (∀ {snapshot : Snapshot} {requested : List String} {attempted : List Group} {e : IngestError}
      {l' : Ledger}, Attempts snapshot.digest (OfferLedger.groups snapshot.listings requested)
        attempted l (.error e) l' →
      ∃ done group later opened last cause,
        OfferLedger.groups snapshot.listings requested = done ++ group :: later ∧
        attempted = done ++ [group] ∧ e = .repository group.1 last.id cause ∧
        Stopped done group later cause opened last l l') ∧
    ∀ {c : Conditions} {snapshot : Snapshot} {requested : List String} {run},
      Ledger.ingest c l snapshot requested = run → Fault.batchClose ∉ c.faults →
      (∀ cause, run.result ≠ .error (.database cause)) →
      ∃ attempted, FromSnapshots (groups ++ attempted) run.ledger ∧
        List.Forall₂ (Accounts run.ledger) (groups ++ attempted) run.ledger.batches ∧
        (∀ reports, run.result = .ok reports →
          attempted = OfferLedger.groups snapshot.listings requested) ∧
        ∀ e, run.result = .error e → ∃ done group later opened last cause,
          OfferLedger.groups snapshot.listings requested = done ++ group :: later ∧
          attempted = done ++ [group] ∧ e = .repository group.1 last.id cause ∧
          Stopped done group later cause opened last l run.ledger := by
  have haudited := h.audited
  refine ⟨haudited.accounts, haudited.stopped_of_attempts, ?_⟩
  rintro c snapshot requested run rfl hclose hresult
  obtain ⟨attempted, ha⟩ := attempts_ingest hclose hresult
  refine ⟨attempted, h.ingest ha, (h.ingest ha).audited.accounts, ?_, ?_⟩
  · intro reports hok
    rw [hok] at ha
    exact ha.eq_of_ok
  · intro e he
    rw [he] at ha
    exact haudited.stopped_of_attempts ha

/-- The second snapshot finds offer a missing and cannot delete it, so that offer d is not looked at. -/
theorem batches_account_of_failed_removal :
    let l := (ingest ⟨⟨5⟩, []⟩ empty { listings := [{ sourceId := "a", uf := "SP" }] } []).ledger
    let snapshot : Snapshot := { listings := [{ sourceId := "d", uf := "TO" },
      { sourceId := "b", uf := "RJ" }, { sourceId := "c", uf := "SP" }] }
    let l' := (ingest ⟨⟨9⟩, [.deletes]⟩ l snapshot []).ledger
    List.Forall₂ (Accounts l) [("SP", [{ sourceId := "a", uf := "SP" }])] l.batches ∧
    ∃ done group later opened last, groups snapshot.listings [] = done ++ group :: later ∧
      group.1 = "SP" ∧ last.id = 3 ∧
      List.Forall₂ (Accounts l')
        (("SP", [{ sourceId := "a", uf := "SP" }]) :: (done ++ [group])) l'.batches ∧
      Stopped done group later (.database (.unavailable .deletes)) opened last l l' := by
  intro l snapshot l'
  have hl : FromSnapshots (groups [{ sourceId := "a", uf := "SP" }] []) l :=
    FromSnapshots.empty.ingested (c := ⟨⟨5⟩, []⟩) rfl
      { listings := [{ sourceId := "a", uf := "SP" }] } []
  have hresult : (ingest ⟨⟨9⟩, [.deletes]⟩ l snapshot []).result =
      .error (.repository "SP" 3 (.database (.unavailable .deletes))) := by decide +kernel
  obtain ⟨haccounts, -, hingest⟩ := FromSnapshots.batches_account hl
  obtain ⟨attempted, -, haccounts', -, hstopped⟩ :=
    hingest rfl (by decide) fun cause h => nomatch hresult.symm.trans h
  obtain ⟨done, group, later, opened, last, cause, hgroups, rfl, he, h⟩ := hstopped _ hresult
  injection he with hkey hid hcause
  subst hcause
  exact ⟨haccounts, done, group, later, opened, last, hgroups, hkey.symm, hid.symm, haccounts', h⟩

end OfferLedger.Ledger
