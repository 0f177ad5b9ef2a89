import OfferLedger.Proofs.Reconcile.Runs

/-! # The calls of a reconciliation

A reconciliation asks once and then writes. Once it knows what is stored, no later reply changes which
calls it makes or in which order, so a run that is stopped has made the first of them. -/
namespace OfferLedger
namespace Program

variable {α β σ : Type}

/-- Whatever is replied, the program makes these calls, in this order. -/
def Straight : Program α → List Call → Prop
  | done _, calls => calls = []
  | report _ next, calls => next.Straight calls
  | call c next, calls => ∃ rest, calls = c :: rest ∧ ∀ reply, (next reply).Straight rest

theorem Straight.bind {p : Program α} {f : α → Program β} {a b : List Call} (hp : p.Straight a)
    (hf : ∀ x, (f x).Straight b) : (p >>= f).Straight (a ++ b) := by
  induction p generalizing a with
  | done x =>
    cases hp
    exact hf x
  | report _ next ih => exact ih hp
  | call c next ih =>
    obtain ⟨rest, rfl, hnext⟩ := hp
    exact ⟨rest ++ b, rfl, fun reply => ih reply (hnext reply)⟩

theorem straight_perform (c : Call) : (perform c).Straight [c] := ⟨[], rfl, fun _ => rfl⟩

theorem straight_unless {c : Call} {b : Bool} {rest : c.Reply → Program α} {calls : List Call}
    (reply : c.Reply) (hrest : ∀ reply, (rest reply).Straight calls) :
    (if b then rest reply else perform c >>= rest).Straight
      ((if b then [] else [c]) ++ calls) := by
  cases b with
  | true => exact hrest reply
  | false => exact (straight_perform c).bind hrest

theorem Straight.calls {P : Call → Prop} {p : Program α} {calls : List Call}
    (hp : p.Straight calls) (hP : ∀ c ∈ calls, P c) : p.Calls P := by
  induction p generalizing calls with
  | done => trivial
  | report _ next ih => exact ih hp hP
  | call c next ih =>
    obtain ⟨rest, rfl, hnext⟩ := hp
    refine ⟨hP c (List.mem_cons_self ..), fun reply => ih reply (hnext reply) fun c' hc' => ?_⟩
    exact hP c' (List.mem_cons_of_mem _ hc')

end Program

namespace Call

def entries : Call → List Entry
  | append entries _ => entries
  | _ => []

def IsRemoval : Call → Prop
  | removeMissing .. => True
  | _ => False

end Call

namespace Plan

variable {known : SourceId → Option Known} {listings : List Listing} {e : Entry}

theorem of_mem_inserts (he : e ∈ (classify known listings).inserts) :
    known e.listing.sourceId = none ∧ e = ⟨e.listing, 1, .insert⟩ := by
  obtain ⟨l, -, h⟩ := List.mem_filterMap.mp he
  unfold insertOf? at h
  split at h
  · rename_i hnone
    cases h
    exact ⟨hnone, rfl⟩
  · cases h

theorem of_mem_updates (he : e ∈ (classify known listings).updates) :
    ∃ k, known e.listing.sourceId = some k ∧ e = ⟨e.listing, k.latestVersion + 1, .update⟩ := by
  obtain ⟨l, -, h⟩ := List.mem_filterMap.mp he
  unfold updateOf? at h
  split at h
  · cases h
  · rename_i k hk
    split at h
    · cases h
      exact ⟨k, hk, rfl⟩
    · cases h

/-- A call for each part of a plan that is not empty. -/
def writes (plan : Plan) (batch : BatchId) : List Call :=
  (if plan.inserts.isEmpty then [] else [.append plan.inserts batch]) ++
    ((if plan.updates.isEmpty then [] else [.append plan.updates batch]) ++
      if plan.touches.isEmpty then [] else [.touch plan.touches batch])

theorem mem_writes {plan : Plan} {batch : BatchId} {c : Call} (hc : c ∈ plan.writes batch) :
    c = .append plan.inserts batch ∨ c = .append plan.updates batch ∨
      c = .touch plan.touches batch := by
  unfold writes at hc
  rcases List.mem_append.mp hc with hc | hc
  · split at hc
    · cases hc
    · exact .inl (List.mem_singleton.mp hc)
  · rcases List.mem_append.mp hc with hc | hc
    · split at hc
      · cases hc
      · exact .inr (.inl (List.mem_singleton.mp hc))
    · split at hc
      · cases hc
      · exact .inr (.inr (List.mem_singleton.mp hc))

theorem entries_writes (plan : Plan) (batch : BatchId) :
    (plan.writes batch).flatMap Call.entries = plan.inserts ++ plan.updates := by
  have happend : ∀ entries : List Entry,
      (if entries.isEmpty then [] else [Call.append entries batch]).flatMap Call.entries =
        entries := by
    intro entries
    cases entries <;> simp [Call.entries]
  have htouch : ∀ ids : List SourceId,
      (if ids.isEmpty then [] else [Call.touch ids batch]).flatMap Call.entries = [] := by
    intro ids
    cases ids <;> simp [Call.entries]
  rw [writes, List.flatMap_append, List.flatMap_append, happend, happend, htouch, List.append_nil]

end Plan

/-- The calls of a reconciliation that was told what is known: its writes and then the removals. -/
def callsAfter (partition : PartitionKey) (listings : List Listing) (batch : BatchId)
    (known : Keyed SourceId Known) : List Call :=
  (Plan.classify (Keyed.get? known) (lastWins listings)).writes batch ++
    [.removeMissing partition ((lastWins listings).map (·.sourceId)) batch]

theorem mem_callsAfter {partition : PartitionKey} {listings : List Listing} {batch : BatchId}
    {known : Keyed SourceId Known} {c : Call} (hc : c ∈ callsAfter partition listings batch known) :
    c = .append (Plan.classify (Keyed.get? known) (lastWins listings)).inserts batch ∨
      c = .append (Plan.classify (Keyed.get? known) (lastWins listings)).updates batch ∨
      c = .touch (Plan.classify (Keyed.get? known) (lastWins listings)).touches batch ∨
      c = .removeMissing partition ((lastWins listings).map (·.sourceId)) batch := by
  rcases List.mem_append.mp hc with hc | hc
  · rcases Plan.mem_writes hc with hc | hc | hc
    · exact .inl hc
    · exact .inr (.inl hc)
    · exact .inr (.inr (.inl hc))
  · exact .inr (.inr (.inr (List.mem_singleton.mp hc)))

theorem reconcile_eq_call (partition : PartitionKey) (listings : List Listing) (batch : BatchId) :
    ∃ next, reconcile partition listings batch =
        .report (.classifying (lastWins listings).length) (.call (.find (lastWins listings)) next) ∧
      ∀ known, (next known).Straight (callsAfter partition listings batch known) := by
  refine ⟨_, rfl, fun known => ?_⟩
  rw [callsAfter, Plan.writes, List.append_assoc, List.append_assoc]
  change Program.Straight (Program.tell _ >>= fun _ => Program.tell _ >>= fun _ => _) ([] ++ ([] ++ _))
  refine Program.Straight.bind rfl fun _ => Program.Straight.bind rfl fun _ => ?_
  refine Program.straight_unless () fun _ => ?_
  refine Program.Straight.bind (a := []) rfl fun _ => ?_
  refine Program.straight_unless () fun _ => ?_
  refine Program.Straight.bind (a := []) rfl fun _ => Program.straight_unless () fun _ => ?_
  refine Program.Straight.bind (a := []) rfl fun _ => ?_
  exact Program.Straight.bind (b := []) (Program.straight_perform _) fun _ => rfl

theorem calls_of_callsAfter {P : Call → Prop} {partition : PartitionKey} {listings : List Listing}
    {batch : BatchId} (hfind : P (.find (lastWins listings)))
    (hafter : ∀ known, ∀ c ∈ callsAfter partition listings batch known, P c) :
    (reconcile partition listings batch).Calls P := by
  obtain ⟨next, heq, hnext⟩ := reconcile_eq_call partition listings batch
  rw [heq]
  exact ⟨hfind, fun known => (hnext known).calls (hafter known)⟩

theorem live_of_mem_callsAfter {partition : PartitionKey} {listings : List Listing}
    {batch : BatchId} {known : Keyed SourceId Known} {c : Call}
    (hc : c ∈ callsAfter partition listings batch known) : c.Live := by
  rcases mem_callsAfter hc with rfl | rfl | rfl | rfl
  · intro e he
    rw [(Plan.of_mem_inserts he).2]
    exact Operation.noConfusion
  · intro e he
    obtain ⟨k, -, he⟩ := Plan.of_mem_updates he
    rw [he]
    exact Operation.noConfusion
  · trivial
  · trivial

theorem calls_reconcile (partition : PartitionKey) (listings : List Listing) (batch : BatchId) :
    (reconcile partition listings batch).Calls Call.Live :=
  calls_of_callsAfter trivial fun _ _ hc => live_of_mem_callsAfter hc

/-- How a call can be answered in a state: with a reply or an error, and the state that is left. -/
abbrev Answers (σ : Type) := (c : Call) → σ → Except RepositoryError c.Reply → σ → Prop

section

variable {σ α : Type} (answers : Answers σ)

/-- How a program can end: with its result, or with the error that stopped it. -/
inductive Program.Ends : Program α → σ → Except RepositoryError α → σ → Prop where
  | done (a : α) (s : σ) : Ends (.done a) s (.ok a) s
  | report {p : Progress} {next : Program α} {s s' : σ} {r : Except RepositoryError α} :
      Ends next s r s' → Ends (.report p next) s r s'
  | call {c : Call} {next : c.Reply → Program α} {s s₁ s' : σ} {reply : c.Reply}
      {r : Except RepositoryError α} :
      answers c s (.ok reply) s₁ → Ends (next reply) s₁ r s' → Ends (.call c next) s r s'
  | stop {c : Call} {next : c.Reply → Program α} {s s' : σ} {e : RepositoryError} :
      answers c s (.error e) s' → Ends (.call c next) s (.error e) s'

/-- Some calls in their order, of which the last one may have failed. -/
inductive Made : List Call → σ → σ → Prop where
  | all (s : σ) : Made [] s s
  | next {c : Call} {rest : List Call} {s s₁ s' : σ} {reply : c.Reply} :
      answers c s (.ok reply) s₁ → Made rest s₁ s' → Made (c :: rest) s s'
  | stop {c : Call} {rest : List Call} {s s' : σ} {e : RepositoryError} :
      answers c s (.error e) s' → Made (c :: rest) s s'

end

variable {σ α : Type} {answers : Answers σ}

theorem Program.ends_run {repo : Repository σ}
    (h : ∀ c s, answers c s (repo c s).1 (repo c s).2) (p : Program α) (s : σ) :
    p.Ends answers s (p.run repo s).result (p.run repo s).state := by
  induction p generalizing s with
  | done a => exact .done a s
  | report _ next ih => exact .report (ih s)
  | call c next ih =>
    have hc := h c s
    rw [run]
    split
    · rename_i reply s₁ hr
      rw [hr] at hc
      exact .call hc (ih reply s₁)
    · rename_i e s₁ hr
      rw [hr] at hc
      exact .stop hc

/-- What every call keeps true is true in the end, however the calls were answered. -/
theorem Program.Ends.keeps {P : Call → Prop} {I : σ → Prop}
    (hcall : ∀ c s (r : Except RepositoryError c.Reply) s', P c → I s → answers c s r s' → I s')
    {p : Program α} (hp : p.Calls P) {s s' : σ} {r : Except RepositoryError α}
    (h : p.Ends answers s r s') (hs : I s) : I s' := by
  induction h with
  | done => exact hs
  | report _ ih => exact ih hp hs
  | call hans _ ih => exact ih (hp.2 _) (hcall _ _ _ _ hp.1 hs hans)
  | stop hans => exact hcall _ _ _ _ hp.1 hs hans

theorem Made.keeps {P : Call → Prop} {I : σ → Prop}
    (hcall : ∀ c s (r : Except RepositoryError c.Reply) s', P c → I s → answers c s r s' → I s')
    {calls : List Call} {s s' : σ} (h : Made answers calls s s') (hc : ∀ c ∈ calls, P c)
    (hs : I s) : I s' := by
  induction h with
  | all => exact hs
  | next hans _ ih =>
    have hs₁ := hcall _ _ _ _ (hc _ (List.mem_cons_self ..)) hs hans
    exact ih (fun c hm => hc c (List.mem_cons_of_mem _ hm)) hs₁
  | stop hans => exact hcall _ _ _ _ (hc _ (List.mem_cons_self ..)) hs hans

theorem Program.Straight.made {p : Program α} {calls : List Call} (hp : p.Straight calls) {s s' : σ}
    {r : Except RepositoryError α} (h : p.Ends answers s r s') : Made answers calls s s' := by
  induction h generalizing calls with
  | done a s =>
    cases hp
    exact .all s
  | report _ ih => exact ih hp
  | call hans _ ih =>
    obtain ⟨rest, rfl, hnext⟩ := hp
    exact .next hans (ih (hnext _))
  | stop hans =>
    obtain ⟨rest, rfl, -⟩ := hp
    exact .stop hans

theorem made_of_reconcile {partition : PartitionKey} {listings : List Listing} {batch : BatchId}
    {s s' : σ} {r : Except RepositoryError Counts}
    (h : (reconcile partition listings batch).Ends answers s r s') :
    (∃ e, answers (.find (lastWins listings)) s (.error e) s') ∨
    ∃ known s₁, answers (.find (lastWins listings)) s (.ok known) s₁ ∧
      Made answers (callsAfter partition listings batch known) s₁ s' := by
  obtain ⟨next, heq, hnext⟩ := reconcile_eq_call partition listings batch
  rw [heq] at h
  cases h with
  | report h =>
    cases h with
    | call hans hrest => exact .inr ⟨_, _, hans, (hnext _).made hrest⟩
    | stop hans => exact .inl ⟨_, hans⟩

end OfferLedger
