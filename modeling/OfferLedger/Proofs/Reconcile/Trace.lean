import OfferLedger.Proofs.Reconcile.LastWins
import OfferLedger.Proofs.Reconcile.Runs
import Mathlib.Data.List.Forall2

/-! # What a reconciliation does, step by step

Seen from outside a run is a list of events: reports, and calls with their answers. A reconciliation
reports how much came in and asks what is known of it. The answer, whatever it is, fixes all further steps,
and they are done in turn up to the first call that fails. -/
namespace OfferLedger
namespace Program

inductive Event where
  | report (p : Progress)
  | call (c : Call) (answer : Except RepositoryError c.Reply)

inductive Step where
  | report (p : Progress)
  | call (c : Call)
  deriving DecidableEq, Repr

namespace Event

def progress? : Event → Option Progress
  | report p => some p
  | call .. => none

def call? : Event → Option Call
  | report _ => none
  | call c _ => some c

end Event

variable {α β σ : Type} {repo : Repository σ}

/-- The events of a run, in the order in which they happen. -/
def events (repo : Repository σ) : Program α → σ → List Event
  | done _, _ => []
  | report p next, s => .report p :: next.events repo s
  | call c next, s =>
    match repo c s with
    | (.ok reply, s) => .call c (.ok reply) :: (next reply).events repo s
    | (.error e, _) => [.call c (.error e)]

theorem progress_run (p : Program α) (s : σ) :
    (p.run repo s).progress = (p.events repo s).filterMap Event.progress? := by
  induction p generalizing s with
  | done a => rfl
  | report p next ih => exact congrArg (p :: ·) (ih s)
  | call c next ih =>
    rw [run, events]
    cases repo c s with
    | mk answer s₁ =>
      cases answer with
      | error e => rfl
      | ok reply => exact ih reply s₁

theorem recorded_run (p : Program α) (s : σ) (before : List Call) :
    (p.run repo.recorded (s, before)).state.2 =
      before ++ (p.events repo s).filterMap Event.call? := by
  induction p generalizing s before with
  | done a => exact (List.append_nil before).symm
  | report p next ih => exact ih s before
  | call c next ih =>
    rw [run, events, Repository.recorded]
    cases hc : repo c s with
    | mk answer s₁ =>
      cases answer with
      | error e => rfl
      | ok reply =>
        refine (ih reply s₁ (before ++ [c])).trans ?_
        rw [List.append_assoc]
        rfl

/-- Events that do some steps in turn, up to the first call that fails, if there is one. -/
inductive Follows : List Step → List Event → Option RepositoryError → Prop where
  | nil : Follows [] [] none
  | report {p : Progress} {steps : List Step} {events : List Event}
      {stop : Option RepositoryError} : Follows steps events stop →
      Follows (.report p :: steps) (.report p :: events) stop
  | call {c : Call} {reply : c.Reply} {steps : List Step} {events : List Event}
      {stop : Option RepositoryError} : Follows steps events stop →
      Follows (.call c :: steps) (.call c (.ok reply) :: events) stop
  | stop {c : Call} {e : RepositoryError} {steps : List Step} :
      Follows (.call c :: steps) [.call c (.error e)] (some e)

/-- How a run that follows some steps ends: with the error that stopped it, or with a result that
belongs to its last event. -/
def Ended (events : List Event) (result : Except RepositoryError α)
    (value : Event → α → Prop) : Option RepositoryError → Prop
  | some e => result = .error e
  | none => ∃ last a, events.getLast? = some last ∧ result = .ok a ∧ value last a

def Does (repo : Repository σ) (p : Program α) (s : σ) (steps : List Step)
    (value : Event → α → Prop) : Prop :=
  ∃ stop, Follows steps (p.events repo s) stop ∧
    Ended (p.events repo s) (p.run repo s).result value stop

theorem Ended.cons {events : List Event} {result : Except RepositoryError α}
    {value : Event → α → Prop} {stop : Option RepositoryError} (h : Ended events result value stop)
    (e : Event) : Ended (e :: events) result value stop := by
  cases stop with
  | some err => exact h
  | none =>
    obtain ⟨last, a, hlast, hresult⟩ := h
    refine ⟨last, a, ?_, hresult⟩
    rw [List.getLast?_cons, hlast]
    rfl

variable {s : σ} {steps : List Step} {value : Event → α → Prop}

theorem Does.report {next : Program α} (h : next.Does repo s steps value) (p : Progress) :
    (report p next).Does repo s (.report p :: steps) value := by
  obtain ⟨stop, hfollows, hended⟩ := h
  exact ⟨stop, hfollows.report, hended.cons _⟩

theorem does_call {c : Call} {next : c.Reply → Program α}
    (h : ∀ reply s', (next reply).Does repo s' steps value) :
    (call c next).Does repo s (.call c :: steps) value := by
  unfold Does
  rw [events, run]
  cases repo c s with
  | mk answer s₁ =>
    cases answer with
    | error e => exact ⟨some e, .stop, rfl⟩
    | ok reply =>
      obtain ⟨stop, hfollows, hended⟩ := h reply s₁
      exact ⟨stop, hfollows.call, hended.cons _⟩

theorem does_unless {c : Call} {b : Bool} {rest : c.Reply → Program α} (reply : c.Reply)
    (h : ∀ reply s', (rest reply).Does repo s' steps value) :
    (if b then rest reply else perform c >>= rest).Does repo s
      ((if b then [] else [.call c]) ++ steps) value := by
  cases b with
  | true => exact h reply s
  | false => exact does_call h

theorem does_last {c : Call} {f : c.Reply → α} :
    (call c fun reply => done (f reply)).Does repo s [.call c]
      fun last a => ∃ reply, last = .call c (.ok reply) ∧ a = f reply := by
  unfold Does
  rw [events, run]
  cases repo c s with
  | mk answer s₁ =>
    cases answer with
    | error e => exact ⟨some e, .stop, rfl⟩
    | ok reply =>
      exact ⟨none, Follows.nil.call, _, _, rfl, rfl, reply, rfl, rfl⟩

end Program

namespace Plan

/-- A plan for some listings, by what is known of their offers: the unknown ones are inserted, the
changed ones updated to the next version and the others touched, each in the order of the listings. -/
structure Sorts (known : SourceId → Option Known) (incoming : List Listing) (plan : Plan) : Prop where
  inserts : plan.inserts =
    (incoming.filter fun l => (known l.sourceId).isNone).map fun l => ⟨l, 1, .insert⟩
  updates : List.Forall₂
    (fun l e => ∃ k, known l.sourceId = some k ∧ e = ⟨l, k.latestVersion + 1, .update⟩)
    (incoming.filter fun l => (known l.sourceId).any (·.changed)) plan.updates
  touches : plan.touches =
    (incoming.filter fun l => (known l.sourceId).any (!·.changed)).map (·.sourceId)
  once : (plan.inserts.map (·.listing.sourceId) ++
    (plan.updates.map (·.listing.sourceId) ++ plan.touches)).Perm (incoming.map (·.sourceId))

section

variable {known : SourceId → Option Known} {l : Listing} {rest : List Listing}

theorem classify_of_unknown (hk : known l.sourceId = none) :
    classify known (l :: rest) =
      { classify known rest with inserts := ⟨l, 1, .insert⟩ :: (classify known rest).inserts } := by
  simp [classify, insertOf?, updateOf?, touchOf?, hk]

theorem classify_of_changed {k : Known} (hk : known l.sourceId = some k) (hc : k.changed = true) :
    classify known (l :: rest) =
      { classify known rest with
        updates := ⟨l, k.latestVersion + 1, .update⟩ :: (classify known rest).updates } := by
  simp [classify, insertOf?, updateOf?, touchOf?, hk, hc]

theorem classify_of_same {k : Known} (hk : known l.sourceId = some k) (hc : k.changed = false) :
    classify known (l :: rest) =
      { classify known rest with touches := l.sourceId :: (classify known rest).touches } := by
  simp [classify, insertOf?, updateOf?, touchOf?, hk, hc]

end

theorem sorts_classify (known : SourceId → Option Known) (incoming : List Listing) :
    (classify known incoming).Sorts known incoming := by
  induction incoming with
  | nil => exact ⟨rfl, .nil, rfl, .nil⟩
  | cons l rest ih =>
    obtain ⟨hi, hu, ht, honce⟩ := ih
    cases hk : known l.sourceId with
    | none =>
      rw [classify_of_unknown hk]
      constructor
      · simp [hk, hi]
      · simpa [hk] using hu
      · simpa [hk] using ht
      · exact honce.cons _
    | some k =>
      by_cases hc : k.changed = true
      · rw [classify_of_changed hk hc]
        constructor
        · simpa [hk] using hi
        · simpa [hk, hc] using hu
        · simpa [hk, hc] using ht
        · exact List.perm_middle.trans (honce.cons _)
      · rw [Bool.not_eq_true] at hc
        rw [classify_of_same hk hc]
        constructor
        · simpa [hk] using hi
        · simpa [hk, hc] using hu
        · simp [hk, hc, ht]
        · rw [← List.append_assoc] at honce ⊢
          exact List.perm_middle.trans (honce.cons _)

/-- All steps once it is known what is stored. A list with nothing in it is reported and not written. -/
def steps (plan : Plan) (partition : PartitionKey) (ids : List SourceId) (batch : BatchId) :
    List Program.Step :=
  [.report (.classified plan.inserts.length plan.updates.length plan.touches.length),
    .report (.inserting plan.inserts.length)] ++
  ((if plan.inserts.isEmpty then [] else [.call (.append plan.inserts batch)]) ++
  .report (.updating plan.updates.length) ::
  ((if plan.updates.isEmpty then [] else [.call (.append plan.updates batch)]) ++
  .report (.touching plan.touches.length) ::
  ((if plan.touches.isEmpty then [] else [.call (.touch plan.touches batch)]) ++
  [.report .removing, .call (.removeMissing partition ids batch)])))

end Plan

theorem exists_reconcile_steps {σ : Type} (repo : Repository σ) (partition : PartitionKey)
    (listings : List Listing) (batch : BatchId) :
    ∃ next : Keyed SourceId Known → Program Counts,
      reconcile partition listings batch =
        .report (.classifying (lastWins listings).length) (.call (.find (lastWins listings)) next) ∧
      ∀ known s,
        let plan := Plan.classify known.get? (lastWins listings)
        let ids := (lastWins listings).map (·.sourceId)
        (next known).Does repo s (plan.steps partition ids batch) fun last counts =>
          ∃ removed, last = .call (.removeMissing partition ids batch) (.ok removed) ∧
            counts = ⟨plan.inserts.length, plan.updates.length, plan.touches.length, removed⟩ := by
  refine ⟨_, rfl, fun known s => ?_⟩
  apply Program.Does.report
  apply Program.Does.report
  apply Program.does_unless ()
  intro _ _
  apply Program.Does.report
  apply Program.does_unless ()
  intro _ _
  apply Program.Does.report
  apply Program.does_unless ()
  intro _ _
  apply Program.Does.report
  exact Program.does_last

open Program

/-- Whatever the repository answers and whichever call fails, a reconciliation asks about the last
listing of each offer, in the order in which the offers first came in, and then follows the plan that
the answer makes of them. A failed call is its last event, and the error is its result. -/
theorem reconcile_follows_plan {σ : Type} (repo : Repository σ) (s : σ) (partition : PartitionKey)
    (listings : List Listing) (batch : BatchId) :
    let program := reconcile partition listings batch
    let result := (program.run repo s).result
    let incoming := lastWins listings
    let ids := incoming.map (·.sourceId)
    let asked := Event.report (.classifying incoming.length)
    (ids = (listings.map (·.sourceId)).eraseDups ∧
      ∀ l ∈ incoming, lastFor listings l.sourceId = some l) ∧
    ((∃ e, program.events repo s = [asked, .call (.find incoming) (.error e)] ∧
        result = .error e) ∨
      ∃ (known : Keyed SourceId Known) (plan : Plan) (events : List Event)
        (stop : Option RepositoryError),
        program.events repo s = asked :: .call (.find incoming) (.ok known) :: events ∧
        plan.Sorts known.get? incoming ∧
        Follows (plan.steps partition ids batch) events stop ∧
        match stop with
        | some e => result = .error e
        | none => ∃ removed,
          events.getLast? = some (.call (.removeMissing partition ids batch) (.ok removed)) ∧
          result = .ok
            ⟨plan.inserts.length, plan.updates.length, plan.touches.length, removed⟩) ∧
    (program.run repo s).progress = (program.events repo s).filterMap Event.progress? ∧
    (program.run repo.recorded (s, [])).state.2 = (program.events repo s).filterMap Event.call? := by
  intro program result incoming ids asked
  refine ⟨⟨ids_lastWins listings, fun l hl => (mem_lastWins_iff listings l).mp hl⟩, ?_,
    progress_run program s, recorded_run program s []⟩
  obtain ⟨next, heq, hnext⟩ := exists_reconcile_steps repo partition listings batch
  have hevents : program.events repo s = asked :: (call (.find incoming) next).events repo s := by
    rw [show program = _ from heq]
    rfl
  have hresult : result = ((call (.find incoming) next).run repo s).result := by
    rw [show result = (program.run repo s).result from rfl, show program = _ from heq]
    rfl
  rw [hevents, hresult, Program.events, Program.run]
  cases repo (.find incoming) s with
  | mk answer s₁ =>
    cases answer with
    | error e => exact .inl ⟨e, rfl, rfl⟩
    | ok known =>
      obtain ⟨stop, hfollows, hended⟩ := hnext known s₁
      refine .inr ⟨known, _, _, stop, rfl, Plan.sorts_classify _ incoming, hfollows, ?_⟩
      cases stop with
      | some e => exact hended
      | none =>
        obtain ⟨_, _, hlast, hcounts, removed, rfl, rfl⟩ := hended
        exact ⟨removed, hlast, hcounts⟩

end OfferLedger
