import OfferLedger.Proofs.Reconcile.Writes
import OfferLedger.Proofs.Store.Ledger
import Mathlib.Logic.Function.Basic

/-! # Reconciliations that take turns

Several reconciliations share one ledger. A turn makes the next call of one of them, as a whole, on the
ledger as the turns before it left it. Turns are taken in any order. A run whose call has failed is
over, and so is one that has made all of its calls. -/
namespace OfferLedger

/-- The next call of a program and how the program goes on, past what it only reports. -/
def Program.next? {α : Type} : Program α → Option ((c : Call) × (c.Reply → Program α))
  | done _ => none
  | report _ next => next.next?
  | call c next => some ⟨c, next⟩

theorem Program.Straight.next? {α : Type} {p : Program α} {calls : List Call}
    (hp : p.Straight calls) {c : Call} {next : c.Reply → Program α} (h : p.next? = some ⟨c, next⟩) :
    ∃ rest, calls = c :: rest ∧ ∀ reply, (next reply).Straight rest := by
  induction p with
  | done => cases h
  | report _ next' ih => exact ih hp h
  | call c' next' ih =>
    cases h
    exact hp

structure Task where
  partition : PartitionKey
  listings : List Listing
  batch : BatchId

namespace Task

def program (t : Task) : Program Counts := reconcile t.partition t.listings t.batch

def find (t : Task) : Call := .find (lastWins t.listings)

def callsAfter (t : Task) (known : Keyed SourceId Known) : List Call :=
  OfferLedger.callsAfter t.partition t.listings t.batch known

end Task

structure Turn (ι : Type) where
  run : ι
  now : Timestamp
  call : Call
  before : Ledger

namespace Turn

variable {ι : Type}

def reply (t : Turn ι) : Except RepositoryError t.call.Reply :=
  (Ledger.repository ⟨t.now, []⟩ t.call t.before).1

def after (t : Turn ι) : Ledger := (Ledger.repository ⟨t.now, []⟩ t.call t.before).2

def Succeeds (t : Turn ι) : Prop := ∃ reply, t.reply = .ok reply

end Turn

/-- The ledger, what is left of each run, and the turns that were taken so far. Nothing is left of a
run that an error has stopped. -/
structure Concurrent (ι : Type) where
  ledger : Ledger
  runs : ι → Option (Program Counts)
  turns : List (Turn ι)

namespace Concurrent

variable {ι : Type} [DecidableEq ι]

omit [DecidableEq ι] in
def start (l : Ledger) (tasks : ι → Task) : Concurrent ι :=
  ⟨l, fun i => some (tasks i).program, []⟩

def turn (w : Concurrent ι) (i : ι) (now : Timestamp) : Concurrent ι :=
  match (w.runs i).bind Program.next? with
  | none => w
  | some ⟨call, next⟩ =>
    let t : Turn ι := ⟨i, now, call, w.ledger⟩
    { ledger := t.after
      runs := Function.update w.runs i (t.reply.toOption.map next)
      turns := w.turns ++ [t] }

def after (w : Concurrent ι) (order : List (ι × Timestamp)) : Concurrent ι :=
  order.foldl (fun w t => w.turn t.1 t.2) w

end Concurrent

section

variable {ι : Type} {task : Task} {i : ι}

/-- How far a run has come, by the turns that it had: it was told what is known, and has made the first of
the calls that follow from it. If the last of them failed, nothing is left. -/
inductive Trace (task : Task) (i : ι) : List (Turn ι) → Option (Program Counts) → Prop where
  | fresh : Trace task i [] (some task.program)
  | going {now : Timestamp} {l : Ledger} {known : Keyed SourceId Known} {made : List (Turn ι)}
      {rest : List Call} {p : Program Counts} :
      l.find (lastWins task.listings) = .ok known →
      task.callsAfter known = made.map (·.call) ++ rest → p.Straight rest →
      (∀ t ∈ made, t.Succeeds) → Trace task i (⟨i, now, task.find, l⟩ :: made) (some p)
  | stopped {now : Timestamp} {l : Ledger} {known : Keyed SourceId Known} {made : List (Turn ι)}
      {last : Turn ι} {rest : List Call} :
      l.find (lastWins task.listings) = .ok known →
      task.callsAfter known = made.map (·.call) ++ last.call :: rest →
      (∀ t ∈ made, t.Succeeds) → ¬ last.Succeeds →
      Trace task i (⟨i, now, task.find, l⟩ :: made ++ [last]) none

theorem Trace.turn {turns : List (Turn ι)} {p : Program Counts} (h : Trace task i turns (some p))
    {call : Call} {next : call.Reply → Program Counts} (hnext : p.next? = some ⟨call, next⟩)
    {l : Ledger} (hs : l.Sound) (now : Timestamp) :
    call.Live ∧ Trace task i (turns ++ [⟨i, now, call, l⟩])
      ((Turn.mk i now call l).reply.toOption.map next) := by
  cases h with
  | fresh =>
    obtain ⟨next', heq, hstraight⟩ := reconcile_eq_call task.partition task.listings task.batch
    rw [Task.program, heq] at hnext
    cases hnext
    obtain ⟨known, hfind, -⟩ := hs.find_eq (lastWins task.listings)
    have hreply : (Turn.mk i now task.find l).reply = .ok known := hfind
    refine ⟨trivial, ?_⟩
    change Trace task i [⟨i, now, task.find, l⟩]
      ((Turn.mk i now task.find l).reply.toOption.map next')
    rw [hreply]
    exact .going hfind rfl (hstraight known) fun _ ht => absurd ht List.not_mem_nil
  | @going now₀ l₀ known made rest _ hfind hcalls hp hmade =>
    obtain ⟨rest', rfl, hstraight⟩ := hp.next? hnext
    have hmem : call ∈ task.callsAfter known := by
      rw [hcalls]
      exact List.mem_append_right _ (List.mem_cons_self ..)
    refine ⟨live_of_mem_callsAfter hmem, ?_⟩
    cases hreply : (Turn.mk i now call l).reply with
    | error e =>
      apply Trace.stopped hfind hcalls hmade
      rintro ⟨reply, hok⟩
      rw [hreply] at hok
      cases hok
    | ok reply =>
      have hcalls' : task.callsAfter known =
          (made ++ [Turn.mk i now call l]).map (·.call) ++ rest' := by
        rw [hcalls, List.map_append, List.append_assoc]
        rfl
      apply Trace.going hfind hcalls' (hstraight reply)
      intro t ht
      rcases List.mem_append.mp ht with ht | ht
      · exact hmade t ht
      · rw [List.mem_singleton.mp ht]
        exact ⟨reply, hreply⟩

theorem Trace.after_find {turns earlier later : List (Turn ι)} {left : Option (Program Counts)}
    (h : Trace task i turns left) {t : Turn ι} (hturns : turns = earlier ++ t :: later)
    (hcall : t.call ≠ task.find) :
    ∃ now l known, ⟨i, now, task.find, l⟩ ∈ earlier ∧
      l.find (lastWins task.listings) = .ok known ∧ t.call ∈ task.callsAfter known ∧
      (t.Succeeds ∨ later = []) := by
  -- The first turn is the question, so the turn is one of those that follow it.
  have hsplit : ∀ now l made, ⟨i, now, task.find, l⟩ :: made = earlier ++ t :: later →
      ∃ earlier', earlier = ⟨i, now, task.find, l⟩ :: earlier' ∧ made = earlier' ++ t :: later := by
    intro now l made heq
    cases earlier with
    | nil =>
      cases heq
      exact absurd rfl hcall
    | cons first earlier' =>
      cases heq
      exact ⟨earlier', rfl, rfl⟩
  cases h with
  | fresh =>
    cases earlier <;> cases hturns
  | @going now l known made rest _ hfind hcalls _ hmade =>
    obtain ⟨earlier', rfl, rfl⟩ := hsplit now l made hturns
    have hmem : t ∈ earlier' ++ t :: later := List.mem_append_right _ (List.mem_cons_self ..)
    refine ⟨now, l, known, List.mem_cons_self .., hfind, ?_, .inl (hmade t hmem)⟩
    rw [hcalls]
    exact List.mem_append_left _ (List.mem_map_of_mem hmem)
  | @stopped now l known made last rest hfind hcalls hmade _ =>
    obtain ⟨earlier', rfl, hmade'⟩ := hsplit now l (made ++ [last]) hturns
    have hcalls' : task.callsAfter known = (made ++ [last]).map (·.call) ++ rest := by
      rw [hcalls, List.map_append, List.append_assoc]
      rfl
    have hmem : t ∈ made ++ [last] := by
      rw [hmade']
      exact List.mem_append_right _ (List.mem_cons_self ..)
    refine ⟨now, l, known, List.mem_cons_self .., hfind, ?_, ?_⟩
    · rw [hcalls']
      exact List.mem_append_left _ (List.mem_map_of_mem hmem)
    · rcases List.eq_nil_or_concat later with rfl | ⟨later', last', rfl⟩
      · exact .inr rfl
      · rw [List.concat_eq_append, ← List.cons_append, ← List.append_assoc] at hmade'
        have hinit := (List.append_inj' hmade' rfl).1
        refine .inl (hmade t ?_)
        rw [hinit]
        exact List.mem_append_right _ (List.mem_cons_self ..)

end

namespace Concurrent

variable {ι : Type} [DecidableEq ι] {l : Ledger} {tasks : ι → Task} {w : Concurrent ι}

/-- Every turn was made on a sound ledger that has lost nothing, and nothing that it left was lost
later; and each run has come as far as its own turns say. -/
structure Valid (l : Ledger) (tasks : ι → Task) (w : Concurrent ι) : Prop where
  kept : Ledger.Kept l w.ledger
  before : ∀ t ∈ w.turns, Ledger.Kept l t.before
  after : ∀ t ∈ w.turns, Ledger.Kept t.before t.after ∧ t.after.revisions <+: w.ledger.revisions
  trace : ∀ i, Trace (tasks i) i (w.turns.filter (·.run = i)) (w.runs i)

theorem valid_start (hs : l.Sound) (tasks : ι → Task) : Valid l tasks (start l tasks) :=
  ⟨hs.kept, fun _ ht => absurd ht List.not_mem_nil, fun _ ht => absurd ht List.not_mem_nil,
    fun _ => .fresh⟩

theorem Valid.turn (h : Valid l tasks w) (i : ι) (now : Timestamp) :
    Valid l tasks (w.turn i now) := by
  unfold Concurrent.turn
  cases hnext : (w.runs i).bind Program.next? with
  | none => exact h
  | some pending =>
    obtain ⟨call, next⟩ := pending
    obtain ⟨p, hp, hnext⟩ := Option.bind_eq_some_iff.mp hnext
    have htrace := h.trace i
    rw [hp] at htrace
    obtain ⟨hlive, htrace⟩ := htrace.turn hnext h.kept.sound now
    have hkept : Ledger.Kept w.ledger (Turn.mk i now call w.ledger).after :=
      h.kept.sound.call ⟨now, []⟩ hlive
    constructor
    · exact h.kept.trans hkept
    · intro t ht
      rcases List.mem_append.mp ht with ht | ht
      · exact h.before t ht
      · rw [List.mem_singleton.mp ht]
        exact h.kept
    · intro t ht
      rcases List.mem_append.mp ht with ht | ht
      · obtain ⟨hk, hp⟩ := h.after t ht
        exact ⟨hk, hp.trans hkept.revisions⟩
      · rw [List.mem_singleton.mp ht]
        exact ⟨hkept, List.prefix_rfl⟩
    · intro j
      change Trace (tasks j) j ((w.turns ++ [_]).filter _) (Function.update w.runs i _ j)
      rw [List.filter_append]
      by_cases hj : i = j
      · subst hj
        have hone : [Turn.mk i now call w.ledger].filter (·.run = i) = [⟨i, now, call, w.ledger⟩] := by
          simp
        rw [hone, Function.update_self]
        exact htrace
      · have hnone : [Turn.mk i now call w.ledger].filter (·.run = j) = [] := by
          simpa using hj
        rw [hnone, List.append_nil, Function.update_of_ne (Ne.symm hj)]
        exact h.trace j

theorem Valid.after_turns (h : Valid l tasks w) (order : List (ι × Timestamp)) :
    Valid l tasks (w.after order) := by
  induction order generalizing w with
  | nil => exact h
  | cons t rest ih => exact ih (h.turn t.1 t.2)

end Concurrent
end OfferLedger
