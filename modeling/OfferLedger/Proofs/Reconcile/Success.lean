import OfferLedger.Proofs.Reconcile.Effect
import OfferLedger.Proofs.Store.Effects

/-! # Runs that succeed

A reconciliation that returns its counts was answered every one of its calls. So it has had its whole
effect, and the counts are right, whatever could have failed. -/
namespace OfferLedger

/-- A call succeeded, or it was left out and nothing happened. -/
def Answers.Unless {σ : Type} (answers : Answers σ) (skip : Bool) (c : Call) (s s' : σ) : Prop :=
  (skip = true → s' = s) ∧ (skip = false → ∃ reply, answers c s (.ok reply) s')

namespace Program

variable {α σ : Type} {answers : Answers σ} {s s' : σ} {a : α}

theorem Ends.after_tell {p : Progress} {next : Unit → Program α}
    (h : (tell p >>= next).Ends answers s (.ok a) s') : (next ()).Ends answers s (.ok a) s' := by
  cases h with
  | report h => exact h

theorem Ends.after_perform {c : Call} {next : c.Reply → Program α}
    (h : (perform c >>= next).Ends answers s (.ok a) s') :
    ∃ reply s₁, answers c s (.ok reply) s₁ ∧ (next reply).Ends answers s₁ (.ok a) s' := by
  cases h with
  | call hans h => exact ⟨_, _, hans, h⟩

theorem Ends.after_unless {c : Call} {b : Bool} {next : c.Reply → Program α} (reply₀ : c.Reply)
    (h : (if b then next reply₀ else perform c >>= next).Ends answers s (.ok a) s') :
    ∃ reply s₁, answers.Unless b c s s₁ ∧ (next reply).Ends answers s₁ (.ok a) s' := by
  cases b with
  | true => exact ⟨reply₀, s, ⟨fun _ => rfl, fun hb => Bool.noConfusion hb⟩, h⟩
  | false =>
    obtain ⟨reply, s₁, hans, h⟩ := Ends.after_perform h
    exact ⟨reply, s₁, ⟨fun hb => Bool.noConfusion hb, fun _ => ⟨reply, hans⟩⟩, h⟩

end Program

/-- A run that succeeded on a plan, state by state. A call that had nothing to write was left out. -/
structure Stages {σ : Type} (answers : Answers σ) (view : σ → View) (Sound : σ → Prop)
    (partition : PartitionKey) (listings : List Listing) (batch : BatchId) (plan : Plan)
    (s s₁ s₂ s₃ s' : σ) (n : Nat) : Prop where
  inserted : answers.Unless plan.inserts.isEmpty (.append plan.inserts batch) s s₁
  updated : answers.Unless plan.updates.isEmpty (.append plan.updates batch) s₁ s₂
  touched : answers.Unless plan.touches.isEmpty (.touch plan.touches batch) s₂ s₃
  removed : answers (.removeMissing partition ((lastWins listings).map (·.sourceId)) batch) s₃
    (.ok n) s'
  sound₁ : Sound s₁
  sound₂ : Sound s₂
  sound₃ : Sound s₃
  history₂ : (view s₂).history = (view s).history.grown batch (plan.inserts ++ plan.updates)
  history₃ : (view s₃).history = (view s).history.grown batch (plan.inserts ++ plan.updates)

section

variable {σ : Type} {answers : Answers σ} {view : σ → View} {Sound : σ → Prop}
  (E : Effective answers view Sound) {s s' : σ} (hs : Sound s)
include E hs

theorem Effective.append_or_skip {entries : List Entry} {batch : BatchId}
    (hw : (Call.append entries batch).WellFormed)
    (h : answers.Unless entries.isEmpty (.append entries batch) s s') :
    Sound s' ∧ (view s').history = (view s).history.grown batch entries := by
  cases entries with
  | nil =>
    obtain rfl := h.1 rfl
    exact ⟨hs, (Histories.grown_nil _ _).symm⟩
  | cons e rest =>
    obtain ⟨_, hans⟩ := h.2 rfl
    exact ⟨(E.effect hs hw hans).1, E.append hs hw hans⟩

theorem Effective.touch_or_skip {ids : List SourceId} {batch : BatchId}
    (h : answers.Unless ids.isEmpty (.touch ids batch) s s') :
    Sound s' ∧ (view s').history = (view s).history := by
  cases ids with
  | nil =>
    obtain rfl := h.1 rfl
    exact ⟨hs, rfl⟩
  | cons id rest =>
    obtain ⟨_, hans⟩ := h.2 rfl
    obtain ⟨hs', heffect⟩ := E.effect (c := .touch (id :: rest) batch) hs trivial hans
    generalize (view s').history = history at heffect ⊢
    cases heffect
    exact ⟨hs', rfl⟩

theorem Effective.stages {partition : PartitionKey} {listings : List Listing} {batch : BatchId}
    {counts : Counts} (h : (reconcile partition listings batch).Ends answers s (.ok counts) s') :
    ∃ (known : Keyed SourceId Known) (s₁ s₂ s₃ : σ) (n : Nat),
      (∀ id, Keyed.get? known id = (lastFor listings id).bind (view s).known?) ∧
      Stages answers view Sound partition listings batch
        (Plan.classify (Keyed.get? known) (lastWins listings)) s s₁ s₂ s₃ s' n ∧
      counts = ⟨(Plan.classify (Keyed.get? known) (lastWins listings)).inserts.length,
        (Plan.classify (Keyed.get? known) (lastWins listings)).updates.length,
        (Plan.classify (Keyed.get? known) (lastWins listings)).touches.length, n⟩ := by
  obtain ⟨known, s₀, hfind, hplan⟩ := h.after_tell.after_perform
  obtain ⟨rfl, hknown⟩ := E.find_lastWins hs hfind
  have hinsert := hplan.after_tell.after_tell
  obtain ⟨_, s₁, hinserted, hrest₁⟩ := Program.Ends.after_unless () hinsert
  obtain ⟨hs₁, hh₁⟩ := E.append_or_skip hs (Plan.wellFormed_inserts hknown batch) hinserted
  have hupdate := hrest₁.after_tell
  obtain ⟨_, s₂, hupdated, hrest₂⟩ := Program.Ends.after_unless () hupdate
  obtain ⟨hs₂, hh₂⟩ := E.append_or_skip hs₁
    (Plan.wellFormed_updates hknown (E.consistent hs) batch) hupdated
  have htouch := hrest₂.after_tell
  obtain ⟨_, s₃, htouched, hrest₃⟩ := Program.Ends.after_unless () htouch
  obtain ⟨hs₃, hh₃⟩ := E.touch_or_skip hs₂ htouched
  obtain ⟨n, s₄, hremoved, hdone⟩ := hrest₃.after_tell.after_perform
  cases hdone
  rw [hh₁, Histories.grown_grown] at hh₂
  exact ⟨known, s₁, s₂, s₃, n, hknown,
    ⟨hinserted, hupdated, htouched, hremoved, hs₁, hs₂, hs₃, hh₂, hh₃.trans hh₂⟩, rfl⟩

/-- A run that returns counts has had the effect that the batch asks for. -/
theorem Effective.reconciled {partition : PartitionKey} {listings : List Listing} {batch : BatchId}
    {counts : Counts} (h : (reconcile partition listings batch).Ends answers s (.ok counts) s') :
    Sound s' ∧ Reconciled partition listings batch (view s) (view s') counts := by
  obtain ⟨known, s₁, s₂, s₃, n, hknown, hstages, rfl⟩ := E.stages hs h
  have hs₃ := hstages.sound₃
  obtain ⟨hn, hh⟩ := E.removeMissing hs₃ hstages.removed
  have hs' := (E.effect (c := .removeMissing ..) hs₃ trivial hstages.removed).1
  exact ⟨hs', Plan.reconciled hknown hstages.history₃ (E.consistent hs) (E.consistent hs₃)
    (E.consistent hs') hh hn⟩

end
end OfferLedger
