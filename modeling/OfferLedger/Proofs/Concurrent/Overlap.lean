import OfferLedger.Proofs.Concurrent.Basic
import OfferLedger.Proofs.Reconcile.Due

/-! # Two runs of one region

The version guard is on single offers. Two runs of one region that write to different offers do not see
each other, and both can succeed. The run that removes last then decides which offers can be active, and
the other one can still have written to some of them since the last one asked. -/
namespace OfferLedger

structure Act (σ : Type) where
  run : Bool
  call : Call
  before : σ
  after : σ

def Act.Writes {σ : Type} (view : σ → View) (t : Act σ) (id : SourceId) : Prop :=
  (view t.after).history id ≠ (view t.before).history id

/-- Two tasks that share a store and make their calls in any order, each call as a whole: what is left
of them, the calls so far and the store. Nothing is left of a run that an error has stopped. -/
inductive Interleaved {σ : Type} (answers : Answers σ) (tasks : Bool → Task) (s₀ : σ) :
    (Bool → Option (Program Counts)) → List (Act σ) → σ → Prop where
  | start : Interleaved answers tasks s₀ (fun i => some (tasks i).program) [] s₀
  | call {runs acts s s' i p} {c : Call} {next : c.Reply → Program Counts} {reply : c.Reply} :
      Interleaved answers tasks s₀ runs acts s → runs i = some p → p.next? = some ⟨c, next⟩ →
      answers c s (.ok reply) s' →
      Interleaved answers tasks s₀ (Function.update runs i (some (next reply)))
        (acts ++ [⟨i, c, s, s'⟩]) s'
  | stop {runs acts s s' i p} {c : Call} {next : c.Reply → Program Counts} {e : RepositoryError} :
      Interleaved answers tasks s₀ runs acts s → runs i = some p → p.next? = some ⟨c, next⟩ →
      answers c s (.error e) s' →
      Interleaved answers tasks s₀ (Function.update runs i none) (acts ++ [⟨i, c, s, s'⟩]) s'

/-- A run has made all of its calls. -/
def Finished (left : Option (Program Counts)) : Prop := ∃ p, left = some p ∧ p.next? = none

instance (left : Option (Program Counts)) : Decidable (Finished left) :=
  decidable_of_iff (left.any fun p => p.next?.isNone) (by simp [Finished, Option.any_eq_true])

/-- What becomes of an offer that a run lists: its listing is shown, unless one of some acts of another
run has written to the offer. Then it shows what the other run lists, or is inactive if that lists
nothing. -/
inductive Left {σ : Type} (view : σ → View) (other : List Listing) (acts : List (Act σ)) (v : View)
    (l : Listing) : Prop where
  | own : v.Shows l → Left view other acts v l
  | replaced {x : Listing} {t : Act σ} : lastFor other l.sourceId = some x → v.Shows x →
      t ∈ acts → t.Writes view l.sourceId → Left view other acts v l
  | removed {t : Act σ} : l.sourceId ∉ other.map (·.sourceId) → v.isActive l.sourceId = false →
      t ∈ acts → t.Writes view l.sourceId → Left view other acts v l

def Task.Plans (t : Task) (c : Call) : Prop :=
  c.WellFormed ∧ ∃ v : View, c.MakesDue v t.partition t.listings t.batch

theorem Task.plans_find (t : Task) (v : View) : t.Plans t.find := ⟨trivial, v, trivial⟩

theorem Task.Plans.cases {t : Task} {c : Call} (hc : t.Plans c) {v v' : View}
    (hv' : v'.Consistent) (he : c.Effect v v'.history) (id : SourceId) :
    v'.history id = v.history id ∨
    v'.history id ≠ v.history id ∧ (∃ l, lastFor t.listings id = some l ∧ v'.Shows l) ∨
    v'.history id ≠ v.history id ∧ id ∉ t.listings.map (·.sourceId) ∧ v'.isActive id = false := by
  obtain ⟨hw, asked, hdue⟩ := hc
  generalize hh : v'.history = history at he
  cases he with
  | unchanged => exact .inl rfl
  | @appended entries batch v hfits =>
    by_cases hid : id ∈ entries.map (·.listing.sourceId)
    · obtain ⟨e, hmem, rfl⟩ := List.mem_map.mp hid
      have hlive := (hw.2 e hmem).2
      have hgrown : v.history.grown batch entries e.listing.sourceId = _ :=
        Histories.grown_of_mem hw.1 hmem
      have hl : lastFor t.listings e.listing.sourceId = some e.listing := by
        rcases View.due?_cases (hdue.2 e hmem) with ⟨hl, -⟩ | ⟨hl, -⟩ | ⟨r, -, rfl⟩
        · exact hl
        · exact hl
        · exact absurd rfl hlive
      refine .inr (.inl ⟨by simp [hgrown], e.listing, hl, ?_⟩)
      exact hv'.shows_of_append (hh ▸ hgrown) hlive
    · exact .inl (Histories.grown_of_notMem hid)
  | removed partition ids batch =>
    obtain ⟨rfl, rfl, rfl⟩ := hdue
    cases hr : v.missing? t.partition ((lastWins t.listings).map (·.sourceId)) id with
    | none =>
      left
      rw [View.removed, hr]
    | some r =>
      have hgrown : v.removed t.partition ((lastWins t.listings).map (·.sourceId)) t.batch id =
          v.history id ++ [r.removal.revision t.batch] := by
        rw [View.removed, hr]
      refine .inr (.inr ⟨by simp [hgrown], View.notMem_of_missing? hr, ?_⟩)
      rw [hv'.isActive, View.latest?, hh, hgrown, List.getLast?_concat]
      rfl

section

variable {σ : Type} {view : σ → View} {other : List Listing} {acts : List (Act σ)} {v v' : View}
  {l : Listing}

theorem Left.mono (h : Left view other acts v l) (t : Act σ) :
    Left view other (acts ++ [t]) v l := by
  cases h with
  | own hshows => exact .own hshows
  | replaced hx hshows ht hw => exact .replaced hx hshows (List.mem_append_left _ ht) hw
  | removed hid hinactive ht hw => exact .removed hid hinactive (List.mem_append_left _ ht) hw

theorem Left.congr (h : Left view other acts v l) (hv : v.Consistent) (hv' : v'.Consistent)
    (hsame : v'.history l.sourceId = v.history l.sourceId) : Left view other acts v' l := by
  cases h with
  | own hshows => exact .own ((hv'.shows_congr hv hsame).mpr hshows)
  | replaced hx hshows ht hw =>
    rw [← sourceId_of_lastFor hx] at hsame
    exact .replaced hx ((hv'.shows_congr hv hsame).mpr hshows) ht hw
  | removed hid hinactive ht hw =>
    exact .removed hid ((hv'.isActive_congr hv hsame).trans hinactive) ht hw

end

theorem Task.next?_program (t : Task) :
    ∃ next, t.program.next? = some ⟨t.find, next⟩ ∧
      ∀ known, (next known).Straight (t.callsAfter known) := by
  obtain ⟨next, heq, hnext⟩ := reconcile_eq_call t.partition t.listings t.batch
  exact ⟨next, by rw [program, heq]; rfl, hnext⟩

section

variable {σ : Type} {answers : Answers σ} {view : σ → View} {Sound : σ → Prop} {tasks : Bool → Task}
  {i : Bool} {acts : List (Act σ)} {s s' : σ} {p : Program Counts} {c : Call}

/-- How far a run has come. Once it was told what is known, each offer that it lists is still to be
written by it, or is as it should be but for what the other run has written since. -/
inductive Stage (view : σ → View) (tasks : Bool → Task) (i : Bool) (acts : List (Act σ)) (v : View) :
    Program Counts → Prop where
  | fresh : Stage view tasks i acts v (tasks i).program
  | asked {earlier later : List (Act σ)} {begun : Act σ} {known : Keyed SourceId Known}
      {rest : List Call} {p : Program Counts} :
      acts = earlier ++ begun :: later → begun.run = i → begun.call = (tasks i).find →
      (∀ c ∈ (tasks i).callsAfter known, (tasks i).Plans c) →
      rest <:+ (tasks i).callsAfter known → p.Straight rest →
      (∀ l, lastFor (tasks i).listings l.sourceId = some l →
        (∃ e ∈ rest.flatMap Call.entries, e.listing = l) ∨
        Left view (tasks !i).listings (later.filter (·.run = !i)) v l) →
      Stage view tasks i acts v p

theorem entries_callsAfter (t : Task) (known : Keyed SourceId Known) :
    (t.callsAfter known).flatMap Call.entries =
      (Plan.classify (Keyed.get? known) (lastWins t.listings)).inserts ++
        (Plan.classify (Keyed.get? known) (lastWins t.listings)).updates := by
  rw [Task.callsAfter, callsAfter, List.flatMap_append, Plan.entries_writes]
  exact List.append_nil _

theorem exists_entry {v : View} {t : Task} {known : Keyed SourceId Known}
    (hknown : ∀ id, Keyed.get? known id = (lastFor t.listings id).bind v.known?) {l : Listing}
    (hl : lastFor t.listings l.sourceId = some l) (hshows : ¬ v.Shows l) :
    ∃ e ∈ (t.callsAfter known).flatMap Call.entries, e.listing = l := by
  rw [entries_callsAfter]
  cases hr : v.latest? l.sourceId with
  | none =>
    have he := (Plan.mem_inserts_iff hknown ⟨l, 1, .insert⟩).mpr ⟨hl, hr, rfl⟩
    exact ⟨_, List.mem_append_left _ he, rfl⟩
  | some r =>
    have he := (Plan.mem_updates_iff hknown ⟨l, r.version + 1, .update⟩).mpr
      ⟨hl, hshows, r, hr, rfl⟩
    exact ⟨_, List.mem_append_right _ he, rfl⟩

theorem Stage.plans {v : View} (h : Stage view tasks i acts v p) {next : c.Reply → Program Counts}
    (hnext : p.next? = some ⟨c, next⟩) : (tasks i).Plans c := by
  cases h with
  | fresh =>
    obtain ⟨next', heq, -⟩ := (tasks i).next?_program
    rw [heq] at hnext
    cases hnext
    exact (tasks i).plans_find v
  | asked _ _ _ hplans hsuffix hp _ =>
    obtain ⟨rest', rfl, -⟩ := hp.next? hnext
    exact hplans c (hsuffix.subset (List.mem_cons_self ..))

variable (E : Effective answers view Sound) (hs : Sound s)
include E hs

theorem Stage.own_step {next : c.Reply → Program Counts} {reply : c.Reply}
    (h : Stage view tasks i acts (view s) p) (hnext : p.next? = some ⟨c, next⟩)
    (hans : answers c s (.ok reply) s') :
    Stage view tasks i (acts ++ [⟨i, c, s, s'⟩]) (view s') (next reply) := by
  have hv := E.consistent hs
  have hplan := h.plans hnext
  obtain ⟨hs', heffect⟩ := E.effect hs hplan.1 hans
  have hv' := E.consistent hs'
  cases h with
  | fresh =>
    obtain ⟨next', heq, hstraight⟩ := (tasks i).next?_program
    rw [heq] at hnext
    cases hnext
    obtain ⟨rfl, hknown⟩ := E.find_lastWins hs hans
    refine .asked rfl rfl rfl (fun c hc => ?_) List.suffix_rfl (hstraight reply) fun l hl => ?_
    · obtain ⟨hw, hdue⟩ := makesDue_of_mem_callsAfter hknown hv hc
      exact ⟨hw, _, hdue⟩
    · by_cases hshows : (view s').Shows l
      · exact .inr (.own hshows)
      · exact .inl (exists_entry hknown hl hshows)
  | @asked earlier later begun known rest _ hacts hrun hcall hplans hsuffix hp hleft =>
    obtain ⟨rest', rfl, hstraight⟩ := hp.next? hnext
    have hacts' : acts ++ [⟨i, c, s, s'⟩] = earlier ++ begun :: (later ++ [⟨i, c, s, s'⟩]) := by
      rw [hacts, List.append_assoc, List.cons_append]
    refine .asked hacts' hrun hcall hplans ((List.suffix_cons c rest').trans hsuffix)
      (hstraight reply) fun l hl => ?_
    have hsince : (later ++ [Act.mk i c s s']).filter (·.run = !i) = later.filter (·.run = !i) := by
      simp
    rw [hsince]
    rcases hleft l hl with ⟨e, he, rfl⟩ | hleft
    · rw [List.flatMap_cons] at he
      rcases List.mem_append.mp he with he | he
      · -- The entry is written now.
        cases c with
        | append entries batch =>
          have hgrown := E.append hs hplan.1 hans
          have hhistory : (view s').history e.listing.sourceId = _ :=
            hgrown ▸ Histories.grown_of_mem hplan.1.1 he
          exact .inr (.own (hv'.shows_of_append hhistory (hplan.1.2 e he).2))
        | find => exact absurd he List.not_mem_nil
        | touch => exact absurd he List.not_mem_nil
        | removeMissing => exact absurd he List.not_mem_nil
      · exact .inl ⟨e, he, rfl⟩
    · right
      rcases hplan.cases hv' heffect l.sourceId with hsame | ⟨-, x, hx, hshows⟩ | ⟨-, hid, -⟩
      · exact hleft.congr hv hv' hsame
      · rw [hl] at hx
        cases hx
        exact .own hshows
      · rw [← lastFor_eq_none_iff, hl] at hid
        cases hid

theorem Stage.other_step {r : Except RepositoryError c.Reply}
    (h : Stage view tasks i acts (view s) p) (hplan : (tasks !i).Plans c)
    (hans : answers c s r s') :
    Stage view tasks i (acts ++ [⟨!i, c, s, s'⟩]) (view s') p := by
  have hv := E.consistent hs
  obtain ⟨hs', heffect⟩ := E.effect hs hplan.1 hans
  have hv' := E.consistent hs'
  cases h with
  | fresh => exact .fresh
  | @asked earlier later begun known rest _ hacts hrun hcall hplans hsuffix hp hleft =>
    have hacts' : acts ++ [⟨!i, c, s, s'⟩] = earlier ++ begun :: (later ++ [⟨!i, c, s, s'⟩]) := by
      rw [hacts, List.append_assoc, List.cons_append]
    refine .asked hacts' hrun hcall hplans hsuffix hp fun l hl => ?_
    rcases hleft l hl with hpending | hleft
    · exact .inl hpending
    right
    have hsince : (later ++ [Act.mk (!i) c s s']).filter (·.run = !i) =
        later.filter (·.run = !i) ++ [⟨!i, c, s, s'⟩] := by
      simp
    have hlast := List.mem_append_right (later.filter (·.run = !i))
      (List.mem_singleton_self (Act.mk (!i) c s s'))
    rw [hsince]
    rcases hplan.cases hv' heffect l.sourceId with hsame | ⟨hw, x, hx, hshows⟩ | ⟨hw, hid, hinactive⟩
    · exact (hleft.mono _).congr hv hv' hsame
    · exact .replaced hx hshows hlast hw
    · exact .removed hid hinactive hlast hw

end

section

variable {σ : Type} {answers : Answers σ} {view : σ → View} {Sound : σ → Prop} {tasks : Bool → Task}
  {s₀ s : σ} {runs : Bool → Option (Program Counts)} {acts : List (Act σ)}

theorem Interleaved.stage (E : Effective answers view Sound) (hs : Sound s₀)
    (h : Interleaved answers tasks s₀ runs acts s) :
    Sound s ∧ ∀ i p, runs i = some p → Stage view tasks i acts (view s) p := by
  induction h with
  | start =>
    refine ⟨hs, fun i p hp => ?_⟩
    cases hp
    exact .fresh
  | @call runs acts s s' j q c next reply _ hq hnext hans ih =>
    obtain ⟨hs₁, hstage⟩ := ih
    have hplan := (hstage j q hq).plans hnext
    refine ⟨(E.effect hs₁ hplan.1 hans).1, fun i p hp => ?_⟩
    by_cases hij : i = j
    · subst hij
      rw [Function.update_self] at hp
      cases hp
      exact (hstage i q hq).own_step E hs₁ hnext hans
    · obtain rfl : j = !i := Bool.eq_not.mpr (Ne.symm hij)
      rw [Function.update_of_ne hij] at hp
      exact (hstage i p hp).other_step E hs₁ hplan hans
  | @stop runs acts s s' j q c next e _ hq hnext hans ih =>
    obtain ⟨hs₁, hstage⟩ := ih
    have hplan := (hstage j q hq).plans hnext
    refine ⟨(E.effect hs₁ hplan.1 hans).1, fun i p hp => ?_⟩
    by_cases hij : i = j
    · subst hij
      rw [Function.update_self] at hp
      cases hp
    · obtain rfl : j = !i := Bool.eq_not.mpr (Ne.symm hij)
      rw [Function.update_of_ne hij] at hp
      exact (hstage i p hp).other_step E hs₁ hplan hans

end

end OfferLedger
