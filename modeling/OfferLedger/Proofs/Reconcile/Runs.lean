import OfferLedger.Proofs.Store.Basic
import OfferLedger.Reconcile.Basic

/-! # Runs of programs

What a run returns is found call by call. What every call keeps true is true in the end, also of a run
that was stopped by an error. -/
namespace OfferLedger.Program

variable {α β σ : Type} {repo : Repository σ}

/-- Run on a repository, a program returns a value and leaves a state. -/
def Returns (repo : Repository σ) (p : Program α) (s : σ) (a : α) (s' : σ) : Prop :=
  (p.run repo s).result = .ok a ∧ (p.run repo s).state = s'

theorem Returns.bind {p : Program α} {f : α → Program β} {s s' s'' : σ} {a : α} {b : β}
    (hp : Returns repo p s a s') (hf : Returns repo (f a) s' b s'') :
    Returns repo (p >>= f) s b s'' := by
  induction p generalizing s with
  | done a' =>
    obtain ⟨ha, rfl⟩ := hp
    cases ha
    exact hf
  | report _ next ih => exact ih hp
  | call c next ih =>
    obtain ⟨hr, hstate⟩ := hp
    change ((call c fun reply => (next reply).bind f).run repo s).result = _ ∧
      ((call c fun reply => (next reply).bind f).run repo s).state = _
    rw [run] at hr hstate ⊢
    split at hr
    · rename_i reply s₁ hc
      rw [hc] at hstate
      exact ih reply ⟨hr, hstate⟩
    · cases hr

theorem returns_pure (s : σ) (a : α) : Returns repo (pure a) s a s := ⟨rfl, rfl⟩

theorem returns_tell (s : σ) (p : Progress) : Returns repo (tell p) s () s := ⟨rfl, rfl⟩

theorem returns_perform {s s' : σ} {c : Call} {reply : c.Reply} (h : repo c s = (.ok reply, s')) :
    Returns repo (perform c) s reply s' := by
  rw [Returns, perform, run, h]
  exact ⟨rfl, rfl⟩

theorem returns_unless {s s' s'' : σ} {c : Call} {b : Bool} {rest : c.Reply → Program α}
    {reply : c.Reply} {a : α} (hskip : b = true → s' = s)
    (hcall : b = false → repo c s = (.ok reply, s'))
    (hrest : Returns repo (rest reply) s' a s'') :
    Returns repo (if b then rest reply else perform c >>= rest) s a s'' := by
  cases b with
  | true => exact hskip rfl ▸ hrest
  | false => exact (returns_perform (hcall rfl)).bind hrest

def Calls (P : Call → Prop) : Program α → Prop
  | done _ => True
  | report _ next => next.Calls P
  | call c next => P c ∧ ∀ reply, (next reply).Calls P

theorem Calls.run {P : Call → Prop} {I : σ → Prop} (hcall : ∀ c s, P c → I s → I (repo c s).2)
    {p : Program α} (hp : p.Calls P) {s : σ} (hs : I s) : I (p.run repo s).state := by
  induction p generalizing s with
  | done a => exact hs
  | report _ next ih => exact ih hp hs
  | call c next ih =>
    have hs' := hcall c s hp.1 hs
    rw [Program.run]
    split
    · rename_i reply s₁ hc
      rw [hc] at hs'
      exact ih reply (hp.2 reply) hs'
    · rename_i e s₁ hc
      rw [hc] at hs'
      exact hs'

end OfferLedger.Program
