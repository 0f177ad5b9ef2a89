/-! # Computations that may fail

How a computation that succeeded, or a loop of them, went through its steps. -/
namespace OfferLedger

variable {α β ε σ : Type}

theorem bind_eq_ok {x : Except ε α} {f : α → Except ε β} {b : β} (h : x >>= f = .ok b) :
    ∃ a, x = .ok a ∧ f a = .ok b := by
  cases x with
  | error e => cases h
  | ok a => exact ⟨a, rfl, h⟩

theorem mapM_eq_ok {f : α → Except ε β} {g : α → β} {xs : List α}
    (h : ∀ a ∈ xs, f a = .ok (g a)) : xs.mapM f = .ok (xs.map g) := by
  induction xs with
  | nil => rfl
  | cons a rest ih =>
    rw [List.mapM_cons, h a (List.mem_cons_self ..), ih fun b hb => h b (List.mem_cons_of_mem _ hb)]
    rfl

theorem length_of_mapM {f : α → Except ε β} {xs : List α} {ys : List β} (h : xs.mapM f = .ok ys) :
    ys.length = xs.length := by
  induction xs generalizing ys with
  | nil =>
    cases h
    rfl
  | cons a rest ih =>
    rw [List.mapM_cons] at h
    obtain ⟨b, -, h⟩ := bind_eq_ok h
    obtain ⟨bs, hbs, h⟩ := bind_eq_ok h
    cases h
    rw [List.length_cons, List.length_cons, ih hbs]

theorem foldlM_induction {step : σ → α → Except ε σ} {P : List α → σ → Prop} {xs : List α}
    {s s' : σ} (h : xs.foldlM step s = .ok s') (hs : P [] s)
    (hstep : ∀ a ∈ xs, ∀ before s s', P before s → step s a = .ok s' → P (before ++ [a]) s') :
    P xs s' := by
  have hrun : ∀ after before s, (∀ a ∈ after, a ∈ xs) → P before s →
      after.foldlM step s = .ok s' → P (before ++ after) s' := by
    intro after
    induction after with
    | nil =>
      intro before s _ hs h
      cases h
      rwa [List.append_nil]
    | cons a after ih =>
      intro before s hsub hs h
      rw [List.foldlM_cons] at h
      obtain ⟨s₁, h₁, h⟩ := bind_eq_ok h
      rw [← List.singleton_append, ← List.append_assoc]
      refine ih (before ++ [a]) s₁ (fun b hb => hsub b (List.mem_cons_of_mem _ hb)) ?_ h
      exact hstep a (hsub a (List.mem_cons_self ..)) before s s₁ hs h₁
  exact hrun xs [] s (fun _ ha => ha) hs h

/-- A loop whose steps succeed under one rule succeeds under any rule that agrees with it there. -/
theorem foldlM_mono {step step' : σ → α → Except ε σ}
    (h : ∀ s a s', step s a = .ok s' → step' s a = .ok s') {xs : List α} {s s' : σ}
    (hrun : xs.foldlM step s = .ok s') : xs.foldlM step' s = .ok s' := by
  induction xs generalizing s with
  | nil => exact hrun
  | cons a rest ih =>
    rw [List.foldlM_cons] at hrun ⊢
    obtain ⟨s₁, h₁, hrest⟩ := bind_eq_ok hrun
    rw [h s a s₁ h₁]
    exact ih hrest

theorem foldlM_stop {step : σ → α → Except ε σ} {before after : List α} {a : α} {s s₁ : σ} {e : ε}
    (hbefore : before.foldlM step s = .ok s₁) (hstop : step s₁ a = .error e) :
    (before ++ a :: after).foldlM step s = .error e := by
  rw [List.foldlM_append, hbefore]
  change (a :: after).foldlM step s₁ = _
  rw [List.foldlM_cons, hstop]
  rfl

end OfferLedger
