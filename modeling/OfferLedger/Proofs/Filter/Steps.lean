import OfferLedger.Filter.Reading
import OfferLedger.Proofs.Failing
import OfferLedger.Proofs.Filter.Grammar

/-! # Steps of the reader

Which tokens a reader accepts in which state, and the state that each leaves. -/
namespace OfferLedger.Filter

def Reader.steps (r : Reader) (ts : List Token) : Except Fault Reader := ts.foldlM Reader.step r

namespace Reader

theorem steps_append {r r' : Reader} {ts : List Token} (h : r.steps ts = .ok r')
    (ts' : List Token) : r.steps (ts ++ ts') = r'.steps ts' := by
  rw [steps] at h
  rw [steps, List.foldlM_append, h]
  rfl

theorem run_eq_ok_iff (size : Nat) (r : Reader) (tokens : List Placed) (n : Filter) :
    r.run size tokens = .ok n ↔
      ∃ r', r.steps (tokens.map (·.token)) = .ok r' ∧ r'.finish = .ok n := by
  induction tokens generalizing r with
  | nil =>
    rw [run]
    constructor
    · intro hn
      cases h : r.finish with
      | error fault =>
        rw [h] at hn
        cases hn
      | ok n' =>
        rw [h] at hn
        cases hn
        exact ⟨r, rfl, h⟩
    · rintro ⟨r', hr', h⟩
      cases hr'
      rw [h]
      rfl
  | cons p rest ih =>
    obtain ⟨t, offset⟩ := p
    rw [run]
    cases h : r.step t with
    | error fault =>
      have hfail : r.steps (t :: rest.map (·.token)) = .error fault := by
        rw [steps, List.foldlM_cons, h]
        rfl
      simp [hfail]
    | ok r₁ =>
      have hnext : r.steps (t :: rest.map (·.token)) = r₁.steps (rest.map (·.token)) := by
        rw [steps, List.foldlM_cons, h]
        rfl
      rw [List.map_cons, hnext]
      exact ih r₁

end Reader

theorem countTerm_eq_ok_iff (k k' : Nat) : countTerm k = .ok k' ↔ k' = k + 1 ∧ k + 1 ≤ maxTerms := by
  unfold countTerm
  split
  · simp only [reduceCtorEq, false_iff]
    omega
  · simp only [Except.ok.injEq]
    omega

theorem countTerm_of_le {k : Nat} (h : k + 1 ≤ maxTerms) : countTerm k = .ok (k + 1) :=
  (countTerm_eq_ok_iff _ _).mpr ⟨rfl, h⟩

theorem countTerm_or (k : Nat) : k + 1 ≤ maxTerms ∨
    ∀ next : Nat → Except Fault Reader, countTerm k >>= next = .error .tooManyTerms := by
  rcases Nat.lt_or_ge maxTerms (k + 1) with hk | hk
  · refine .inr fun next => ?_
    rw [show countTerm k = .error .tooManyTerms from if_pos hk]
    rfl
  · exact .inl hk

theorem valueOf_eq_ok_iff (f : Field) (t : Token) (v : Value) :
    valueOf f (some t) = .ok v ↔ Denotes f t v := by
  have hkind (w : Value) : (if w.kind = f.kind then Except.ok w else .error (.wrongKind f w)) =
      Except.ok (ε := Fault) v ↔ w.kind = f.kind ∧ w = v := by
    split
    · rename_i hk
      simp [hk]
    · rename_i hk
      simp [hk]
  constructor
  · intro h
    unfold valueOf at h
    cases t with
    | text s =>
      obtain ⟨hk, rfl⟩ := (hkind (.text s)).mp h
      exact .text s hk.symm
    | number source =>
      cases hd : Decimal.parse source with
      | error cause =>
        simp only [hd] at h
        cases h
      | ok d =>
        simp only [hd] at h
        obtain ⟨hk, rfl⟩ := (hkind (.number d)).mp h
        exact .number hk.symm hd
    | _ => cases h
  · intro h
    unfold valueOf
    cases h with
    | text s hk => exact (hkind (.text s)).mpr ⟨hk.symm, rfl⟩
    | number hk hd =>
      simp only [hd]
      exact (hkind _).mpr ⟨hk.symm, rfl⟩

section

variable (depthLimit termLimit : Nat)

/-- A reader with these limits accepts a token, and is left as another one. -/
inductive Reader.Accepts : Reader → Token → Reader → Prop where
  | not {g outer k} : k + 1 ≤ termLimit →
      Accepts ⟨.operand, g, outer, k⟩ .not
        ⟨.operand, { g with negations := g.negations + 1 }, outer, k + 1⟩
  | leftParen {g outer k} : outer.length + 1 ≤ depthLimit →
      Accepts ⟨.operand, g, outer, k⟩ .leftParen ⟨.operand, {}, g :: outer, k⟩
  | field {g outer k f} : k + 1 ≤ termLimit →
      Accepts ⟨.operand, g, outer, k⟩ (.field f) ⟨.comparison f, g, outer, k + 1⟩
  | inList {g outer k f} :
      Accepts ⟨.comparison f, g, outer, k⟩ .inList ⟨.listStart f, g, outer, k⟩
  | operator {g outer k f op} : (op.isTextOnly = true → f.kind = .text) →
      Accepts ⟨.comparison f, g, outer, k⟩ (.operator op) ⟨.value f op, g, outer, k⟩
  | listStart {g outer k f} :
      Accepts ⟨.listStart f, g, outer, k⟩ .leftParen ⟨.listValue f [], g, outer, k⟩
  | value {g outer k f op t v} : k + 1 ≤ termLimit → Denotes f t v →
      Accepts ⟨.value f op, g, outer, k⟩ t
        (complete ⟨.operand, g, outer, k + 1⟩ (.compare f op v))
  | listValue {g outer k f vs t v} : k + 1 ≤ termLimit → Denotes f t v →
      Accepts ⟨.listValue f vs, g, outer, k⟩ t ⟨.listEnd f (vs ++ [v]), g, outer, k + 1⟩
  | comma {g outer k f vs} :
      Accepts ⟨.listEnd f vs, g, outer, k⟩ .comma ⟨.listValue f vs, g, outer, k⟩
  | listEnd {g outer k f vs} :
      Accepts ⟨.listEnd f vs, g, outer, k⟩ .rightParen
        (complete ⟨.operand, g, outer, k⟩ (.isIn f vs))
  | and {g outer k n} :
      Accepts ⟨.connective n, g, outer, k⟩ .and ⟨.operand, { g with conjunct := some n }, outer, k⟩
  | or {g outer k n} :
      Accepts ⟨.connective n, g, outer, k⟩ .or
        ⟨.operand, { disjunct := some (g.disjoin n) }, outer, k⟩
  | rightParen {g g' outer k n} :
      Accepts ⟨.connective n, g', g :: outer, k⟩ .rightParen
        (complete ⟨.operand, g, outer, k⟩ (g'.disjoin n))

inductive Reader.AcceptsAll : Reader → List Token → Reader → Prop where
  | nil {r} : AcceptsAll r [] r
  | cons {r r₁ r' t ts} : Accepts depthLimit termLimit r t r₁ → AcceptsAll r₁ ts r' →
      AcceptsAll r (t :: ts) r'

end

theorem Reader.Accepts.step {r r' : Reader} {t : Token} (h : r.Accepts maxDepth maxTerms t r') :
    r.step t = .ok r' := by
  cases h with
  | not ht | field ht => simp [Reader.step, countTerm_of_le ht, bind, Except.bind]
  | @leftParen _ outer _ hd => exact if_neg (by change ¬ maxDepth < outer.length + 1; omega)
  | @operator _ _ _ f op hop =>
    refine if_neg fun h => ?_
    rw [Bool.and_eq_true, decide_eq_true_eq] at h
    rw [hop h.1] at h
    cases h.2
  | value ht hv | listValue ht hv =>
    simp [Reader.step, countTerm_of_le ht, (valueOf_eq_ok_iff _ _ _).mpr hv, bind, Except.bind,
      complete]
  | _ => rfl

theorem Reader.accepts_of_step {r r' : Reader} {t : Token} (h : r.step t = .ok r') :
    r.Accepts maxDepth maxTerms t r' := by
  obtain ⟨e, g, outer, k⟩ := r
  cases e with
  | operand =>
    cases t with
    | not =>
      obtain ⟨k', hk, h⟩ := bind_eq_ok h
      obtain ⟨rfl, ht⟩ := (countTerm_eq_ok_iff k k').mp hk
      cases h
      exact .not ht
    | leftParen =>
      change (if maxDepth < outer.length + 1 then _ else _) = _ at h
      split at h
      · cases h
      · cases h
        exact .leftParen (by omega)
    | field f =>
      obtain ⟨k', hk, h⟩ := bind_eq_ok h
      obtain ⟨rfl, ht⟩ := (countTerm_eq_ok_iff k k').mp hk
      cases h
      exact .field ht
    | _ => cases h
  | comparison f =>
    cases t with
    | inList =>
      cases h
      exact .inList
    | operator op =>
      change (if op.isTextOnly && f.kind = .numeric then _ else _) = _ at h
      split at h
      · cases h
      · rename_i hnot
        cases h
        refine .operator fun hop => ?_
        cases hk : f.kind with
        | text => rfl
        | numeric => exact absurd (by simp [hop, hk]) hnot
    | _ => cases h
  | listStart f =>
    cases t with
    | leftParen =>
      cases h
      exact .listStart
    | _ => cases h
  | value f op =>
    obtain ⟨k', hk, h⟩ := bind_eq_ok h
    obtain ⟨rfl, ht⟩ := (countTerm_eq_ok_iff k k').mp hk
    obtain ⟨v, hv, h⟩ := bind_eq_ok h
    cases h
    exact .value ht ((valueOf_eq_ok_iff f t v).mp hv)
  | listValue f vs =>
    obtain ⟨k', hk, h⟩ := bind_eq_ok h
    obtain ⟨rfl, ht⟩ := (countTerm_eq_ok_iff k k').mp hk
    obtain ⟨v, hv, h⟩ := bind_eq_ok h
    cases h
    exact .listValue ht ((valueOf_eq_ok_iff f t v).mp hv)
  | listEnd f vs =>
    cases t with
    | comma =>
      cases h
      exact .comma
    | rightParen =>
      cases h
      exact .listEnd
    | _ => cases h
  | connective n =>
    cases t with
    | and =>
      cases h
      exact .and
    | or =>
      cases h
      exact .or
    | rightParen =>
      cases outer with
      | nil => cases h
      | cons g' outer =>
        cases h
        exact .rightParen
    | _ => cases outer <;> cases h

theorem Reader.Accepts.steps_cons {r r' : Reader} {t : Token}
    (h : r.Accepts maxDepth maxTerms t r') (ts : List Token) :
    r.steps (t :: ts) = r'.steps ts := by
  rw [steps, List.foldlM_cons, h.step]
  rfl

theorem Reader.AcceptsAll.steps {r r' : Reader} {ts : List Token}
    (h : r.AcceptsAll maxDepth maxTerms ts r') : r.steps ts = .ok r' := by
  induction h with
  | nil => rfl
  | cons ht _ ih => rw [ht.steps_cons, ih]

section

variable {depthLimit termLimit : Nat} {r r' : Reader}

theorem Reader.AcceptsAll.append {r'' : Reader} {ts ts' : List Token}
    (h : r.AcceptsAll depthLimit termLimit ts r') (h' : r'.AcceptsAll depthLimit termLimit ts' r'') :
    r.AcceptsAll depthLimit termLimit (ts ++ ts') r'' := by
  induction h with
  | nil => exact h'
  | cons ht _ ih => exact .cons ht (ih h')

/-- Whatever its limits are, a reader has no other way to go on than the program, which may only be
stopped by limits of its own. -/
theorem Reader.Accepts.step_or {t : Token} (h : r.Accepts depthLimit termLimit t r') :
    r.step t = .ok r' ∨ r.step t = .error .tooDeep ∨ r.step t = .error .tooManyTerms := by
  cases h with
  | not _ =>
    exact (countTerm_or _).imp (fun ht => (Accepts.not ht).step) fun hfault => .inr (hfault _)
  | @leftParen _ outer _ _ =>
    rcases Nat.lt_or_ge maxDepth (outer.length + 1) with hd | hd
    · exact .inr (.inl (if_pos hd))
    · exact .inl (Accepts.leftParen hd).step
  | field _ =>
    exact (countTerm_or _).imp (fun ht => (Accepts.field ht).step) fun hfault => .inr (hfault _)
  | operator hop => exact .inl (Accepts.operator hop).step
  | value _ hv =>
    exact (countTerm_or _).imp (fun ht => (Accepts.value ht hv).step) fun hfault => .inr (hfault _)
  | listValue _ hv =>
    exact (countTerm_or _).imp (fun ht => (Accepts.listValue ht hv).step) fun hfault =>
      .inr (hfault _)
  | _ => exact .inl rfl

theorem Reader.Accepts.eq_of_step {r'' : Reader} {t : Token}
    (h : r.Accepts depthLimit termLimit t r') (hstep : r.step t = .ok r'') : r'' = r' := by
  rcases h.step_or with hok | hfault | hfault
  · exact Except.ok.inj (hstep.symm.trans hok)
  · cases hstep.symm.trans hfault
  · cases hstep.symm.trans hfault

theorem Reader.Accepts.fault_of_step {t : Token} {fault : Fault}
    (h : r.Accepts depthLimit termLimit t r') (hstep : r.step t = .error fault) :
    fault = .tooDeep ∨ fault = .tooManyTerms := by
  rcases h.step_or with hok | hfault | hfault
  · cases hstep.symm.trans hok
  · exact .inl (Except.error.inj (hstep.symm.trans hfault))
  · exact .inr (Except.error.inj (hstep.symm.trans hfault))

theorem Reader.Accepts.terms_eq {t : Token} (h : r.Accepts depthLimit termLimit t r') :
    r'.terms = r.terms + Filter.terms [t] ∧ (r.terms ≤ termLimit → r'.terms ≤ termLimit) := by
  cases h with
  | not ht | field ht => exact ⟨rfl, fun _ => ht⟩
  | value ht hv | listValue ht hv =>
    refine ⟨?_, fun _ => ht⟩
    rw [terms_cons_term hv.isTerm]
    rfl
  | _ => exact ⟨rfl, id⟩

end

theorem Reader.terms_steps {r r' : Reader} {ts : List Token} (h : r.steps ts = .ok r') :
    r'.terms = r.terms + Filter.terms ts ∧ (r.terms ≤ maxTerms → r'.terms ≤ maxTerms) := by
  refine foldlM_induction (P := fun ts r' => r'.terms = r.terms + Filter.terms ts ∧
    (r.terms ≤ maxTerms → r'.terms ≤ maxTerms)) h ⟨rfl, id⟩ fun t _ before r₁ r₂ h₁ h => ?_
  obtain ⟨hone, hle⟩ := (accepts_of_step h).terms_eq
  rw [terms_append, ← Nat.add_assoc, ← h₁.1]
  exact ⟨hone, hle ∘ h₁.2⟩

end OfferLedger.Filter
