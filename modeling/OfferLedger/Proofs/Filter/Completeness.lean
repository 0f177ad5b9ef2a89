import OfferLedger.Proofs.Filter.Steps

/-! # Derived tokens are read

A reader that waits for an operand reads the tokens of one and is left with it, if the groups and the
terms stay within their limits. Which filters it has to its left decides at which level the operand
may stand. -/
namespace OfferLedger.Filter

theorem negate_not (k : Nat) (n : Filter) : negate k (.not n) = .not (negate k n) := by
  induction k with
  | zero => rfl
  | succ k ih => rw [negate, ih, negate]

section

variable {depthLimit termLimit : Nat} {f : Field} {ts : List Token} {g : Group}
  {outer : List Group} {k : Nat}

theorem DenotesList.accepted {vs : List Value} (h : DenotesList f ts vs)
    (ht : k + terms ts ≤ termLimit) :
    Reader.AcceptsAll depthLimit termLimit ⟨.listValue f [], g, outer, k⟩ ts
      ⟨.listEnd f vs, g, outer, k + terms ts⟩ := by
  induction h with
  | one hv =>
    rw [terms_cons_term hv.isTerm] at ht ⊢
    exact .cons (.listValue ht hv) .nil
  | @more ts vs t v _ hv ih =>
    rw [terms_append, terms_cons_mark rfl, terms_cons_term hv.isTerm] at ht ⊢
    have hk : k + terms ts + 1 ≤ termLimit := ht
    exact (ih (by omega)).append (.cons .comma (.cons (.listValue hk hv) .nil))

theorem DenotesList.accepted_isIn {vs : List Value} (h : DenotesList f ts vs)
    (ht : k + 1 + terms ts ≤ termLimit) :
    Reader.AcceptsAll depthLimit termLimit ⟨.operand, g, outer, k⟩
      (.field f :: .inList :: .leftParen :: ts ++ [.rightParen])
      (Reader.complete ⟨.operand, g, outer, k + 1 + terms ts⟩ (.isIn f vs)) := by
  have hfield : k + 1 ≤ termLimit := by omega
  exact .cons (.field hfield) (.cons .inList (.cons .listStart
    ((h.accepted ht).append (.cons .listEnd .nil))))

theorem Denotes.accepted_compare {op : Operator} {t : Token} {v : Value} (h : Denotes f t v)
    (hop : op.isTextOnly = true → f.kind = .text) (ht : k + 2 ≤ termLimit) :
    Reader.AcceptsAll depthLimit termLimit ⟨.operand, g, outer, k⟩ [.field f, .operator op, t]
      (Reader.complete ⟨.operand, g, outer, k + 2⟩ (.compare f op v)) := by
  have hfield : k + 1 ≤ termLimit := by omega
  exact .cons (.field hfield) (.cons (.operator hop) (.cons (.value ht h) .nil))

theorem accepted_group {g' : Group} {n : Filter} {k' : Nat} (hd : outer.length + 1 ≤ depthLimit)
    (h : Reader.AcceptsAll depthLimit termLimit ⟨.operand, {}, g :: outer, k⟩ ts
      ⟨.connective n, g', g :: outer, k'⟩) :
    Reader.AcceptsAll depthLimit termLimit ⟨.operand, g, outer, k⟩
      (.leftParen :: ts ++ [.rightParen])
      (Reader.complete ⟨.operand, g, outer, k'⟩ (g'.disjoin n)) :=
  .cons (.leftParen hd) (h.append (.cons .rightParen .nil))

end

def Level.Starts : Level → Group → Prop
  | disjunction, g => g = {}
  | conjunction, g => g.conjunct = none ∧ g.negations = 0
  | negation, _ | primary, _ => True

def Level.Leaves (outer : List Group) (k : Nat) : Level → Group → Filter → Reader → Prop
  | disjunction, _, n, r => ∃ disjunct last, Group.disjoin ⟨disjunct, none, 0⟩ last = n ∧
      r = ⟨.connective last, ⟨disjunct, none, 0⟩, outer, k⟩
  | conjunction, g, n, r => r = ⟨.connective n, g, outer, k⟩
  | negation, g, n, r | primary, g, n, r => r = Reader.complete ⟨.operand, g, outer, k⟩ n

/-- What is derived is accepted by a reader whose limits allow it, and leaves the reader as its level
says. -/
theorem Derives.accepted {depthLimit termLimit : Nat} {level : Level} {d : Nat} {ts : List Token}
    {n : Filter} (h : Derives level d ts n) (g : Group) (outer : List Group) (k : Nat)
    (hg : level.Starts g) (hd : outer.length + d ≤ depthLimit) (ht : k + terms ts ≤ termLimit) :
    ∃ r, Reader.AcceptsAll depthLimit termLimit ⟨.operand, g, outer, k⟩ ts r ∧
      level.Leaves outer (k + terms ts) g n r := by
  induction h generalizing g outer k with
  | conjunction _ ih =>
    subst hg
    obtain ⟨r, h, rfl⟩ := ih {} outer k ⟨rfl, rfl⟩ hd ht
    exact ⟨_, h, none, _, rfl, rfl⟩
  | @or d ts ts' l r _ _ ihl ihr =>
    rw [terms_append, terms_cons_mark rfl, ← Nat.add_assoc] at ht ⊢
    obtain ⟨_, hl, disjunct, last, rfl, rfl⟩ := ihl g outer k hg hd (by omega)
    -- The chain so far becomes the operand to the left of the next `or`.
    obtain ⟨_, hr, rfl⟩ := ihr ⟨some (Group.disjoin ⟨disjunct, none, 0⟩ last), none, 0⟩ outer
      (k + terms ts) ⟨rfl, rfl⟩ hd ht
    exact ⟨_, hl.append (.cons .or hr), some _, r, rfl, rfl⟩
  | negation _ ih =>
    obtain ⟨_, h, rfl⟩ := ih g outer k trivial hd ht
    obtain ⟨disjunct, conjunct, negations⟩ := g
    obtain ⟨rfl, rfl⟩ : conjunct = none ∧ negations = 0 := hg
    exact ⟨_, h, rfl⟩
  | @and d ts ts' l r _ _ ihl ihr =>
    rw [terms_append, terms_cons_mark rfl, ← Nat.add_assoc] at ht ⊢
    obtain ⟨_, hl, rfl⟩ := ihl g outer k hg hd (by omega)
    obtain ⟨disjunct, conjunct, negations⟩ := g
    obtain ⟨rfl, rfl⟩ : conjunct = none ∧ negations = 0 := hg
    obtain ⟨_, hr, rfl⟩ := ihr ⟨disjunct, some l, 0⟩ outer (k + terms ts) trivial hd ht
    exact ⟨_, hl.append (.cons .and hr), rfl⟩
  | primary _ ih => exact ih g outer k trivial hd ht
  | @not d ts n _ ih =>
    rw [terms_cons_term rfl, Nat.add_comm (terms ts), ← Nat.add_assoc] at ht ⊢
    obtain ⟨_, h, rfl⟩ := ih { g with negations := g.negations + 1 } outer (k + 1) trivial hd ht
    have hnot : k + 1 ≤ termLimit := by omega
    refine ⟨_, .cons (.not hnot) h, ?_⟩
    simp only [Level.Leaves, Reader.complete, negate, negate_not]
    rfl
  | @group d ts n _ ih =>
    rw [terms_group] at ht ⊢
    obtain ⟨_, h, disjunct, last, rfl, rfl⟩ := ih {} (g :: outer) k rfl
      (by rw [List.length_cons]; omega) ht
    exact ⟨_, accepted_group (by omega) h, rfl⟩
  | compare hop hv =>
    rw [hv.terms_compare] at ht ⊢
    exact ⟨_, hv.accepted_compare hop ht, rfl⟩
  | isIn h =>
    rw [terms_isIn, Nat.add_comm (terms _), ← Nat.add_assoc] at ht ⊢
    exact ⟨_, h.accepted_isIn ht, rfl⟩

theorem Derives.steps {level : Level} {d : Nat} {ts : List Token} {n : Filter}
    (h : Derives level d ts n) (g : Group) (outer : List Group) (k : Nat) (hg : level.Starts g)
    (hd : outer.length + d ≤ maxDepth) (ht : k + terms ts ≤ maxTerms) :
    ∃ r, Reader.steps ⟨.operand, g, outer, k⟩ ts = .ok r ∧
      level.Leaves outer (k + terms ts) g n r := by
  obtain ⟨r, hr, hleaves⟩ := h.accepted g outer k hg hd ht
  exact ⟨r, hr.steps, hleaves⟩

end OfferLedger.Filter
