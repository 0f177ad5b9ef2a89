import OfferLedger.Filter.Token

/-! # The grammar of filters

Which tokens a filter is derived from, by the levels of the grammar. Chains of `or` and `and` grow to the
right, so they associate to the left. A derivation carries a bound on the groups that it nests. -/
namespace OfferLedger.Filter

inductive Denotes (f : Field) : Token → Value → Prop where
  | text (s : String) : f.kind = .text → Denotes f (.text s) (.text s)
  | number {source : String} {d : Decimal} : f.kind = .numeric → Decimal.parse source = .ok d →
      Denotes f (.number source) (.number d)

inductive DenotesList (f : Field) : List Token → List Value → Prop where
  | one {t v} : Denotes f t v → DenotesList f [t] [v]
  | more {ts vs t v} : DenotesList f ts vs → Denotes f t v →
      DenotesList f (ts ++ [.comma, t]) (vs ++ [v])

inductive Level where
  | disjunction
  | conjunction
  | negation
  | primary
  deriving DecidableEq, Repr

/-- The tokens derive the filter at a level, with at most so many groups inside one another. -/
inductive Derives : Level → Nat → List Token → Filter → Prop where
  | conjunction {d ts n} : Derives .conjunction d ts n → Derives .disjunction d ts n
  | or {d ts ts' l r} : Derives .disjunction d ts l → Derives .conjunction d ts' r →
      Derives .disjunction d (ts ++ .or :: ts') (.or l r)
  | negation {d ts n} : Derives .negation d ts n → Derives .conjunction d ts n
  | and {d ts ts' l r} : Derives .conjunction d ts l → Derives .negation d ts' r →
      Derives .conjunction d (ts ++ .and :: ts') (.and l r)
  | primary {d ts n} : Derives .primary d ts n → Derives .negation d ts n
  | not {d ts n} : Derives .negation d ts n → Derives .negation d (.not :: ts) (.not n)
  | group {d ts n} : Derives .disjunction d ts n →
      Derives .primary (d + 1) (.leftParen :: ts ++ [.rightParen]) n
  | compare {d f op t v} : (op.isTextOnly = true → f.kind = .text) → Denotes f t v →
      Derives .primary d [.field f, .operator op, t] (.compare f op v)
  | isIn {d f ts vs} : DenotesList f ts vs →
      Derives .primary d (.field f :: .inList :: .leftParen :: ts ++ [.rightParen]) (.isIn f vs)

def Token.isTerm : Token → Bool
  | .field _ | .text _ | .number _ | .not => true
  | _ => false

def terms (ts : List Token) : Nat := ts.countP Token.isTerm

theorem terms_append (ts ts' : List Token) : terms (ts ++ ts') = terms ts + terms ts' :=
  List.countP_append

theorem terms_cons_term {t : Token} (ht : t.isTerm = true) (ts : List Token) :
    terms (t :: ts) = terms ts + 1 :=
  List.countP_cons_of_pos ht

theorem terms_cons_mark {t : Token} (ht : t.isTerm = false) (ts : List Token) :
    terms (t :: ts) = terms ts :=
  List.countP_cons_of_neg (by rw [ht]; exact Bool.false_ne_true)

theorem terms_group (ts : List Token) :
    terms (.leftParen :: ts ++ [.rightParen]) = terms ts := by
  rw [List.cons_append, terms_cons_mark rfl, terms_append, terms_cons_mark rfl]
  rfl

theorem terms_isIn (f : Field) (ts : List Token) :
    terms (.field f :: .inList :: .leftParen :: ts ++ [.rightParen]) = terms ts + 1 := by
  rw [List.cons_append, List.cons_append, terms_cons_term rfl, terms_cons_mark rfl, terms_group]

theorem Denotes.kind_eq {f : Field} {t : Token} {v : Value} (h : Denotes f t v) :
    v.kind = f.kind := by
  cases h with
  | text s hk => exact hk.symm
  | number hk _ => exact hk.symm

theorem Denotes.isTerm {f : Field} {t : Token} {v : Value} (h : Denotes f t v) :
    t.isTerm = true := by
  cases h <;> rfl

theorem Denotes.terms_compare {f : Field} {t : Token} {v : Value} (h : Denotes f t v)
    (op : Operator) : terms [.field f, .operator op, t] = 2 := by
  rw [terms_cons_term rfl, terms_cons_mark rfl, terms_cons_term h.isTerm]
  rfl

theorem DenotesList.wellTyped {f : Field} {ts : List Token} {vs : List Value}
    (h : DenotesList f ts vs) : vs ≠ [] ∧ ∀ v ∈ vs, v.kind = f.kind := by
  induction h with
  | one h => exact ⟨List.cons_ne_nil _ _, fun w hw => List.mem_singleton.mp hw ▸ h.kind_eq⟩
  | more _ h ih =>
    refine ⟨List.concat_ne_nil _ _, fun w hw => ?_⟩
    rcases List.mem_append.mp hw with hw | hw
    · exact ih.2 w hw
    · exact List.mem_singleton.mp hw ▸ h.kind_eq

theorem Derives.wellTyped {level : Level} {d : Nat} {ts : List Token} {n : Filter}
    (h : Derives level d ts n) : n.WellTyped := by
  induction h with
  | conjunction _ ih => exact ih
  | or _ _ ihl ihr => exact ⟨ihl, ihr⟩
  | negation _ ih => exact ih
  | and _ _ ihl ihr => exact ⟨ihl, ihr⟩
  | primary _ ih => exact ih
  | not _ ih => exact ih
  | group _ ih => exact ih
  | compare hop h => exact ⟨h.kind_eq, hop⟩
  | isIn h => exact h.wellTyped

end OfferLedger.Filter
