import OfferLedger.Proofs.Filter.Completeness

/-! # Read tokens are derived

What a reader has taken stands for the tokens that it has read: complete operands to the left of an `or`
or an `and`, the `not`s behind them, and the begin of an operand, in the innermost group as in those
around it. One token more keeps this, and at the end nothing but a filter is left. -/
namespace OfferLedger.Filter

inductive Before (connective : Token) (level : Level) (d : Nat) :
    List Token → Option Filter → Prop where
  | none : Before connective level d [] none
  | some {ts l} : Derives level d ts l → Before connective level d (ts ++ [connective]) (some l)

/-- A group waits for an operand. -/
inductive Waits (d : Nat) : List Token → Group → Prop where
  | mk {a b disjunct conjunct k} : Before .or .disjunction d a disjunct →
      Before .and .conjunction d b conjunct →
      Waits d (a ++ b ++ List.replicate k .not) ⟨disjunct, conjunct, k⟩

/-- A group could end with a last operand of `or`. -/
inductive Stands (d : Nat) : List Token → Group → Filter → Prop where
  | mk {a b disjunct n} : Before .or .disjunction d a disjunct → Derives .conjunction d b n →
      Stands d (a ++ b) ⟨disjunct, none, 0⟩ n

inductive Opened : Nat → List Token → List Group → Prop where
  | outermost : Opened maxDepth [] []
  | group {d before outer ts g} : Opened (d + 1) before outer → Waits (d + 1) ts g →
      Opened d (before ++ ts ++ [.leftParen]) (g :: outer)

inductive Begun : Expecting → List Token → Prop where
  | operand : Begun .operand []
  | comparison (f : Field) : Begun (.comparison f) [.field f]
  | listStart (f : Field) : Begun (.listStart f) [.field f, .inList]
  | value {f : Field} {op : Operator} : (op.isTextOnly = true → f.kind = .text) →
      Begun (.value f op) [.field f, .operator op]
  | listFirst (f : Field) : Begun (.listValue f []) [.field f, .inList, .leftParen]
  | listNext {f ts vs} : DenotesList f ts vs →
      Begun (.listValue f vs) (.field f :: .inList :: .leftParen :: (ts ++ [.comma]))
  | listEnd {f ts vs} : DenotesList f ts vs →
      Begun (.listEnd f vs) (.field f :: .inList :: .leftParen :: ts)

inductive Reads : List Token → Reader → Prop where
  | begun {d before ts p e g outer k} : Opened d before outer → Waits d ts g → Begun e p →
      Reads (before ++ ts ++ p) ⟨e, g, outer, k⟩
  | connective {d before ts g n outer k} : Opened d before outer → Stands d ts g n →
      Reads (before ++ ts) ⟨.connective n, g, outer, k⟩

section

variable {d : Nat} {ts p : List Token} {g : Group} {n : Filter}

theorem Derives.negate (h : Derives .negation d ts n) (k : Nat) :
    Derives .negation d (List.replicate k .not ++ ts) (negate k n) := by
  induction k with
  | zero => exact h
  | succ k ih => exact .not ih

theorem Before.conjoin {b : List Token} {conjunct : Option Filter}
    (hb : Before .and .conjunction d b conjunct) (h : Derives .negation d ts n)
    (disjunct : Option Filter) (k : Nat) :
    Derives .conjunction d (b ++ ts) (Group.conjoin ⟨disjunct, conjunct, k⟩ n) := by
  cases hb with
  | none => exact .negation h
  | some hl =>
    rw [List.append_assoc]
    exact .and hl h

theorem Stands.derives (h : Stands d ts g n) : Derives .disjunction d ts (g.disjoin n) := by
  obtain ⟨hd, hn⟩ := h
  cases hd with
  | none => exact .conjunction hn
  | some hl =>
    rw [List.append_assoc]
    exact .or hl hn

theorem Stands.and (h : Stands d ts g n) :
    Waits d (ts ++ [.and]) { g with conjunct := some n } := by
  obtain ⟨hd, hn⟩ := h
  have hw := Waits.mk (k := 0) hd (.some hn)
  rwa [List.replicate_zero, List.append_nil, ← List.append_assoc] at hw

theorem Stands.or (h : Stands d ts g n) :
    Waits d (ts ++ [.or]) { disjunct := some (g.disjoin n) } := by
  have hw := Waits.mk (k := 0) (.some h.derives) .none
  rwa [List.replicate_zero, List.append_nil, List.append_nil] at hw

theorem waits_nil (d : Nat) : Waits d [] {} := .mk (k := 0) .none .none

theorem Waits.not (h : Waits d ts g) :
    Waits d (ts ++ [.not]) { g with negations := g.negations + 1 } := by
  obtain ⟨hd, hc⟩ := h
  rw [List.append_assoc, ← List.replicate_succ']
  exact .mk hd hc

theorem Waits.complete (h : Waits d ts g) (hp : Derives .primary d p n) :
    Stands d (ts ++ p) { g with conjunct := none, negations := 0 }
      (g.conjoin (negate g.negations n)) := by
  obtain ⟨hd, hc⟩ := h
  rw [List.append_assoc, List.append_assoc]
  exact .mk hd (hc.conjoin ((Derives.primary hp).negate _) _ _)

theorem Opened.length_add {before : List Token} {outer : List Group} (h : Opened d before outer) :
    outer.length + d = maxDepth := by
  induction h with
  | outermost => rfl
  | group _ _ ih =>
    rw [List.length_cons]
    omega

end

theorem Reads.complete {d : Nat} {before ts p : List Token} {g : Group} {outer : List Group}
    {n : Filter} {k : Nat} (ho : Opened d before outer) (hw : Waits d ts g)
    (hp : Derives .primary d p n) :
    Reads (before ++ ts ++ p) (Reader.complete ⟨.operand, g, outer, k⟩ n) := by
  rw [List.append_assoc]
  exact .connective ho (hw.complete hp)

theorem Reads.begin {d : Nat} {before ts p p' : List Token} {e : Expecting} {g : Group}
    {outer : List Group} {k : Nat} {t : Token} (ho : Opened d before outer) (hw : Waits d ts g)
    (hb : Begun e p') (hp : p' = p ++ [t]) :
    Reads (before ++ ts ++ p ++ [t]) ⟨e, g, outer, k⟩ := by
  rw [List.append_assoc _ p, ← hp]
  exact .begun ho hw hb

theorem Reads.step {ts : List Token} {r r' : Reader} {t : Token} (hr : Reads ts r)
    (h : r.Accepts maxDepth maxTerms t r') : Reads (ts ++ [t]) r' := by
  cases h with
  | not ht =>
    obtain ⟨ho, hw, ⟨⟩⟩ := hr
    rw [List.append_nil, List.append_assoc, ← List.append_nil (_ ++ _)]
    exact .begun ho hw.not .operand
  | @leftParen g outer k hd =>
    obtain @⟨d, before, ts, _, _, _, _, _, ho, hw, ⟨⟩⟩ := hr
    have hlen := ho.length_add
    obtain ⟨d, rfl⟩ : ∃ d', d = d' + 1 := ⟨d - 1, by omega⟩
    rw [List.append_nil, ← List.append_nil (_ ++ _), ← List.append_nil (_ ++ _)]
    exact .begun (.group ho hw) (waits_nil d) .operand
  | @field g outer k f ht =>
    obtain ⟨ho, hw, ⟨⟩⟩ := hr
    exact .begin ho hw (.comparison f) rfl
  | @inList g outer k f =>
    obtain ⟨ho, hw, ⟨⟩⟩ := hr
    exact .begin ho hw (.listStart f) rfl
  | operator hop =>
    obtain ⟨ho, hw, ⟨⟩⟩ := hr
    exact .begin ho hw (.value hop) rfl
  | @listStart g outer k f =>
    obtain ⟨ho, hw, ⟨⟩⟩ := hr
    exact .begin ho hw (.listFirst f) rfl
  | value ht hv =>
    obtain ⟨ho, hw, hb⟩ := hr
    cases hb with
    | value hop =>
      rw [List.append_assoc _ [_, _]]
      exact .complete ho hw (.compare hop hv)
  | listValue ht hv =>
    obtain ⟨ho, hw, hb⟩ := hr
    cases hb with
    | listFirst => exact .begin ho hw (.listEnd (.one hv)) rfl
    | listNext hvs => exact .begin ho hw (.listEnd (.more hvs hv)) (by simp)
  | comma =>
    obtain ⟨ho, hw, hb⟩ := hr
    cases hb with
    | listEnd hvs => exact .begin ho hw (.listNext hvs) rfl
  | listEnd =>
    obtain ⟨ho, hw, hb⟩ := hr
    cases hb with
    | listEnd hvs =>
      rw [List.append_assoc _ (_ :: _)]
      exact .complete ho hw (.isIn hvs)
  | and =>
    obtain ⟨-, -, ⟨⟩⟩ | ⟨ho, hs⟩ := hr
    rw [List.append_assoc, ← List.append_nil (_ ++ _)]
    exact .begun ho hs.and .operand
  | or =>
    obtain ⟨-, -, ⟨⟩⟩ | ⟨ho, hs⟩ := hr
    rw [List.append_assoc, ← List.append_nil (_ ++ _)]
    exact .begun ho hs.or .operand
  | rightParen =>
    obtain ⟨-, -, ⟨⟩⟩ | ⟨ho, hs⟩ := hr
    obtain _ | ⟨ho, hw⟩ := ho
    have hp := Derives.group hs.derives
    rw [List.append_assoc, List.append_assoc]
    exact .complete ho hw hp

theorem Reads.finish {ts : List Token} {r : Reader} {n : Filter} (hr : Reads ts r)
    (h : r.finish = .ok n) : Derives .disjunction maxDepth ts n := by
  cases hr with
  | begun _ _ hb =>
    cases hb with
    | value | listFirst | listNext =>
      simp only [Reader.finish] at h
      split at h <;> cases h
    | _ => cases h
  | connective ho hs =>
    cases ho with
    | outermost =>
      cases h
      exact hs.derives
    | group _ _ => cases h

theorem reads_of_steps {ts : List Token} {r : Reader} (h : Reader.steps {} ts = .ok r) :
    Reads ts r := by
  have hstart : Reads [] {} := .begun .outermost (waits_nil _) .operand
  exact foldlM_induction h hstart fun t _ _ _ _ hr ht => hr.step (Reader.accepts_of_step ht)

theorem parse_eq_ok_iff_steps {input : String} {tokens : List Placed}
    (h : Token.tokenize input = .ok tokens) (n : Filter) :
    parse input = .ok n ↔
      ∃ r, Reader.steps {} (tokens.map (·.token)) = .ok r ∧ r.finish = .ok n := by
  rw [← Reader.run_eq_ok_iff input.utf8ByteSize, parse, h]
  rfl

theorem derives_of_parse {input : String} {n : Filter} (h : parse input = .ok n) :
    ∃ tokens, Token.tokenize input = .ok tokens ∧
      Derives .disjunction maxDepth (tokens.map (·.token)) n ∧
      terms (tokens.map (·.token)) ≤ maxTerms := by
  cases htokens : Token.tokenize input with
  | error e =>
    rw [parse, htokens] at h
    cases h
  | ok tokens =>
    obtain ⟨r, hsteps, hfinish⟩ := (parse_eq_ok_iff_steps htokens n).mp h
    obtain ⟨hterms, hle⟩ := Reader.terms_steps hsteps
    refine ⟨tokens, rfl, (reads_of_steps hsteps).finish hfinish, ?_⟩
    have hmax : r.terms ≤ maxTerms := hle (Nat.zero_le _)
    have hcount : r.terms = 0 + terms (tokens.map (·.token)) := hterms
    omega

theorem parse_of_derives {input : String} {tokens : List Placed} {n : Filter}
    (h : Token.tokenize input = .ok tokens)
    (hd : Derives .disjunction maxDepth (tokens.map (·.token)) n)
    (ht : terms (tokens.map (·.token)) ≤ maxTerms) : parse input = .ok n := by
  obtain ⟨r, hsteps, disjunct, last, hlast, rfl⟩ := hd.steps {} [] 0 rfl (by decide)
    (by rwa [Nat.zero_add])
  exact (parse_eq_ok_iff_steps h n).mpr ⟨_, hsteps, congrArg _ hlast⟩

theorem wellTyped_of_parse {input : String} {n : Filter} (h : parse input = .ok n) :
    n.WellTyped := by
  obtain ⟨_, -, hd, -⟩ := derives_of_parse h
  exact hd.wellTyped

/-- A text that is cut into tokens is a filter exactly when its tokens derive one from the grammar, with
at most 20 groups inside one another and at most 500 terms; it is then the filter of that
derivation. -/
theorem parse_eq_ok_iff {input : String} {tokens : List Placed}
    (h : Token.tokenize input = .ok tokens) (n : Filter) :
    parse input = .ok n ↔
      Derives .disjunction 20 (tokens.map (·.token)) n ∧ terms (tokens.map (·.token)) ≤ 500 := by
  constructor
  · intro hn
    obtain ⟨tokens', htokens, hd, ht⟩ := derives_of_parse hn
    rw [h] at htokens
    cases htokens
    exact ⟨hd, ht⟩
  · rintro ⟨hd, ht⟩
    exact parse_of_derives h hd ht

/-- A negation binds tighter than `or`, and a list keeps the order of its values. -/
theorem parse_negation_or_list :
    parse "not uf eq 'SP' or city in ('B', 'A')" = .ok
      (.or (.not (.compare .uf .eq (.text "SP"))) (.isIn .city [.text "B", .text "A"])) := by
  have htokens : Token.tokenize "not uf eq 'SP' or city in ('B', 'A')" = .ok
      [⟨.not, 0⟩, ⟨.field .uf, 4⟩, ⟨.operator .eq, 7⟩, ⟨.text "SP", 10⟩, ⟨.or, 15⟩,
        ⟨.field .city, 18⟩, ⟨.inList, 23⟩, ⟨.leftParen, 26⟩, ⟨.text "B", 27⟩, ⟨.comma, 30⟩,
        ⟨.text "A", 32⟩, ⟨.rightParen, 35⟩] := by
    rfl
  have hleft : Derives .disjunction 20 [.not, .field .uf, .operator .eq, .text "SP"]
      (.not (.compare .uf .eq (.text "SP"))) :=
    .conjunction (.negation (.not (.primary (.compare (by decide) (.text "SP" rfl)))))
  have hright : Derives .conjunction 20
      [.field .city, .inList, .leftParen, .text "B", .comma, .text "A", .rightParen]
      (.isIn .city [.text "B", .text "A"]) :=
    .negation (.primary (.isIn (.more (.one (.text "B" rfl)) (.text "A" rfl))))
  exact (parse_eq_ok_iff htokens _).mpr ⟨.or hleft hright, by decide⟩

end OfferLedger.Filter
