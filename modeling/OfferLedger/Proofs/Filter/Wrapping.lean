import OfferLedger.Proofs.Filter.RoundTrip

/-! # Filters in parentheses

A text that is read as a filter is cut into the same tokens wherever a parenthesis closes behind it, and
these derive the same filter inside a group as long as the groups do not nest too deeply. So filters can be
put together from their texts. -/
namespace OfferLedger.Filter

/-- The tokens of a text, none if it cannot be cut into tokens. -/
def tokensOf (input : String) : List Token :=
  match Token.tokenize input with
  | .ok placed => placed.map (·.token)
  | .error _ => []

/-- The greatest number of parentheses that are open inside a group, its own included, if `k` are open
around the tokens; 0 without a group. The parentheses of a list make none. -/
def nestingFrom : Nat → List Token → Nat
  | _, [] => 0
  | k, .inList :: .leftParen :: ts => nestingFrom (k + 1) ts
  | k, .leftParen :: ts => max (k + 1) (nestingFrom (k + 1) ts)
  | k, .rightParen :: ts => nestingFrom (k - 1) ts
  | k, _ :: ts => nestingFrom k ts

def nesting (ts : List Token) : Nat := nestingFrom 0 ts

/-- How deep groups inside one another reach below `k` others. -/
def reach (k groups : Nat) : Nat := if groups = 0 then 0 else k + groups

theorem reach_succ (k e : Nat) : reach k (e + 1) = max (k + 1) (reach (k + 1) e) := by
  rcases Nat.eq_zero_or_pos e with rfl | he
  · simp [reach]
  · rw [reach, reach, if_neg (by omega), if_neg (by omega)]
    omega

theorem reach_max (k e e' : Nat) : reach k (max e e') = max (reach k e) (reach k e') := by
  unfold reach
  split_ifs <;> omega

/-- The tokens hold so many groups inside one another, and no parenthesis is left open. -/
def Nests (groups : Nat) (ts : List Token) : Prop :=
  ∀ k rest, nestingFrom k (ts ++ rest) = max (reach k groups) (nestingFrom k rest)

section

variable {e e' : Nat} {ts ts' : List Token}

theorem Nests.nesting_eq (h : Nests e ts) : nesting ts = e := by
  rw [nesting, ← List.append_nil ts, h, reach, nestingFrom]
  split <;> omega

theorem nests_zero (h : ∀ k rest, nestingFrom k (ts ++ rest) = nestingFrom k rest) : Nests 0 ts := by
  intro k rest
  rw [h, show reach k 0 = 0 from rfl, Nat.zero_max]

theorem Nests.join {connective : Token} (hl : Nests e ts) (hr : Nests e' ts')
    (hc : ∀ k rest, nestingFrom k (connective :: rest) = nestingFrom k rest) :
    Nests (max e e') (ts ++ connective :: ts') := by
  intro k rest
  rw [List.append_assoc, hl, List.cons_append, hc, hr, reach_max, Nat.max_assoc]

theorem Nests.group (h : Nests e ts) : Nests (e + 1) (.leftParen :: ts ++ [.rightParen]) := by
  intro k rest
  calc nestingFrom k (.leftParen :: ts ++ [.rightParen] ++ rest)
      = max (k + 1) (nestingFrom (k + 1) (ts ++ .rightParen :: rest)) := by
        rw [List.append_assoc]
        rfl
    _ = max (k + 1) (max (reach (k + 1) e) (nestingFrom k rest)) := by
      rw [h]
      rfl
    _ = max (reach k (e + 1)) (nestingFrom k rest) := by rw [reach_succ, Nat.max_assoc]

theorem DenotesList.nestingFrom_append {f : Field} {vs : List Value} (h : DenotesList f ts vs)
    (k : Nat) (rest : List Token) : nestingFrom k (ts ++ rest) = nestingFrom k rest := by
  induction h generalizing rest with
  | one hv => cases hv <;> rfl
  | more _ hv ih =>
    rw [List.append_assoc, ih]
    cases hv <;> rfl

end

/-- What is derived can be derived with as many groups inside one another as its tokens hold. -/
theorem Derives.exists_nests {level : Level} {d : Nat} {ts : List Token} {n : Filter}
    (h : Derives level d ts n) : ∃ e ≤ d, Derives level e ts n ∧ Nests e ts := by
  induction h with
  | conjunction _ ih =>
    obtain ⟨e, hle, hd, hn⟩ := ih
    exact ⟨e, hle, .conjunction hd, hn⟩
  | or _ _ ihl ihr =>
    obtain ⟨e, hle, hl, hn⟩ := ihl
    obtain ⟨e', hle', hr, hn'⟩ := ihr
    exact ⟨max e e', Nat.max_le.mpr ⟨hle, hle'⟩,
      .or (hl.mono (Nat.le_max_left _ _)) (hr.mono (Nat.le_max_right _ _)),
      hn.join hn' fun _ _ => rfl⟩
  | negation _ ih =>
    obtain ⟨e, hle, hd, hn⟩ := ih
    exact ⟨e, hle, .negation hd, hn⟩
  | and _ _ ihl ihr =>
    obtain ⟨e, hle, hl, hn⟩ := ihl
    obtain ⟨e', hle', hr, hn'⟩ := ihr
    exact ⟨max e e', Nat.max_le.mpr ⟨hle, hle'⟩,
      .and (hl.mono (Nat.le_max_left _ _)) (hr.mono (Nat.le_max_right _ _)),
      hn.join hn' fun _ _ => rfl⟩
  | primary _ ih =>
    obtain ⟨e, hle, hd, hn⟩ := ih
    exact ⟨e, hle, .primary hd, hn⟩
  | not _ ih =>
    obtain ⟨e, hle, hd, hn⟩ := ih
    exact ⟨e, hle, .not hd, hn⟩
  | group _ ih =>
    obtain ⟨e, hle, hd, hn⟩ := ih
    exact ⟨e + 1, Nat.succ_le_succ hle, .group hd, hn.group⟩
  | compare hop hv =>
    refine ⟨0, Nat.zero_le _, .compare hop hv, nests_zero fun k rest => ?_⟩
    cases hv <;> rfl
  | @isIn d f ts vs hvs =>
    refine ⟨0, Nat.zero_le _, .isIn hvs, nests_zero fun k rest => ?_⟩
    calc nestingFrom k (.field f :: .inList :: .leftParen :: ts ++ [.rightParen] ++ rest)
        = nestingFrom (k + 1) (ts ++ .rightParen :: rest) := by
          rw [List.append_assoc]
          rfl
      _ = nestingFrom k rest := hvs.nestingFrom_append (k + 1) _

theorem Derives.iff_nesting {level : Level} {d : Nat} {ts : List Token} {n : Filter}
    (h : Derives level d ts n) (d' : Nat) : Derives level d' ts n ↔ nesting ts ≤ d' := by
  constructor
  · intro h'
    obtain ⟨e, hle, -, hn⟩ := h'.exists_nests
    exact hn.nesting_eq ▸ hle
  · intro hle
    obtain ⟨e, -, hd, hn⟩ := h.exists_nests
    exact hd.mono (hn.nesting_eq ▸ hle)

theorem Token.Ends.append {t : Token} {rest after : List Char} (h : t.Ends rest)
    (hafter : Apart after) : t.Ends (rest ++ after) := by
  cases rest with
  | nil => exact hafter.ends t
  | cons c rest =>
    cases t with
    | leftParen | rightParen | comma | text => trivial
    | number source =>
      refine ⟨h.1, fun hpoint d tail hrest => ?_⟩
      cases rest with
      | nil =>
        cases hrest
        exact hafter.not_digit d rfl
      | cons d' rest =>
        cases hrest
        exact h.2 hpoint d rest rfl
    | _ => exact h

theorem Laid.cuts {o : Nat} {cs rest : List Char} {placed : List Placed} {ts : List Token}
    (h : Laid o cs placed) (hrest : Apart rest) (hts : Cuts rest ts) :
    Cuts (cs ++ rest) (placed.map (·.token) ++ ts) := by
  induction h with
  | nil => exact hts
  | blank hc _ ih => exact ih.blank hc
  | lexeme hlex hend _ ih =>
    rw [List.append_assoc]
    exact hlex.cuts (hend.append hrest) ih

section

variable {f g : String} {m n : Filter}

theorem derives_tokensOf (h : parse f = .ok m) : Derives .disjunction maxDepth (tokensOf f) m := by
  obtain ⟨placed, htokens, hd, -⟩ := derives_of_parse h
  rw [tokensOf, htokens]
  exact hd

theorem Cuts.inParens {rest : List Char} {ts : List Token} (h : Cuts rest ts)
    (hf : parse f = .ok m) : Cuts ('(' :: (f.toList ++ ')' :: rest))
      ((.leftParen :: tokensOf f ++ [.rightParen]) ++ ts) := by
  obtain ⟨placed, htokens, -⟩ := derives_of_parse hf
  rw [tokensOf, htokens, List.append_assoc]
  exact ((laid_of_scan htokens).cuts apart_rightParen h.rightParen).leftParen

theorem Derives.inParens (hf : parse f = .ok m) (hnesting : nesting (tokensOf f) ≤ 19) :
    Derives .primary maxDepth (.leftParen :: tokensOf f ++ [.rightParen]) m :=
  .group (((derives_tokensOf hf).iff_nesting 19).mpr hnesting)

theorem parse_of_cuts {input : String} {ts : List Token} (h : Cuts input.toList ts)
    (hd : Derives .disjunction maxDepth ts n) (hterms : terms ts ≤ maxTerms) :
    parse input = .ok n := by
  obtain ⟨placed, htokens, rfl⟩ := h 0
  exact parse_of_derives htokens hd hterms

theorem parse_not (hf : parse f = .ok m) (hnesting : nesting (tokensOf f) ≤ 19)
    (hterms : terms (tokensOf f) ≤ 499) : parse ("not (" ++ f ++ ")") = .ok (.not m) := by
  have hcuts := (cuts_nil.inParens hf).space.word (w := "not") rfl rfl apart_space
  refine parse_of_cuts (by simpa using hcuts)
    (.conjunction (.negation (.not (.primary (.inParens hf hnesting))))) ?_
  rw [terms_cons_term rfl, terms_group]
  exact Nat.succ_le_succ hterms

theorem cuts_pair (hf : parse f = .ok m) (hg : parse g = .ok n) {w : String} {connective : Token}
    (hw : IsWord w.toList = true) (hc : Token.ofWord? w = some connective) :
    Cuts ("(" ++ f ++ ") " ++ w ++ " (" ++ g ++ ")").toList
      ((.leftParen :: tokensOf f ++ [.rightParen]) ++
        connective :: (.leftParen :: tokensOf g ++ [.rightParen])) := by
  have hcuts := (((cuts_nil.inParens hg).space.word hw hc apart_space).space).inParens hf
  simpa using hcuts

/-- Accepted filters whose groups nest at most 19 deep can be put in parentheses, negated, and joined by
`and` and by `or`, if that makes at most 500 terms: this is read as the negation, the conjunction and the
disjunction of the filters that they are read as. -/
theorem parse_parens (hf : parse f = .ok m) (hnf : nesting (tokensOf f) ≤ 19) :
    (terms (tokensOf f) ≤ 499 → parse ("not (" ++ f ++ ")") = .ok (.not m)) ∧
    ∀ {g n}, parse g = .ok n → nesting (tokensOf g) ≤ 19 →
      terms (tokensOf f) + terms (tokensOf g) ≤ 500 →
      parse ("(" ++ f ++ ") and (" ++ g ++ ")") = .ok (.and m n) ∧
        parse ("(" ++ f ++ ") or (" ++ g ++ ")") = .ok (.or m n) := by
  refine ⟨parse_not hf hnf, fun {g n} hg hng hterms => ?_⟩
  have hcount (connective : Token) (hc : connective.isTerm = false) :
      terms ((.leftParen :: tokensOf f ++ [.rightParen]) ++
        connective :: (.leftParen :: tokensOf g ++ [.rightParen])) ≤ maxTerms := by
    rw [terms_append, terms_cons_mark hc, terms_group, terms_group]
    exact hterms
  have hleft : Derives .primary maxDepth _ m := .inParens hf hnf
  have hright : Derives .primary maxDepth _ n := .inParens hg hng
  constructor
  · have hcuts := cuts_pair hf hg (w := "and") rfl rfl
    refine parse_of_cuts (by simpa using hcuts) ?_ (hcount .and rfl)
    exact .conjunction (.and (.negation (.primary hleft)) (.primary hright))
  · have hcuts := cuts_pair hf hg (w := "or") rfl rfl
    refine parse_of_cuts (by simpa using hcuts) ?_ (hcount .or rfl)
    exact .or (.conjunction (.negation (.primary hleft))) (.negation (.primary hright))

end

/-- Parentheses and words inside texts are no parentheses and no words, and a number ends before a closing
parenthesis. -/
theorem parse_parens_number :
    ∃ m n, parse "uf ne ') or (' and (askingPrice lt 10)" = .ok m ∧
      parse "city in ('a', 'b') or not askingPrice ge -0.5" = .ok n ∧
      parse ("not (" ++ "uf ne ') or (' and (askingPrice lt 10)" ++ ")") = .ok (.not m) ∧
      parse ("(" ++ "uf ne ') or (' and (askingPrice lt 10)" ++ ") and (" ++
        "city in ('a', 'b') or not askingPrice ge -0.5" ++ ")") = .ok (.and m n) := by
  have hf : ∃ m, parse "uf ne ') or (' and (askingPrice lt 10)" = .ok m := ⟨_, rfl⟩
  have hg : ∃ n, parse "city in ('a', 'b') or not askingPrice ge -0.5" = .ok n := ⟨_, rfl⟩
  obtain ⟨m, hf⟩ := hf
  obtain ⟨n, hg⟩ := hg
  obtain ⟨hnot, hpair⟩ := parse_parens hf (by decide +kernel)
  exact ⟨m, n, hf, hg, hnot (by decide +kernel),
    (hpair hg (by decide +kernel) (by decide +kernel)).1⟩

end OfferLedger.Filter
