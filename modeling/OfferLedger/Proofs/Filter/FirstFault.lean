import OfferLedger.Proofs.Filter.Soundness

/-! # The first token in the way

A reader that has not met a fault can always be completed: the operand that has begun is finished, and the
open groups are closed one after the other. And what is derived from the grammar is accepted by a reader
with limits wide enough for it, which can only do what the program does. So, apart from its limits, the
program finds a fault exactly where the tokens stop being the begin of a filter. -/
namespace OfferLedger.Filter

/-- The tokens of a filter, with groups and terms without limits. What the grammar derives is well typed. -/
def OfFilter (ts : List Token) : Prop := ∃ d n, Derives .disjunction d ts n

/-- The tokens with which the tokens of a filter begin. -/
def BeginsFilter (ts : List Token) : Prop := ∃ more, OfFilter (ts ++ more)

/-- Where tokens stop being those of a filter: at the first token that none has there, or at the end. -/
inductive Offends (size : Nat) : List Placed → Nat → Prop where
  | token {before p after} : BeginsFilter (before.map (·.token)) →
      ¬ BeginsFilter (before.map (·.token) ++ [p.token]) →
      Offends size (before ++ p :: after) p.offset
  | ending {tokens} : BeginsFilter (tokens.map (·.token)) → ¬ OfFilter (tokens.map (·.token)) →
      Offends size tokens size

theorem exists_denotes (f : Field) : ∃ t v, Denotes f t v := by
  cases hk : f.kind with
  | text => exact ⟨.text "", .text "", .text "" hk⟩
  | numeric =>
    obtain ⟨d, hd⟩ : ∃ d, Decimal.parse "0" = .ok d := ⟨_, rfl⟩
    exact ⟨.number "0", .number d, .number hk hd⟩

theorem Begun.closes {e : Expecting} {p : List Token} (h : Begun e p) (d : Nat) :
    ∃ more n, Derives .primary d (p ++ more) n := by
  cases h with
  | operand =>
    exact ⟨[.field .uf, .operator .eq, .text ""], _, .compare (fun _ => rfl) (.text "" rfl)⟩
  | comparison f =>
    obtain ⟨t, v, hv⟩ := exists_denotes f
    exact ⟨[.operator .eq, t], _, .compare (fun h => by cases h) hv⟩
  | listStart f =>
    obtain ⟨t, v, hv⟩ := exists_denotes f
    exact ⟨[.leftParen, t, .rightParen], _, .isIn (.one hv)⟩
  | @value f op hop =>
    obtain ⟨t, v, hv⟩ := exists_denotes f
    exact ⟨[t], _, .compare hop hv⟩
  | listFirst f =>
    obtain ⟨t, v, hv⟩ := exists_denotes f
    exact ⟨[t, .rightParen], _, .isIn (.one hv)⟩
  | @listNext f ts vs hvs =>
    obtain ⟨t, v, hv⟩ := exists_denotes f
    have hlist : Derives .primary d _ _ := .isIn (hvs.more hv)
    exact ⟨[t, .rightParen], _, by simpa using hlist⟩
  | @listEnd f ts vs hvs => exact ⟨[.rightParen], _, .isIn hvs⟩

theorem Opened.closes {d : Nat} {before ts : List Token} {outer : List Group} {n : Filter}
    (ho : Opened d before outer) (h : Derives .disjunction d ts n) :
    BeginsFilter (before ++ ts) := by
  induction ho generalizing ts n with
  | outermost => exact ⟨[], maxDepth, n, by rwa [List.append_nil]⟩
  | @group d before outer ts' g _ hw ih =>
    obtain ⟨more, hmore⟩ := ih (hw.complete h.group).derives
    exact ⟨.rightParen :: more, by simpa using hmore⟩

theorem Reads.begins {ts : List Token} {r : Reader} (h : Reads ts r) : BeginsFilter ts := by
  cases h with
  | @begun d _ _ _ _ _ _ _ ho hw hb =>
    obtain ⟨more, n, hp⟩ := hb.closes d
    obtain ⟨closing, hclosed⟩ := ho.closes (hw.complete hp).derives
    exact ⟨more ++ closing, by simpa using hclosed⟩
  | connective ho hs => exact ho.closes hs.derives

theorem Reader.AcceptsAll.after {depthLimit termLimit : Nat} {r r₁ r' : Reader}
    {before ts : List Token} (h : r.AcceptsAll depthLimit termLimit (before ++ ts) r')
    (hsteps : r.steps before = .ok r₁) : r₁.AcceptsAll depthLimit termLimit ts r' := by
  induction before generalizing r with
  | nil =>
    cases hsteps
    exact h
  | cons t before ih =>
    obtain ⟨r₂, hstep, hrest⟩ := bind_eq_ok hsteps
    cases h with
    | cons ht h =>
      cases ht.eq_of_step hstep
      exact ih h hrest

theorem OfFilter.accepted {ts : List Token} (h : OfFilter ts) :
    ∃ depthLimit termLimit r n, Reader.AcceptsAll depthLimit termLimit {} ts r ∧
      r.finish = .ok n := by
  obtain ⟨d, n, hd⟩ := h
  obtain ⟨_, hr, disjunct, last, hlast, rfl⟩ := hd.accepted {} [] 0 rfl
    (Nat.le_of_eq (Nat.zero_add d)) (Nat.le_of_eq (Nat.zero_add (terms ts)))
  exact ⟨d, terms ts, _, n, hr, congrArg _ hlast⟩

theorem not_beginsFilter_of_step {before : List Token} {t : Token} {r : Reader} {fault : Fault}
    (hsteps : Reader.steps {} before = .ok r) (hstep : r.step t = .error fault)
    (hdeep : fault ≠ .tooDeep) (hterms : fault ≠ .tooManyTerms) :
    ¬ BeginsFilter (before ++ [t]) := by
  rintro ⟨more, h⟩
  obtain ⟨_, _, _, _, haccepted, -⟩ := h.accepted
  rw [List.append_assoc] at haccepted
  cases haccepted.after hsteps with
  | cons ht _ => exact (ht.fault_of_step hstep).elim hdeep hterms

theorem not_ofFilter_of_finish {ts : List Token} {r : Reader} {fault : Fault}
    (hsteps : Reader.steps {} ts = .ok r) (hfinish : r.finish = .error fault) :
    ¬ OfFilter ts := by
  intro h
  obtain ⟨_, _, _, _, haccepted, hok⟩ := h.accepted
  rw [← List.append_nil ts] at haccepted
  cases haccepted.after hsteps with
  | nil => cases hfinish.symm.trans hok

theorem Reader.run_eq_error {size : Nat} {r : Reader} {tokens : List Placed} {e : ReadError}
    (h : r.run size tokens = .error e) :
    (∃ before p after r', tokens = before ++ p :: after ∧
      r.steps (before.map (·.token)) = .ok r' ∧ r'.step p.token = .error e.fault ∧
      e.offset = p.offset) ∨
    ∃ r', r.steps (tokens.map (·.token)) = .ok r' ∧ r'.finish = .error e.fault ∧
      e.offset = size := by
  induction tokens generalizing r with
  | nil =>
    rw [run] at h
    cases hfinish : r.finish with
    | error fault =>
      rw [hfinish] at h
      cases h
      exact .inr ⟨r, rfl, hfinish, rfl⟩
    | ok n =>
      rw [hfinish] at h
      cases h
  | cons p rest ih =>
    obtain ⟨t, offset⟩ := p
    rw [run] at h
    cases hstep : r.step t with
    | error fault =>
      rw [hstep] at h
      cases h
      exact .inl ⟨[], ⟨t, offset⟩, rest, r, rfl, rfl, hstep, rfl⟩
    | ok r₁ =>
      rw [hstep] at h
      have hnext := (accepts_of_step hstep).steps_cons
      rcases ih h with ⟨before, p, after, r', rfl, hsteps, hp⟩ | ⟨r', hsteps, hfinish⟩
      · exact .inl ⟨⟨t, offset⟩ :: before, p, after, r', rfl, (hnext _).trans hsteps, hp⟩
      · exact .inr ⟨r', (hnext _).trans hsteps, hfinish⟩

/-- A text that is cut into tokens and refused is refused at one of them or at its end. Unless groups or
terms went over their limits, that is where the tokens stop being those of a filter: the ones before can
be continued to a filter, and with the one there they cannot. -/
theorem parse_offends {input : String} {tokens : List Placed} {e : ReadError}
    (htokens : Token.tokenize input = .ok tokens) (h : parse input = .error e) :
    e.offset ∈ tokens.map (·.offset) ++ [input.utf8ByteSize] ∧
      (e.fault ≠ .tooDeep → e.fault ≠ .tooManyTerms →
        Offends input.utf8ByteSize tokens e.offset) := by
  rw [parse, htokens] at h
  rcases Reader.run_eq_error h with
    ⟨before, p, after, r, rfl, hsteps, hstep, hoffset⟩ | ⟨r, hsteps, hfinish, hoffset⟩
  · rw [hoffset]
    refine ⟨by simp, fun hdeep hterms => ?_⟩
    exact .token (reads_of_steps hsteps).begins
      (not_beginsFilter_of_step hsteps hstep hdeep hterms)
  · rw [hoffset]
    refine ⟨by simp, fun _ _ => ?_⟩
    exact .ending (reads_of_steps hsteps).begins (not_ofFilter_of_finish hsteps hfinish)

/-- A number where a text field asks for a text, and a group that is still open at the end. -/
theorem parse_offends_kind_or_end :
    (parse "uf eq 'SP' and (city eq 10)" = .error
        ⟨.wrongKind .city (.number ⟨10000000, by decide, by decide⟩), 24⟩ ∧
      Offends 27 [⟨.field .uf, 0⟩, ⟨.operator .eq, 3⟩, ⟨.text "SP", 6⟩, ⟨.and, 11⟩,
        ⟨.leftParen, 15⟩, ⟨.field .city, 16⟩, ⟨.operator .eq, 21⟩, ⟨.number "10", 24⟩,
        ⟨.rightParen, 26⟩] 24) ∧
    parse "(uf eq 'é' " = .error ⟨.noGroupEnd none, 12⟩ ∧
      Offends 12 [⟨.leftParen, 0⟩, ⟨.field .uf, 1⟩, ⟨.operator .eq, 4⟩, ⟨.text "é", 7⟩] 12 := by
  have hkind : parse "uf eq 'SP' and (city eq 10)" = .error
      ⟨.wrongKind .city (.number ⟨10000000, by decide, by decide⟩), 24⟩ := by
    rfl
  have hend : parse "(uf eq 'é' " = .error ⟨.noGroupEnd none, 12⟩ := by rfl
  have htokens : Token.tokenize "uf eq 'SP' and (city eq 10)" = .ok
      [⟨.field .uf, 0⟩, ⟨.operator .eq, 3⟩, ⟨.text "SP", 6⟩, ⟨.and, 11⟩, ⟨.leftParen, 15⟩,
        ⟨.field .city, 16⟩, ⟨.operator .eq, 21⟩, ⟨.number "10", 24⟩, ⟨.rightParen, 26⟩] := by
    rfl
  have hopen : Token.tokenize "(uf eq 'é' " = .ok
      [⟨.leftParen, 0⟩, ⟨.field .uf, 1⟩, ⟨.operator .eq, 4⟩, ⟨.text "é", 7⟩] := by
    rfl
  exact ⟨⟨hkind, (parse_offends htokens hkind).2 (by decide) (by decide)⟩, hend,
    (parse_offends hopen hend).2 (by decide) (by decide)⟩

end OfferLedger.Filter
