import OfferLedger.Proofs.Filter.Layout
import OfferLedger.Proofs.Filter.Soundness

/-! # Filters read back from their texts

The text of a filter that was read is cut into tokens from which the grammar derives that filter again, with
a group for every `and` and every `or`. So the text is read as the same filter unless more groups than
allowed stand inside one another, and then that is the only fault that is found. -/
namespace OfferLedger.Filter

def listTokens : List Value → List Token
  | [] => []
  | [v] => [Token.ofValue v]
  | v :: w :: vs => Token.ofValue v :: .comma :: listTokens (w :: vs)

def tokens : Filter → List Token
  | compare f op v => [.field f, .operator op, Token.ofValue v]
  | isIn f vs => .field f :: .inList :: .leftParen :: listTokens vs ++ [.rightParen]
  | and l r => .leftParen :: (l.tokens ++ .and :: r.tokens) ++ [.rightParen]
  | or l r => .leftParen :: (l.tokens ++ .or :: r.tokens) ++ [.rightParen]
  | not n => .not :: n.tokens

def termCount : Filter → Nat
  | compare .. => 2
  | isIn _ vs => vs.length + 1
  | and l r | or l r => l.termCount + r.termCount
  | not n => n.termCount + 1

theorem DenotesList.terms_eq {f : Field} {ts : List Token} {vs : List Value}
    (h : DenotesList f ts vs) : terms ts = vs.length := by
  induction h with
  | one hv =>
    rw [terms_cons_term hv.isTerm]
    rfl
  | more _ hv ih =>
    rw [terms_append, terms_cons_mark rfl, terms_cons_term hv.isTerm, ih, List.length_append]
    rfl

theorem Derives.terms_eq {level : Level} {d : Nat} {ts : List Token} {n : Filter}
    (h : Derives level d ts n) : terms ts = n.termCount := by
  induction h with
  | conjunction _ ih | negation _ ih | primary _ ih => exact ih
  | or _ _ ihl ihr | and _ _ ihl ihr =>
    rw [terms_append, terms_cons_mark rfl, ihl, ihr]
    rfl
  | not _ ih =>
    rw [terms_cons_term rfl, ih]
    rfl
  | group _ ih => rw [terms_group, ih]
  | compare _ hv => rw [hv.terms_compare, termCount]
  | isIn hvs => rw [terms_isIn, hvs.terms_eq, termCount]

theorem DenotesList.cons {f : Field} {t : Token} {v : Value} {ts : List Token} {vs : List Value}
    (hv : Denotes f t v) (h : DenotesList f ts vs) :
    DenotesList f (t :: .comma :: ts) (v :: vs) := by
  induction h with
  | one hw => exact .more (.one hv) hw
  | more _ hw ih => exact .more ih hw

theorem denotesList_listTokens {f : Field} {vs : List Value} (hne : vs ≠ [])
    (hk : ∀ v ∈ vs, v.kind = f.kind) (hr : ∀ v ∈ vs, Readable v) :
    DenotesList f (listTokens vs) vs := by
  induction vs with
  | nil => exact absurd rfl hne
  | cons v vs ih =>
    have hv : Denotes f (Token.ofValue v) v :=
      denotes_ofValue (hr v (List.mem_cons_self ..)) (hk v (List.mem_cons_self ..))
    cases vs with
    | nil => exact .one hv
    | cons w vs =>
      refine .cons hv (ih (List.cons_ne_nil _ _) ?_ ?_)
      · intro u hu
        exact hk u (List.mem_cons_of_mem _ hu)
      · intro u hu
        exact hr u (List.mem_cons_of_mem _ hu)

theorem Derives.mono {level : Level} {d d' : Nat} {ts : List Token} {n : Filter}
    (h : Derives level d ts n) (hd : d ≤ d') : Derives level d' ts n := by
  induction h generalizing d' with
  | conjunction _ ih => exact .conjunction (ih hd)
  | or _ _ ihl ihr => exact .or (ihl hd) (ihr hd)
  | negation _ ih => exact .negation (ih hd)
  | and _ _ ihl ihr => exact .and (ihl hd) (ihr hd)
  | primary _ ih => exact .primary (ih hd)
  | not _ ih => exact .not (ih hd)
  | group _ ih =>
    obtain ⟨d', rfl⟩ : ∃ k, d' = k + 1 := ⟨d' - 1, by omega⟩
    exact .group (ih (by omega))
  | compare hop hv => exact .compare hop hv
  | isIn hvs => exact .isIn hvs

theorem derives_tokens {n : Filter} (hn : n.WellTyped) (hr : ∀ v ∈ n.values, Readable v) :
    Derives .negation n.depth n.tokens n := by
  induction n with
  | compare f op v =>
    exact .primary (.compare hn.2 (denotes_ofValue (hr v (List.mem_singleton_self v)) hn.1))
  | isIn f vs => exact .primary (.isIn (denotesList_listTokens hn.1 hn.2 hr))
  | and l r ihl ihr =>
    have hl := (ihl hn.1 fun v hv => hr v (List.mem_append_left _ hv)).mono
      (le_max_left l.depth r.depth)
    have hr := (ihr hn.2 fun v hv => hr v (List.mem_append_right _ hv)).mono
      (le_max_right l.depth r.depth)
    exact .primary (.group (.conjunction (.and (.negation hl) hr)))
  | or l r ihl ihr =>
    have hl := (ihl hn.1 fun v hv => hr v (List.mem_append_left _ hv)).mono
      (le_max_left l.depth r.depth)
    have hr := (ihr hn.2 fun v hv => hr v (List.mem_append_right _ hv)).mono
      (le_max_right l.depth r.depth)
    exact .primary (.group (.or (.conjunction (.negation hl)) (.negation hr)))
  | not n ih => exact .not (ih hn hr)

section

variable {rest : List Char} {ts : List Token}

theorem Cuts.space (h : Cuts rest ts) : Cuts (' ' :: rest) ts := h.blank rfl

theorem apart_space : Apart (' ' :: rest) := apart_cons rfl (by decide)

theorem apart_rightParen : Apart (')' :: rest) := apart_cons rfl (by decide)

theorem Cuts.field (f : Field) (h : Cuts rest ts) :
    Cuts (f.name.toList ++ ' ' :: rest) (.field f :: ts) :=
  h.space.word (isWord_name f) (ofWord?_field f) apart_space

theorem Cuts.operator (op : Operator) (h : Cuts rest ts) :
    Cuts (op.name.toList ++ ' ' :: rest) (.operator op :: ts) :=
  h.space.word (isWord_operator op) (ofWord?_operator op) apart_space

theorem Cuts.listValues (vs : List Value) (hr : ∀ v ∈ vs, Readable v) (h : Cuts rest ts)
    (hrest : Apart rest) : Cuts (joinValues vs ++ rest) (listTokens vs ++ ts) := by
  induction vs with
  | nil => exact h
  | cons v vs ih =>
    have hv : Readable v := hr v (List.mem_cons_self ..)
    cases vs with
    | nil => exact h.literal hv hrest
    | cons w vs =>
      have hvs := ih fun u hu => hr u (List.mem_cons_of_mem _ hu)
      have hcomma := (hvs.space.comma).literal hv (apart_cons rfl (by decide))
      simpa [joinValues, listTokens] using hcomma

theorem Cuts.filter {n : Filter} (hr : ∀ v ∈ n.values, Readable v) (h : Cuts rest ts)
    (hrest : Apart rest) : Cuts (n.toChars ++ rest) (n.tokens ++ ts) := by
  induction n generalizing rest ts with
  | compare f op v =>
    have hv := h.literal (hr v (List.mem_singleton_self v)) hrest
    have hall := (hv.operator op).field f
    simpa [toChars, tokens] using hall
  | isIn f vs =>
    have hvs := (h.rightParen).listValues vs hr apart_rightParen
    have hin := (hvs.leftParen).space.word (w := "in") rfl rfl apart_space
    have hall := hin.field f
    simpa [toChars, tokens] using hall
  | and l r ihl ihr =>
    have hright := ihr (fun v hv => hr v (List.mem_append_right _ hv)) h.rightParen apart_rightParen
    have hand := hright.space.word (w := "and") rfl rfl apart_space
    have hleft := ihl (fun v hv => hr v (List.mem_append_left _ hv)) hand.space apart_space
    simpa [toChars, tokens] using hleft.leftParen
  | or l r ihl ihr =>
    have hright := ihr (fun v hv => hr v (List.mem_append_right _ hv)) h.rightParen apart_rightParen
    have hor := hright.space.word (w := "or") rfl rfl apart_space
    have hleft := ihl (fun v hv => hr v (List.mem_append_left _ hv)) hor.space apart_space
    simpa [toChars, tokens] using hleft.leftParen
  | not n ih =>
    have hall := (ih hr h hrest).space.word (w := "not") rfl rfl apart_space
    simpa [toChars, tokens] using hall

end

theorem tokenize_toString {n : Filter} (hr : ∀ v ∈ n.values, Readable v) :
    ∃ placed, Token.tokenize (toString n) = .ok placed ∧ placed.map (·.token) = n.tokens := by
  obtain ⟨placed, hscan, hplaced⟩ := cuts_nil.filter hr apart_nil 0
  rw [List.append_nil] at hscan hplaced
  refine ⟨placed, ?_, hplaced⟩
  rw [Token.tokenize]
  exact (congrArg (Token.scan 0 0) String.toList_ofList).trans hscan

theorem Reader.steps_leftParen_tooDeep {g : Group} {outer : List Group} {k : Nat}
    (ho : maxDepth < outer.length + 1) (ts : List Token) :
    Reader.steps ⟨.operand, g, outer, k⟩ (.leftParen :: ts) = .error .tooDeep := by
  rw [Reader.steps, List.foldlM_cons]
  have hstep : Reader.step ⟨.operand, g, outer, k⟩ .leftParen = .error .tooDeep := if_pos ho
  rw [hstep]
  rfl

/-- Tokens with groups to a depth are refused wherever these stand too deep, if its terms are not too many
there. -/
def RefusedDeep (ts : List Token) (depth termCount : Nat) : Prop :=
  ∀ (g : Group) (outer : List Group) (k : Nat) (rest : List Token), outer.length ≤ maxDepth →
    maxDepth < outer.length + depth → k + termCount ≤ maxTerms →
    Reader.steps ⟨.operand, g, outer, k⟩ (ts ++ rest) = .error .tooDeep

theorem RefusedDeep.pair {l r : Filter} {connective : Token} {g' : Group} (hl : l.WellTyped)
    (hr : ∀ v ∈ l.values, Readable v)
    (hc : ∀ outer k, Reader.Accepts maxDepth maxTerms ⟨.connective l, {}, outer, k⟩ connective
      ⟨.operand, g', outer, k⟩)
    (ihl : RefusedDeep l.tokens l.depth l.termCount)
    (ihr : RefusedDeep r.tokens r.depth r.termCount) :
    RefusedDeep (.leftParen :: (l.tokens ++ connective :: r.tokens) ++ [.rightParen])
      (max l.depth r.depth + 1) (l.termCount + r.termCount) := by
  intro g outer k rest ho hd ht
  rw [List.cons_append, List.cons_append, List.append_assoc, List.append_assoc, List.cons_append]
  by_cases hfits : outer.length + 1 ≤ maxDepth
  · rw [(Reader.Accepts.leftParen hfits).steps_cons]
    by_cases hleft : maxDepth < outer.length + 1 + l.depth
    · exact ihl {} (g :: outer) k _ hfits hleft (by omega)
    · -- The left one is read, so it is the right one that is too deep.
      have hderived := derives_tokens hl hr
      obtain ⟨_, hsteps, rfl⟩ := hderived.steps {} (g :: outer) k trivial
        (by rw [List.length_cons]; omega) (by rw [hderived.terms_eq]; omega)
      rw [Reader.steps_append hsteps, hderived.terms_eq]
      refine ((hc _ _).steps_cons _).trans (ihr g' (g :: outer) (k + l.termCount) _ hfits ?_ (by omega))
      rw [List.length_cons]
      omega
  · exact Reader.steps_leftParen_tooDeep (by omega) _

theorem refusedDeep_tokens {n : Filter} (hn : n.WellTyped) (hr : ∀ v ∈ n.values, Readable v) :
    RefusedDeep n.tokens n.depth n.termCount := by
  induction n with
  | compare f op v =>
    intro g outer k rest ho hd ht
    rw [depth] at hd
    omega
  | isIn f vs =>
    intro g outer k rest ho hd ht
    rw [depth] at hd
    omega
  | and l r ihl ihr =>
    have hleft : ∀ v ∈ l.values, Readable v := fun v hv => hr v (List.mem_append_left _ hv)
    have hright : ∀ v ∈ r.values, Readable v := fun v hv => hr v (List.mem_append_right _ hv)
    exact .pair hn.1 hleft (fun _ _ => .and) (ihl hn.1 hleft) (ihr hn.2 hright)
  | or l r ihl ihr =>
    have hleft : ∀ v ∈ l.values, Readable v := fun v hv => hr v (List.mem_append_left _ hv)
    have hright : ∀ v ∈ r.values, Readable v := fun v hv => hr v (List.mem_append_right _ hv)
    exact .pair hn.1 hleft (fun _ _ => .or) (ihl hn.1 hleft) (ihr hn.2 hright)
  | not n ih =>
    intro g outer k rest ho hd ht
    rw [termCount] at ht
    have hnot : k + 1 ≤ maxTerms := by omega
    rw [tokens, List.cons_append, (Reader.Accepts.not hnot).steps_cons]
    exact ih hn hr _ _ _ _ ho hd (by omega)

theorem Reader.run_of_steps_error (size : Nat) {r : Reader} {tokens : List Placed} {fault : Fault}
    (h : r.steps (tokens.map (·.token)) = .error fault) :
    ∃ offset, r.run size tokens = .error ⟨fault, offset⟩ := by
  induction tokens generalizing r with
  | nil => cases h
  | cons p rest ih =>
    obtain ⟨t, offset⟩ := p
    rw [Reader.steps, List.map_cons, List.foldlM_cons] at h
    rw [Reader.run]
    cases hstep : r.step t with
    | error fault' =>
      rw [hstep] at h
      cases h
      exact ⟨offset, rfl⟩
    | ok r' =>
      rw [hstep] at h
      exact ih h

theorem Denotes.readable {f : Field} {t : Token} {v : Value} (h : Denotes f t v)
    (ht : ∀ s, t = .text s → s.toList.getLast? ≠ some '\\') : Readable v := by
  cases h with
  | text s _ => exact ht s rfl
  | number _ hd => exact Decimal.micros_of_parse hd

theorem DenotesList.readable {f : Field} {ts : List Token} {vs : List Value}
    (h : DenotesList f ts vs) (hts : ∀ s, Token.text s ∈ ts → s.toList.getLast? ≠ some '\\') :
    ∀ v ∈ vs, Readable v := by
  induction h with
  | one hv =>
    intro w hw
    rw [List.mem_singleton.mp hw]
    exact hv.readable fun s hs => hts s (by simp [hs])
  | more _ hv ih =>
    intro w hw
    rcases List.mem_append.mp hw with hw | hw
    · exact ih (fun s hs => hts s (List.mem_append_left _ hs)) w hw
    · rw [List.mem_singleton.mp hw]
      exact hv.readable fun s hs => hts s (by simp [hs])

theorem Derives.readable {level : Level} {d : Nat} {ts : List Token} {n : Filter}
    (h : Derives level d ts n) (hts : ∀ s, Token.text s ∈ ts → s.toList.getLast? ≠ some '\\') :
    ∀ v ∈ n.values, Readable v := by
  induction h with
  | conjunction _ ih | negation _ ih | primary _ ih => exact ih hts
  | or _ _ ihl ihr | and _ _ ihl ihr =>
    intro v hv
    rcases List.mem_append.mp hv with hv | hv
    · exact ihl (fun s hs => hts s (List.mem_append_left _ hs)) v hv
    · exact ihr (fun s hs => hts s (by simp [hs])) v hv
  | not _ ih => exact ih fun s hs => hts s (List.mem_cons_of_mem _ hs)
  | group _ ih => exact ih fun s hs => hts s (by simp [hs])
  | compare _ hv =>
    intro w hw
    rw [List.mem_singleton.mp hw]
    exact hv.readable fun s hs => hts s (by simp [hs])
  | isIn hvs => exact hvs.readable fun s hs => hts s (by simp [hs])

theorem readable_of_parse {input : String} {n : Filter} (h : parse input = .ok n) :
    ∀ v ∈ n.values, Readable v := by
  obtain ⟨tokens, htokens, hd, -⟩ := derives_of_parse h
  exact hd.readable fun s hs => (laid_of_scan htokens).readable hs

/-- The text of a filter that was read is read as that filter if at most 20 of its `and`s and `or`s
stand inside one another, and else it is refused because its groups are too deep. -/
theorem parse_toString_of_parse {input : String} {n : Filter} (h : parse input = .ok n) :
    (n.depth ≤ 20 → parse (toString n) = .ok n) ∧
      (20 < n.depth → ∃ offset, parse (toString n) = .error ⟨.tooDeep, offset⟩) := by
  have hr := readable_of_parse h
  have hn := wellTyped_of_parse h
  obtain ⟨_, -, hderived, hterms⟩ := derives_of_parse h
  rw [hderived.terms_eq] at hterms
  obtain ⟨placed, htokens, hplaced⟩ := tokenize_toString hr
  constructor
  · intro hdepth
    have hd := (derives_tokens hn hr).mono hdepth
    apply parse_of_derives htokens
    · rw [hplaced]
      exact .conjunction (.negation hd)
    · rw [hplaced, hd.terms_eq]
      exact hterms
  · intro hdepth
    have hdeep := refusedDeep_tokens hn hr {} [] 0 [] (Nat.zero_le _)
      (by rwa [List.length_nil, Nat.zero_add]) (by rwa [Nat.zero_add])
    rw [List.append_nil, ← hplaced] at hdeep
    obtain ⟨offset, hrun⟩ := Reader.run_of_steps_error (toString n).utf8ByteSize hdeep
    refine ⟨offset, ?_⟩
    rw [parse, htokens]
    exact hrun

/-- A value with a backslash before a quote is read back. Of a chain of twenty-two conditions every one
but the last stands in one more group than the next, which is one group too many. -/
theorem parse_toString_of_chain :
    (parse "uf ne '\\\\'' and not askingPrice gt -0.50" = .ok
        (.and (.compare .uf .ne (.text "\\'"))
          (.not (.compare .askingPrice .gt (.number ⟨-500000, by decide, by decide⟩)))) ∧
      parse (toString (.and (.compare .uf .ne (.text "\\'"))
          (.not (.compare .askingPrice .gt (.number ⟨-500000, by decide, by decide⟩))) : Filter)) =
        .ok (.and (.compare .uf .ne (.text "\\'"))
          (.not (.compare .askingPrice .gt (.number ⟨-500000, by decide, by decide⟩))))) ∧
    parse (String.ofList
        ((List.replicate 21 "uf eq 'a' and ".toList).flatten ++ "uf eq 'a'".toList)) = .ok
      ((List.replicate 21 (.compare .uf .eq (.text "a"))).foldl .and
        (.compare .uf .eq (.text "a"))) ∧
    ∃ offset, parse (toString ((List.replicate 21 (.compare .uf .eq (.text "a"))).foldl .and
        (.compare .uf .eq (.text "a")) : Filter)) = .error ⟨.tooDeep, offset⟩ := by
  have hshallow : parse "uf ne '\\\\'' and not askingPrice gt -0.50" = .ok
      (.and (.compare .uf .ne (.text "\\'"))
        (.not (.compare .askingPrice .gt (.number ⟨-500000, by decide, by decide⟩)))) := by
    decide +kernel
  have hdeep : parse (String.ofList
      ((List.replicate 21 "uf eq 'a' and ".toList).flatten ++ "uf eq 'a'".toList)) = .ok
        ((List.replicate 21 (.compare .uf .eq (.text "a"))).foldl .and
          (.compare .uf .eq (.text "a"))) := by
    rw [parse, Token.tokenize, String.toList_ofList]
    decide +kernel
  exact ⟨⟨hshallow, (parse_toString_of_parse hshallow).1 (by decide)⟩, hdeep,
    (parse_toString_of_parse hdeep).2 (by decide)⟩

end OfferLedger.Filter
