import OfferLedger.Proofs.Filter.Lexemes

/-! # How tokens lie in a text

A text is cut into blanks and lexemes, each of them as long as it can be, and the offset of a token is the
number of bytes before its lexeme. So the tokens can be read off their own pieces of the text. A text that
is refused is cut up to the character at which it stops. -/
namespace OfferLedger.Filter

theorem exists_digits (cs : List Char) :
    ∃ digits fraction rest, cs = (digits ++ if fraction = [] then [] else '.' :: fraction) ++ rest ∧
      (Token.startsDigit cs = true → digits ≠ []) ∧
      (∀ c ∈ digits, Decimal.isDigit c = true) ∧ (∀ c ∈ fraction, Decimal.isDigit c = true) ∧
      (∀ c, rest.head? = some c → Decimal.isDigit c = false) ∧
      (fraction = [] → ∀ d tail, rest = '.' :: d :: tail → Decimal.isDigit d = false) := by
  have hstop (ds : List Char) : ∀ c, (ds.dropWhile Decimal.isDigit).head? = some c →
      Decimal.isDigit c = false := by
    intro c hc
    have hhead := List.head?_dropWhile_not Decimal.isDigit ds
    rw [hc] at hhead
    simpa using hhead
  have hne : Token.startsDigit cs = true → cs.takeWhile Decimal.isDigit ≠ [] := by
    intro h
    cases cs with
    | nil => cases h
    | cons c cs =>
      have hc : Decimal.isDigit c = true := h
      simp [hc]
  have hcs : cs.takeWhile Decimal.isDigit ++ cs.dropWhile Decimal.isDigit = cs :=
    List.takeWhile_append_dropWhile
  by_cases hfraction : ∃ d tail, cs.dropWhile Decimal.isDigit = '.' :: d :: tail ∧
      Decimal.isDigit d = true
  · obtain ⟨d, tail, htail, hd⟩ := hfraction
    have hmore : tail.takeWhile Decimal.isDigit ++ tail.dropWhile Decimal.isDigit = tail :=
      List.takeWhile_append_dropWhile
    refine ⟨cs.takeWhile Decimal.isDigit, d :: tail.takeWhile Decimal.isDigit,
      tail.dropWhile Decimal.isDigit, ?_, hne, fun c hc => List.mem_takeWhile_imp hc, ?_, hstop tail,
      fun h => by cases h⟩
    · rw [htail] at hcs
      simp [hmore, hcs]
    · rintro c (_ | ⟨_, hc⟩)
      · exact hd
      · exact List.mem_takeWhile_imp hc
  · refine ⟨cs.takeWhile Decimal.isDigit, [], cs.dropWhile Decimal.isDigit, by simp [hcs], hne,
      fun c hc => List.mem_takeWhile_imp hc, fun c hc => (List.not_mem_nil hc).elim, hstop cs,
      fun _ d tail htail => ?_⟩
    by_contra hd
    exact hfraction ⟨d, tail, htail, by simpa using hd⟩

theorem exists_number {c : Char} {cs : List Char}
    (hc : Decimal.isDigit c = true ∨ c = '-' ∧ Token.startsDigit cs = true) :
    ∃ t part rest, cs = part ++ rest ∧ Lexeme (c :: part) t ∧ t.Ends rest := by
  obtain ⟨digits, fraction, rest, rfl, hne, hdigits, hfraction, hrest, hpoint⟩ := exists_digits cs
  obtain ⟨p, hp, hchars, hpf⟩ : ∃ p : Decimal.Parts, p.Plain ∧
      p.toChars = c :: (digits ++ if fraction = [] then [] else '.' :: fraction) ∧
      p.fraction = fraction := by
    rcases hc with hc | ⟨rfl, hstart⟩
    · refine ⟨⟨false, c :: digits, fraction⟩, ⟨List.cons_ne_nil _ _, ?_, hfraction⟩, rfl, rfl⟩
      rintro d (_ | ⟨_, hd⟩)
      · exact hc
      · exact hdigits d hd
    · exact ⟨⟨true, digits, fraction⟩, ⟨hne hstart, hdigits, hfraction⟩, rfl, rfl⟩
  have hlexeme := Lexeme.number hp
  refine ⟨.number (String.ofList p.toChars), _, rest, rfl, hchars ▸ hlexeme, hrest, fun hmem => ?_⟩
  rw [String.toList_ofList, point_mem_toChars_iff hp, not_not, hpf] at hmem
  exact hpoint hmem

theorem Token.escaped_of_readText {cs : List Char} (h : Token.readText cs = none) :
    ∀ before after, cs = before ++ '\'' :: after → before.getLast? = some '\\' := by
  induction cs using Token.readText.induct with
  | case1 =>
    intro before after hcs
    simp at hcs
  | case2 cs ih =>
    rw [Token.readText, Option.map_eq_none_iff] at h
    intro before after hcs
    -- The text begins with an escaped quote: that is the quote in question, or it comes later.
    rcases before with _ | ⟨d, _ | ⟨d', before⟩⟩
    · cases hcs
    · cases hcs
      rfl
    · cases hcs
      rw [List.getLast?_cons, List.getLast?_cons, ih h before after rfl]
      rfl
  | case3 cs =>
    rw [Token.readText] at h
    cases h
  | case4 c cs hescape hquote ih =>
    rw [Token.readText] at h
    · rw [Option.map_eq_none_iff] at h
      intro before after hcs
      cases before with
      | nil =>
        cases hcs
        exact absurd rfl hquote
      | cons _ before =>
        cases hcs
        rw [List.getLast?_cons, ih h before after rfl]
        rfl
    · exact hescape
    · exact hquote

theorem Token.ofWord?_eq_none_iff (w : String) :
    Token.ofWord? w = none ↔ w ∉ ["and", "or", "not", "in"] ∧ (∀ f : Field, f.name ≠ w) ∧
      ∀ op : Operator, op.name ≠ w := by
  constructor
  · intro h
    refine ⟨fun hw => ?_, ?_, ?_⟩
    · simp only [List.mem_cons, List.not_mem_nil, or_false] at hw
      rcases hw with rfl | rfl | rfl | rfl <;> cases h
    · rintro f rfl
      rw [ofWord?_field] at h
      cases h
    · rintro op rfl
      rw [ofWord?_operator] at h
      cases h
  · rintro ⟨hw, hf, hop⟩
    simp only [List.mem_cons, List.not_mem_nil, or_false, not_or] at hw
    obtain ⟨hand, hor, hnot, hin⟩ := hw
    have hfield : Field.ofName? w = none := by
      simpa [Field.ofName?] using fun f _ => hf f
    have hoperator : Operator.ofName? w = none := by
      simpa [Operator.ofName?] using fun op _ => hop op
    rw [Token.ofWord?, if_neg hand, if_neg hor, if_neg hnot, if_neg hin, hfield, hoperator]
    rfl

/-- A character that, with what follows it, begins no token: no mark, no quote, no digit, no letter and no
underscore, and no minus sign before a digit. -/
structure StartsNothing (c : Char) (rest : List Char) : Prop where
  blank : Text.isBlank c = false
  mark : c ∉ ['(', ')', ',', '\'']
  digit : Decimal.isDigit c = false
  word : Token.isWordStart c = false
  minus : c = '-' → ∀ d, rest.head? = some d → Decimal.isDigit d = false

/-- How a text goes on that is refused there: with a literal in which every quote is escaped, with a whole
word that the language does not have, or with a character that begins nothing. -/
def Stops : LexError → List Char → Prop
  | .unterminatedText _, text => ∃ rest, text = '\'' :: rest ∧
      ∀ before after, rest = before ++ '\'' :: after → before.getLast? = some '\\'
  | .unknownWord w _, text => ∃ rest, text = w.toList ++ rest ∧ IsWord w.toList = true ∧
      (∀ c, rest.head? = some c → Token.isWordPart c = false) ∧
      w ∉ ["and", "or", "not", "in"] ∧ (∀ f : Field, f.name ≠ w) ∧ ∀ op : Operator, op.name ≠ w
  | .unexpectedCharacter c _, text => ∃ rest, text = c :: rest ∧ StartsNothing c rest

theorem Token.lexeme_cases {c : Char} (hc : Text.isBlank c = false) (cs : List Char) (offset : Nat) :
    (∃ t part rest, cs = part ++ rest ∧ Lexeme (c :: part) t ∧ t.Ends rest) ∨
      ∃ e, Token.lexeme offset c cs = .error e ∧ e.offset = offset ∧ Stops e (c :: cs) := by
  by_cases hopen : c = '('
  · exact .inl ⟨.leftParen, [], cs, rfl, hopen ▸ .leftParen, trivial⟩
  by_cases hclose : c = ')'
  · exact .inl ⟨.rightParen, [], cs, rfl, hclose ▸ .rightParen, trivial⟩
  by_cases hcomma : c = ','
  · exact .inl ⟨.comma, [], cs, rfl, hcomma ▸ .comma, trivial⟩
  by_cases hquote : c = '\''
  · subst hquote
    cases hread : Token.readText cs with
    | none =>
      refine .inr ⟨.unterminatedText offset, ?_, rfl, cs, rfl, Token.escaped_of_readText hread⟩
      simp [Token.lexeme, hread]
    | some sn =>
      obtain ⟨s, n⟩ := sn
      obtain ⟨hlast, rest, rfl⟩ := Token.of_readText hread
      rw [← String.toList_ofList (l := s)] at hlast
      refine .inl ⟨.text (String.ofList s), escaped s ++ ['\''], rest, by simp, ?_, trivial⟩
      have hlexeme := Lexeme.text hlast
      rwa [Value.toChars, String.toList_ofList] at hlexeme
  by_cases hnumber : Decimal.isDigit c = true ∨ c = '-' ∧ Token.startsDigit cs = true
  · exact .inl (exists_number hnumber)
  rw [not_or, not_and, Bool.not_eq_true] at hnumber
  by_cases hword : Token.isWordStart c = true
  · have hcs : cs.takeWhile Token.isWordPart ++ cs.dropWhile Token.isWordPart = cs :=
      List.takeWhile_append_dropWhile
    have hw : IsWord (String.ofList (c :: cs.takeWhile Token.isWordPart)).toList = true := by
      rw [String.toList_ofList]
      exact Bool.and_eq_true_iff.mpr
        ⟨hword, List.all_eq_true.mpr fun d hd => List.mem_takeWhile_imp hd⟩
    have hend : ∀ d, (cs.dropWhile Token.isWordPart).head? = some d →
        Token.isWordPart d = false := by
      intro d hd
      have hhead := List.head?_dropWhile_not Token.isWordPart cs
      rw [hd] at hhead
      simpa using hhead
    cases ht : Token.ofWord? (String.ofList (c :: cs.takeWhile Token.isWordPart)) with
    | some t =>
      refine .inl ⟨t, _, _, hcs.symm, ?_, (Token.ends_word (Token.isWord_of_ofWord? ht) _).mpr hend⟩
      have hlexeme := Lexeme.word hw ht
      rwa [String.toList_ofList] at hlexeme
    | none =>
      have hlex := Token.lexeme_word String.toList_ofList hw hend offset
      rw [hcs, ht] at hlex
      refine .inr ⟨_, hlex, rfl, _, ?_, hw, hend, (Token.ofWord?_eq_none_iff _).mp ht⟩
      rw [String.toList_ofList, List.cons_append, hcs]
  · refine .inr ⟨.unexpectedCharacter c offset, ?_, rfl, cs, rfl, hc, ?_, hnumber.1, ?_, ?_⟩
    · rw [Token.lexeme, if_neg hopen, if_neg hclose, if_neg hcomma, if_neg hquote,
        if_neg (by simpa [hnumber.1] using hnumber.2), if_neg hword]
    · simp [hopen, hclose, hcomma, hquote]
    · simpa using hword
    · intro hminus d hd
      have hstart := hnumber.2 hminus
      rw [Token.startsDigit, hd] at hstart
      simpa using hstart

/-- From an offset on, a text is cut into blanks and lexemes, with a token for every lexeme. -/
inductive Laid : Nat → List Char → List Placed → Prop where
  | nil {o : Nat} : Laid o [] []
  | blank {o : Nat} {c : Char} {cs : List Char} {placed : List Placed} : Text.isBlank c = true →
      Laid (o + c.utf8Size) cs placed → Laid o (c :: cs) placed
  | lexeme {o : Nat} {cs rest : List Char} {t : Token} {placed : List Placed} : Lexeme cs t →
      t.Ends rest → Laid (o + Text.byteSize cs) rest placed → Laid o (cs ++ rest) (⟨t, o⟩ :: placed)

section

variable {o : Nat} {cs : List Char} {placed : List Placed}

theorem Laid.scan (h : Laid o cs placed) : Token.scan o 0 cs = .ok placed := by
  induction h with
  | nil => rfl
  | blank hc _ ih => rwa [Token.scan, if_pos hc]
  | lexeme hlex hrest _ ih =>
    rw [hlex.scan hrest, ih]
    rfl

theorem Token.Ends.of_append {t : Token} {rest after : List Char} (h : t.Ends (rest ++ after)) :
    t.Ends rest := by
  have hhead {c : Char} (hc : rest.head? = some c) : (rest ++ after).head? = some c := by
    rw [List.head?_append, hc]
    rfl
  cases t with
  | leftParen | rightParen | comma | text => trivial
  | number source =>
    refine ⟨fun c hc => h.1 c (hhead hc), fun hpoint d tail hrest => ?_⟩
    exact h.2 hpoint d (tail ++ after) (by rw [hrest]; rfl)
  | _ => exact fun c hc => h c (hhead hc)

theorem Token.scan_cases (o : Nat) (cs : List Char) :
    (∃ placed, Token.scan o 0 cs = .ok placed ∧ Laid o cs placed) ∨
      ∃ e before after placed, Token.scan o 0 cs = .error e ∧ cs = before ++ after ∧
        Laid o before placed ∧ e.offset = o + Text.byteSize before ∧ Stops e after := by
  induction hlen : cs.length using Nat.strong_induction_on generalizing o cs with
  | _ n ih =>
    cases cs with
    | nil => exact .inl ⟨[], rfl, .nil⟩
    | cons c cs =>
      subst hlen
      by_cases hc : Text.isBlank c = true
      · have hscan : Token.scan o 0 (c :: cs) = Token.scan (o + c.utf8Size) 0 cs := by
          rw [Token.scan, if_pos hc]
        rw [hscan]
        rcases ih cs.length (Nat.lt_succ_self _) (o + c.utf8Size) cs rfl with
          ⟨placed, h, hlaid⟩ | ⟨e, before, after, placed, h, rfl, hlaid, he, hstops⟩
        · exact .inl ⟨placed, h, .blank hc hlaid⟩
        · refine .inr ⟨e, c :: before, after, placed, h, rfl, .blank hc hlaid, ?_, hstops⟩
          rw [he, Text.byteSize_cons, Nat.add_assoc]
      · rw [Bool.not_eq_true] at hc
        rcases Token.lexeme_cases hc cs o with ⟨t, part, rest, rfl, hlex, hrest⟩ | ⟨e, h, he, hstops⟩
        · have hscan := hlex.scan hrest o
          rw [List.cons_append] at hscan
          rw [hscan]
          have hshort : rest.length < (c :: (part ++ rest)).length := by
            rw [List.length_cons, List.length_append]
            omega
          rcases ih rest.length hshort (o + Text.byteSize (c :: part)) rest rfl with
            ⟨placed, h, hlaid⟩ | ⟨e, before, after, placed, h, rfl, hlaid, he, hstops⟩
          · exact .inl ⟨_, by rw [h]; rfl, .lexeme hlex hrest hlaid⟩
          · refine .inr ⟨e, c :: part ++ before, after, _, by rw [h]; rfl, by simp,
              .lexeme hlex hrest.of_append hlaid, ?_, hstops⟩
            rw [he, Text.byteSize_append, Nat.add_assoc]
        · refine .inr ⟨e, [], c :: cs, [], ?_, rfl, .nil, he, hstops⟩
          rw [Token.scan, if_neg (by simp [hc]), h]
          rfl

theorem laid_of_scan (h : Token.scan o 0 cs = .ok placed) : Laid o cs placed := by
  rcases Token.scan_cases o cs with ⟨placed', h', hlaid⟩ | ⟨e, _, _, _, h', _⟩
  · rw [h] at h'
    cases h'
    exact hlaid
  · rw [h] at h'
    cases h'

theorem Laid.readable (h : Laid o cs placed) {s : String}
    (hs : Token.text s ∈ placed.map (·.token)) : s.toList.getLast? ≠ some '\\' := by
  induction h with
  | nil => cases hs
  | blank _ _ ih => exact ih hs
  | lexeme hlex _ _ ih =>
    rcases List.mem_cons.mp hs with rfl | hs
    · cases hlex with
      | word _ ht => cases Token.isWord_of_ofWord? ht
      | text hlast => exact hlast
    · exact ih hs

/-- The offsets of the tokens, and behind them that of the end of the text. -/
def offsets (placed : List Placed) (size : Nat) : List Nat := placed.map (·.offset) ++ [size]

theorem Laid.le_offsets (h : Laid o cs placed) :
    ∀ i ∈ offsets placed (o + Text.byteSize cs), o ≤ i := by
  induction h with
  | nil => simp [offsets]
  | blank _ _ ih =>
    rw [Text.byteSize_cons, ← Nat.add_assoc]
    exact fun i hi => Nat.le_of_add_right_le (ih i hi)
  | lexeme _ _ _ ih =>
    rw [Text.byteSize_append, ← Nat.add_assoc]
    rintro i (_ | ⟨_, hi⟩)
    · exact Nat.le_refl _
    · exact Nat.le_of_add_right_le (ih i hi)

theorem Laid.increasing (h : Laid o cs placed) :
    (offsets placed (o + Text.byteSize cs)).Pairwise (· < ·) := by
  induction h with
  | nil => exact List.pairwise_singleton ..
  | blank _ _ ih =>
    rw [Text.byteSize_cons, ← Nat.add_assoc]
    exact ih
  | @lexeme o _ _ _ _ hlex _ hlaid ih =>
    rw [Text.byteSize_append, ← Nat.add_assoc]
    refine List.pairwise_cons.mpr ⟨fun i hi => ?_, ih⟩
    obtain ⟨c, part, rfl, -, -⟩ := hlex.read
    have hpos : 0 < Text.byteSize (c :: part) := Text.byteSize_pos (List.cons_ne_nil _ _)
    exact Nat.lt_of_lt_of_le (Nat.lt_add_of_pos_right hpos) (hlaid.le_offsets i hi)

theorem Laid.leading (h : Laid o cs placed) :
    ∃ gap rest, cs = gap ++ rest ∧ gap.all Text.isBlank = true ∧
      (offsets placed (o + Text.byteSize cs)).head? = some (o + Text.byteSize gap) := by
  induction h with
  | nil => exact ⟨[], [], rfl, rfl, rfl⟩
  | @blank o c _ _ hc _ ih =>
    obtain ⟨gap, rest, rfl, hgap, hhead⟩ := ih
    refine ⟨c :: gap, rest, rfl, by simp [hc, hgap], ?_⟩
    rw [Text.byteSize_cons, Text.byteSize_cons, ← Nat.add_assoc, hhead, Nat.add_assoc]
  | lexeme _ _ _ _ => exact ⟨[], _, rfl, rfl, rfl⟩

theorem Laid.piece (h : Laid o cs placed) {i : Nat} {p : Placed} (hp : placed[i]? = some p) :
    ∃ before lexeme gap after, cs = before ++ (lexeme ++ gap) ++ after ∧
      p.offset = o + Text.byteSize before ∧
      (offsets placed (o + Text.byteSize cs))[i + 1]? =
        some (o + Text.byteSize (before ++ (lexeme ++ gap))) ∧
      Lexeme lexeme p.token ∧ gap.all Text.isBlank = true := by
  induction h generalizing i with
  | nil => cases hp
  | @blank o c _ _ _ _ ih =>
    obtain ⟨before, lexeme, gap, after, rfl, hoffset, hnext, hlex, hgap⟩ := ih hp
    refine ⟨c :: before, lexeme, gap, after, rfl, ?_, ?_, hlex, hgap⟩
    · rw [hoffset, Text.byteSize_cons, Nat.add_assoc]
    · rw [Text.byteSize_cons, ← Nat.add_assoc, hnext, List.cons_append, Text.byteSize_cons,
        Nat.add_assoc]
  | @lexeme o cs rest t _ hlex _ hlaid ih =>
    rw [Text.byteSize_append, ← Nat.add_assoc]
    cases i with
    | zero =>
      cases hp
      obtain ⟨gap, after, rfl, hgap, hhead⟩ := hlaid.leading
      refine ⟨[], cs, gap, after, by simp, rfl, ?_, hlex, hgap⟩
      have hat : o + Text.byteSize (cs ++ gap) = o + Text.byteSize cs + Text.byteSize gap := by
        rw [Text.byteSize_append, Nat.add_assoc]
      rw [List.nil_append, hat, ← hhead, List.head?_eq_getElem?]
      rfl
    | succ i =>
      obtain ⟨before, lexeme, gap, after, rfl, hoffset, hnext, hlex', hgap⟩ := ih hp
      refine ⟨cs ++ before, lexeme, gap, after, by simp, ?_, ?_, hlex', hgap⟩
      · rw [hoffset, Text.byteSize_append, Nat.add_assoc]
      · have hat : o + Text.byteSize (cs ++ before ++ (lexeme ++ gap)) =
            o + Text.byteSize cs + Text.byteSize (before ++ (lexeme ++ gap)) := by
          rw [List.append_assoc, Text.byteSize_append, Nat.add_assoc]
        rw [hat, ← hnext]
        rfl

end

/-- The lexeme of a token stands at its offset with nothing but blanks behind it up to the next one, and
it is a text of that token alone. -/
def Piece (input : String) (p : Placed) (next : Nat) : Prop :=
  ∃ before lexeme gap after : String, input = before ++ (lexeme ++ gap) ++ after ∧
    p.offset = before.utf8ByteSize ∧ next = (before ++ (lexeme ++ gap)).utf8ByteSize ∧
    Lexeme lexeme.toList p.token ∧ Token.tokenize lexeme = .ok [⟨p.token, 0⟩] ∧
    Text.isBlankText gap = true

/-- The tokens of a text at their offsets: blanks first, and then the pieces of the tokens, each up to the
next token or to the end. -/
structure Layout (input : String) (placed : List Placed) : Prop where
  increasing : (offsets placed input.utf8ByteSize).Pairwise (· < ·)
  boundaries : ∀ i ∈ offsets placed input.utf8ByteSize, String.Pos.Raw.IsValid input ⟨i⟩
  leading : ∃ gap rest : String, input = gap ++ rest ∧ Text.isBlankText gap = true ∧
    (offsets placed input.utf8ByteSize).head? = some gap.utf8ByteSize
  pieces : ∀ (i : Nat) (p : Placed), placed[i]? = some p →
    ∃ next, (offsets placed input.utf8ByteSize)[i + 1]? = some next ∧ Piece input p next

theorem Lexeme.tokenize {lexeme : String} {t : Token} (h : Lexeme lexeme.toList t) :
    Token.tokenize lexeme = .ok [⟨t, 0⟩] := by
  have hlaid := Laid.lexeme (o := 0) h (apart_nil.ends t) .nil
  rw [List.append_nil] at hlaid
  exact hlaid.scan

theorem eq_ofList {input : String} {cs : List Char} (h : input.toList = cs) :
    input = String.ofList cs := by
  rw [← h, String.ofList_toList]

theorem Laid.exists_piece {input : String} {placed : List Placed} (h : Laid 0 input.toList placed)
    {i : Nat} {p : Placed} (hp : placed[i]? = some p) :
    ∃ next, (offsets placed input.utf8ByteSize)[i + 1]? = some next ∧ Piece input p next := by
  obtain ⟨before, lexeme, gap, after, hcs, hoffset, hnext, hlex, hgap⟩ := h.piece hp
  rw [Text.byteSize_toList, Nat.zero_add, Nat.zero_add] at hnext
  rw [Nat.zero_add] at hoffset
  rw [← String.toList_ofList (l := lexeme)] at hlex
  refine ⟨_, hnext, String.ofList before, String.ofList lexeme, String.ofList gap,
    String.ofList after, ?_, hoffset, ?_, hlex, hlex.tokenize, ?_⟩
  · rw [eq_ofList hcs, String.ofList_append, String.ofList_append, String.ofList_append]
  · rw [← String.ofList_append, ← String.ofList_append]
    rfl
  · rwa [Text.isBlankText, String.toList_ofList]

theorem layout_of_laid {input : String} {placed : List Placed} (h : Laid 0 input.toList placed) :
    Layout input placed := by
  have hsize : 0 + Text.byteSize input.toList = input.utf8ByteSize := by
    rw [Nat.zero_add, Text.byteSize_toList]
  refine ⟨hsize ▸ h.increasing, fun i hi => ?_, ?_, fun i p hp => h.exists_piece hp⟩
  · rw [String.Pos.Raw.isValid_iff_exists_append]
    rcases List.mem_append.mp hi with hi | hi
    · obtain ⟨p, hp, rfl⟩ := List.mem_map.mp hi
      obtain ⟨k, hk⟩ := List.mem_iff_getElem?.mp hp
      obtain ⟨_, -, before, lexeme, gap, after, hcs, hoffset, -⟩ := h.exists_piece hk
      exact ⟨before, lexeme ++ gap ++ after, by rw [hcs, String.append_assoc],
        congrArg String.Pos.Raw.mk hoffset⟩
    · rw [List.mem_singleton.mp hi]
      exact ⟨input, "", String.append_empty.symm, rfl⟩
  · obtain ⟨gap, rest, hcs, hgap, hhead⟩ := h.leading
    rw [hsize, Nat.zero_add] at hhead
    refine ⟨String.ofList gap, String.ofList rest, ?_, ?_, hhead⟩
    · rw [eq_ofList hcs, String.ofList_append]
    · rwa [Text.isBlankText, String.toList_ofList]

/-- Either the tokens lie in the text one after another, each the only one of its lexeme, or the text is
cut up to an offset behind which it goes on as the error says. -/
theorem tokenize_layout (input : String) :
    match Token.tokenize input with
    | .ok placed => Layout input placed
    | .error e => ∃ before after : String, input = before ++ after ∧
        before.utf8ByteSize = e.offset ∧ (∃ placed, Token.tokenize before = .ok placed) ∧
        Stops e after.toList := by
  rcases Token.scan_cases 0 input.toList with
    ⟨placed, h, hlaid⟩ | ⟨e, before, after, placed, h, hcs, hlaid, he, hstops⟩
  · rw [show Token.tokenize input = .ok placed from h]
    exact layout_of_laid hlaid
  · rw [show Token.tokenize input = .error e from h]
    refine ⟨String.ofList before, String.ofList after, ?_, ?_, ⟨placed, ?_⟩, ?_⟩
    · rw [eq_ofList hcs, String.ofList_append]
    · rw [he, Nat.zero_add]
      rfl
    · rw [Token.tokenize, String.toList_ofList]
      exact hlaid.scan
    · rwa [String.toList_ofList]

/-- Lexemes may touch, blanks and letters may be longer than a byte, and a point is part of a number only
before a digit. -/
example :
    Token.tokenize "uf\u3000ne'é'10and" = .ok
        [⟨.field .uf, 0⟩, ⟨.operator .ne, 5⟩, ⟨.text "é", 7⟩, ⟨.number "10", 11⟩, ⟨.and, 13⟩] ∧
      Token.tokenize "uf\u3000ne'é'10." = .error (.unexpectedCharacter '.' 13) := by
  exact ⟨rfl, rfl⟩

end OfferLedger.Filter
