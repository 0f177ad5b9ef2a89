import OfferLedger.Proofs.Decimal.RoundTrip
import OfferLedger.Proofs.Failing
import OfferLedger.Proofs.Filter.Grammar
import OfferLedger.Proofs.Text.Pieces
import OfferLedger.Proofs.Text.Utf8

/-! # Cutting texts into tokens

The lexemes, which are the texts of the tokens, and what a text is cut into that begins with one. A mark and
a text literal end by themselves, a word or a number only where nothing follows that could go on with it.
Every text value has a literal unless it ends in a backslash, and no token holds such a value. -/
namespace OfferLedger.Filter

/-- A text is cut into these tokens, wherever it begins. -/
def Cuts (cs : List Char) (ts : List Token) : Prop :=
  ∀ offset, ∃ placed, Token.scan offset 0 cs = .ok placed ∧ placed.map (·.token) = ts

/-- No word and no number goes on in what follows. -/
def Apart (rest : List Char) : Prop :=
  ∀ c, rest.head? = some c → Token.isWordPart c = false ∧ c ≠ '.'

theorem apart_nil : Apart [] := fun _ h => by cases h

theorem apart_cons {c : Char} {rest : List Char} (hc : Token.isWordPart c = false) (hdot : c ≠ '.') :
    Apart (c :: rest) := by
  intro d hd
  cases hd
  exact ⟨hc, hdot⟩

def IsWord : List Char → Bool
  | [] => false
  | c :: part => Token.isWordStart c && part.all Token.isWordPart

theorem isWord_name (f : Field) : IsWord f.name.toList = true := by cases f <;> decide

theorem isWord_operator (op : Operator) : IsWord op.name.toList = true := by cases op <;> decide

theorem ofWord?_field (f : Field) : Token.ofWord? f.name = some (.field f) := by cases f <;> decide

theorem ofWord?_operator (op : Operator) : Token.ofWord? op.name = some (.operator op) := by
  cases op <;> decide

theorem Token.apart_of_isWordStart {c : Char} (h : Token.isWordStart c = true) :
    c ≠ '(' ∧ c ≠ ')' ∧ c ≠ ',' ∧ c ≠ '\'' ∧ c ≠ '-' ∧ Decimal.isDigit c = false ∧
      Text.isBlank c = false := by
  have hcode : 65 ≤ c.toNat ∧ c.toNat ≤ 122 := by
    change (decide (c.val ≥ 'A'.val ∧ c.val ≤ 'Z'.val) ||
      (decide (c.val ≥ 'a'.val) && decide (c.val ≤ 'z'.val)) || decide (c = '_')) = true at h
    simp only [Bool.or_eq_true, Bool.and_eq_true, decide_eq_true_eq] at h
    rcases h with (h | h) | rfl
    · exact ⟨h.1, le_trans h.2 (by decide)⟩
    · exact ⟨le_trans (by decide) h.1, h.2⟩
    · decide
  refine ⟨?_, ?_, ?_, ?_, ?_, ?_, ?_⟩
  iterate 5
    · rintro rfl
      exact absurd hcode (by decide)
  · by_contra hdigit
    have hdigit := Decimal.code_of_isDigit (by simpa using hdigit)
    omega
  · apply Text.isBlank_of_visible <;> omega

theorem Token.lexeme_word {w : String} {c : Char} {part rest : List Char}
    (hchars : w.toList = c :: part) (hw : IsWord w.toList = true)
    (hrest : ∀ d, rest.head? = some d → Token.isWordPart d = false) (offset : Nat) :
    Token.lexeme offset c (part ++ rest) =
      match Token.ofWord? w with
      | some t => .ok (t, part.length)
      | none => .error (.unknownWord w offset) := by
  rw [hchars] at hw
  obtain ⟨hc, hpart⟩ := Bool.and_eq_true_iff.mp hw
  obtain ⟨hopen, hclose, hcomma, hquote, hminus, hdigit, -⟩ := Token.apart_of_isWordStart hc
  have hword : String.ofList (c :: part) = w := by rw [← hchars, String.ofList_toList]
  rw [Token.lexeme, if_neg hopen, if_neg hclose, if_neg hcomma, if_neg hquote,
    if_neg (by simp [hdigit, hminus]), if_pos hc, Text.takeWhile_stop (List.all_eq_true.mp hpart) hrest]
  subst hword
  rfl

def escaped (s : List Char) : List Char :=
  s.flatMap fun c => if c = '\'' then ['\\', '\''] else [c]

theorem escaped_cons_quote (s : List Char) : escaped ('\'' :: s) = '\\' :: '\'' :: escaped s := rfl

theorem escaped_cons_of_ne {c : Char} (hc : c ≠ '\'') (s : List Char) :
    escaped (c :: s) = c :: escaped s := by
  rw [escaped, List.flatMap_cons, if_neg hc]
  rfl

theorem head_escaped_ne_quote {s : List Char} (hs : s ≠ []) (rest : List Char) :
    (escaped s ++ rest).head? ≠ some '\'' := by
  cases s with
  | nil => exact absurd rfl hs
  | cons c s =>
    by_cases hc : c = '\''
    · rw [hc, escaped_cons_quote]
      simp
    · rw [escaped_cons_of_ne hc]
      simpa using hc

theorem Token.readText_cons {c : Char} {cs : List Char} (hc : c ≠ '\'')
    (hnext : c = '\\' → cs.head? ≠ some '\'') :
    Token.readText (c :: cs) = (Token.readText cs).map fun (s, n) => (c :: s, n + 1) := by
  rw [Token.readText.eq_def]
  split
  · rename_i h
    cases h
  · rename_i h
    cases h
    exact absurd rfl (hnext rfl)
  · rename_i h
    cases h
    exact absurd rfl hc
  · rename_i h
    cases h
    rfl

/-- A literal is read to its closing quote, unless a backslash comes right before that quote. -/
theorem Token.readText_escaped {s : List Char} (hs : s.getLast? ≠ some '\\') (rest : List Char) :
    Token.readText (escaped s ++ '\'' :: rest) = some (s, (escaped s).length + 1) := by
  induction s with
  | nil => rfl
  | cons c s ih =>
    have hlast : s.getLast? ≠ some '\\' := by
      intro h
      apply hs
      rw [List.getLast?_cons, h]
      rfl
    by_cases hc : c = '\''
    · rw [hc, escaped_cons_quote, List.cons_append, List.cons_append, Token.readText, ih hlast]
      rfl
    · have hnext : c = '\\' → (escaped s ++ '\'' :: rest).head? ≠ some '\'' := by
        rintro rfl
        apply head_escaped_ne_quote
        rintro rfl
        exact hs rfl
      rw [escaped_cons_of_ne hc, List.cons_append, Token.readText_cons hc hnext, ih hlast]
      rfl

/-- A text that was read is what stands escaped before a quote, and it does not end in a backslash: the
quote behind it would have been escaped. -/
theorem Token.of_readText {cs s : List Char} {n : Nat} (h : Token.readText cs = some (s, n)) :
    s.getLast? ≠ some '\\' ∧ ∃ rest, cs = escaped s ++ '\'' :: rest := by
  induction cs using Token.readText.induct generalizing s n with
  | case1 => cases h
  | case2 cs ih =>
    rw [Token.readText] at h
    obtain ⟨⟨s, m⟩, hread, h⟩ := Option.map_eq_some_iff.mp h
    cases h
    obtain ⟨hlast, rest, rfl⟩ := ih hread
    refine ⟨?_, rest, by rw [escaped_cons_quote]; rfl⟩
    cases s with
    | nil => simp
    | cons d s => rwa [List.getLast?_cons_cons]
  | case3 cs =>
    rw [Token.readText] at h
    cases h
    exact ⟨by simp, cs, rfl⟩
  | case4 c cs hescape hquote ih =>
    rw [Token.readText] at h
    · obtain ⟨⟨s, m⟩, hread, h⟩ := Option.map_eq_some_iff.mp h
      cases h
      obtain ⟨hlast, rest, rfl⟩ := ih hread
      refine ⟨?_, rest, by rw [escaped_cons_of_ne hquote]; rfl⟩
      cases s with
      | nil =>
        intro hc
        exact hescape rest (Option.some.inj hc) rfl
      | cons d s => rwa [List.getLast?_cons_cons]
    · exact hescape
    · exact hquote

theorem Token.lexeme_text {s : String} (hs : s.toList.getLast? ≠ some '\\') (rest : List Char)
    (offset : Nat) :
    Token.lexeme offset '\'' ((escaped s.toList ++ ['\'']) ++ rest) =
      .ok (.text s, (escaped s.toList ++ ['\'']).length) := by
  rw [List.append_assoc, List.singleton_append]
  simp [Token.lexeme, Token.readText_escaped hs rest]

theorem Token.isWordPart_of_isDigit {c : Char} (h : Decimal.isDigit c = true) :
    Token.isWordPart c = true := by
  rw [Decimal.isDigit_eq] at h
  simp [Token.isWordPart, Char.isAlphanum, h]

theorem Apart.not_digit {rest : List Char} (h : Apart rest) :
    ∀ c, rest.head? = some c → Decimal.isDigit c = false := by
  intro c hc
  by_contra hdigit
  have hpart := Token.isWordPart_of_isDigit (by simpa using hdigit)
  rw [(h c hc).1] at hpart
  cases hpart

theorem Token.fractionLength_point {fraction rest : List Char} (hne : fraction ≠ [])
    (hfraction : ∀ c ∈ fraction, Decimal.isDigit c = true)
    (hrest : ∀ c, rest.head? = some c → Decimal.isDigit c = false) :
    Token.fractionLength ('.' :: (fraction ++ rest)) = fraction.length + 1 := by
  cases fraction with
  | nil => exact absurd rfl hne
  | cons d ds =>
    have hd := hfraction d (List.mem_cons_self ..)
    have hds := Text.takeWhile_stop (fun c hc => hfraction c (List.mem_cons_of_mem _ hc)) hrest
    simp only [List.cons_append, Token.fractionLength, hd, if_true, hds, List.length_cons]
    omega

theorem Token.numberLength_digits {digits fraction rest : List Char}
    (hdigits : ∀ c ∈ digits, Decimal.isDigit c = true)
    (hfraction : ∀ c ∈ fraction, Decimal.isDigit c = true)
    (hrest : ∀ c, rest.head? = some c → Decimal.isDigit c = false)
    (hpoint : fraction = [] → Token.fractionLength rest = 0) :
    let part := digits ++ if fraction = [] then [] else '.' :: fraction
    Token.numberLength (part ++ rest) = part.length := by
  intro part
  by_cases hnil : fraction = []
  · have hpart : part = digits := by simp [part, hnil]
    rw [hpart, Token.numberLength, Text.takeWhile_stop hdigits hrest, List.drop_left, hpoint hnil]
    rfl
  · have hpart : part = digits ++ '.' :: fraction := by simp [part, hnil]
    have hdot : ∀ c, ('.' :: (fraction ++ rest)).head? = some c → Decimal.isDigit c = false := by
      intro c hc
      cases hc
      rfl
    rw [hpart, List.append_assoc, List.cons_append, Token.numberLength,
      Text.takeWhile_stop hdigits hdot, List.drop_left, Token.fractionLength_point hnil hfraction hrest]
    simp

theorem Token.lexeme_number {c : Char} {part rest : List Char}
    (hc : Decimal.isDigit c = true ∨ c = '-' ∧ Token.startsDigit (part ++ rest) = true)
    (hlen : Token.numberLength (part ++ rest) = part.length) (offset : Nat) :
    Token.lexeme offset c (part ++ rest) =
      .ok (.number (String.ofList (c :: part)), part.length) := by
  have hapart : c ≠ '(' ∧ c ≠ ')' ∧ c ≠ ',' ∧ c ≠ '\'' := by
    rcases hc with hc | ⟨rfl, -⟩
    · refine ⟨?_, ?_, ?_, ?_⟩ <;> exact Decimal.ne_of_isDigit rfl hc
    · decide
  obtain ⟨hopen, hclose, hcomma, hquote⟩ := hapart
  have hstart : (Decimal.isDigit c || (c = '-' && Token.startsDigit (part ++ rest))) = true := by
    rcases hc with hc | ⟨rfl, hd⟩
    · simp [hc]
    · simp [hd]
  rw [Token.lexeme, if_neg hopen, if_neg hclose, if_neg hcomma, if_neg hquote, if_pos hstart, hlen]
  simp

theorem Token.lexeme_parts {p : Decimal.Parts} (hp : p.Plain) :
    ∃ c part, p.toChars = c :: part ∧ Text.isBlank c = false ∧ ∀ rest,
      (∀ d, rest.head? = some d → Decimal.isDigit d = false) →
      (p.fraction = [] → Token.fractionLength rest = 0) → ∀ offset,
        Token.lexeme offset c (part ++ rest) = .ok (.number (String.ofList (c :: part)), part.length) := by
  obtain ⟨negative, whole, fraction⟩ := p
  cases whole with
  | nil => exact absurd rfl hp.whole_ne_nil
  | cons c digits =>
    have hc : Decimal.isDigit c = true := hp.whole c (List.mem_cons_self ..)
    cases negative with
    | true =>
      refine ⟨'-', _, rfl, rfl, fun rest hdigit hpoint => Token.lexeme_number (.inr ⟨rfl, hc⟩) ?_⟩
      exact Token.numberLength_digits hp.whole hp.fraction hdigit hpoint
    | false =>
      refine ⟨c, _, rfl, Decimal.isBlank_of_isDigit hc, fun rest hdigit hpoint =>
        Token.lexeme_number (.inl hc) ?_⟩
      exact Token.numberLength_digits (fun d hd => hp.whole d (List.mem_cons_of_mem _ hd))
        hp.fraction hdigit hpoint

inductive Lexeme : List Char → Token → Prop where
  | leftParen : Lexeme ['('] .leftParen
  | rightParen : Lexeme [')'] .rightParen
  | comma : Lexeme [','] .comma
  | word {w : String} {t : Token} : IsWord w.toList = true → Token.ofWord? w = some t →
      Lexeme w.toList t
  | text {s : String} : s.toList.getLast? ≠ some '\\' → Lexeme (Value.text s).toChars (.text s)
  | number {p : Decimal.Parts} : p.Plain → Lexeme p.toChars (.number (String.ofList p.toChars))

def Token.isWord : Token → Bool
  | .field _ | .operator _ | .and | .or | .not | .inList => true
  | _ => false

theorem Token.isWord_of_ofWord? {w : String} {t : Token} (h : Token.ofWord? w = some t) :
    t.isWord = true := by
  unfold Token.ofWord? at h
  split_ifs at h
  iterate 4
    · cases h
      rfl
  split at h
  · cases h
    rfl
  · obtain ⟨_, -, rfl⟩ := Option.map_eq_some_iff.mp h
    rfl

/-- What follows does not go on with the lexeme of the token. A point with a digit behind it goes on
with a number that has no fraction yet. -/
def Token.Ends (t : Token) (rest : List Char) : Prop :=
  match t with
  | .leftParen | .rightParen | .comma | .text _ => True
  | .number source => (∀ c, rest.head? = some c → Decimal.isDigit c = false) ∧
      ('.' ∉ source.toList → ∀ d cs, rest = '.' :: d :: cs → Decimal.isDigit d = false)
  | _ => ∀ c, rest.head? = some c → Token.isWordPart c = false

theorem Token.ends_word {t : Token} (h : t.isWord = true) (rest : List Char) :
    t.Ends rest ↔ ∀ c, rest.head? = some c → Token.isWordPart c = false := by
  cases t with
  | leftParen | rightParen | comma | text | number => cases h
  | _ => rfl

theorem Apart.ends {rest : List Char} (h : Apart rest) (t : Token) : t.Ends rest := by
  cases t with
  | leftParen | rightParen | comma | text => trivial
  | number source =>
    refine ⟨h.not_digit, fun _ d cs hrest => ?_⟩
    rw [hrest] at h
    exact absurd rfl (h '.' rfl).2
  | _ => exact fun c hc => (h c hc).1

theorem Token.fractionLength_eq_zero_iff (rest : List Char) :
    Token.fractionLength rest = 0 ↔
      ∀ d cs, rest = '.' :: d :: cs → Decimal.isDigit d = false := by
  unfold Token.fractionLength
  split
  · rename_i d cs
    split
    · rename_i hd
      refine ⟨fun h => by omega, fun h => ?_⟩
      rw [h d cs rfl] at hd
      cases hd
    · rename_i hd
      refine ⟨fun _ d' cs' heq => ?_, fun _ => rfl⟩
      cases heq
      simpa using hd
  · rename_i hne
    exact ⟨fun _ d cs heq => absurd heq (hne d cs), fun _ => rfl⟩

theorem point_mem_toChars_iff {p : Decimal.Parts} (hp : p.Plain) :
    '.' ∈ p.toChars ↔ p.fraction ≠ [] := by
  have hwhole : '.' ∉ p.whole := fun h => Decimal.ne_of_isDigit rfl (hp.whole _ h) rfl
  have hsign : '.' ∉ (if p.negative then ['-'] else []) := by split <;> simp
  rw [Decimal.Parts.toChars, List.mem_append, List.mem_append]
  by_cases hnil : p.fraction = []
  · simp [hwhole, hsign, hnil]
  · simp [hnil]

theorem Lexeme.read {cs : List Char} {t : Token} (h : Lexeme cs t) :
    ∃ c part, cs = c :: part ∧ Text.isBlank c = false ∧ ∀ rest, t.Ends rest → ∀ offset,
      Token.lexeme offset c (part ++ rest) = .ok (t, part.length) := by
  cases h with
  | leftParen | rightParen | comma => exact ⟨_, [], rfl, rfl, fun _ _ _ => rfl⟩
  | @word w t hw ht =>
    cases hchars : w.toList with
    | nil =>
      rw [hchars] at hw
      cases hw
    | cons c part =>
      have hstart : Token.isWordStart c = true := by
        rw [hchars] at hw
        exact (Bool.and_eq_true_iff.mp hw).1
      obtain ⟨-, -, -, -, -, -, hblank⟩ := Token.apart_of_isWordStart hstart
      refine ⟨c, part, rfl, hblank, fun rest hrest offset => ?_⟩
      have hend := (Token.ends_word (Token.isWord_of_ofWord? ht) rest).mp hrest
      rw [Token.lexeme_word hchars hw hend, ht]
  | text hs => exact ⟨'\'', _, rfl, rfl, fun rest _ => Token.lexeme_text hs rest⟩
  | @number p hp =>
    obtain ⟨c, part, hchars, hblank, hread⟩ := Token.lexeme_parts hp
    refine ⟨c, part, hchars, hblank, fun rest hrest => ?_⟩
    rw [hchars]
    refine hread rest hrest.1 fun hnil => ?_
    have hpoint : '.' ∉ p.toChars := fun h => (point_mem_toChars_iff hp).mp h hnil
    exact (Token.fractionLength_eq_zero_iff rest).mpr
      (hrest.2 (by rwa [String.toList_ofList]))

theorem Token.scan_skip (offset : Nat) (part rest : List Char) :
    Token.scan offset part.length (part ++ rest) =
      Token.scan (offset + Text.byteSize part) 0 rest := by
  induction part generalizing offset with
  | nil => rfl
  | cons c part ih =>
    rw [Text.byteSize_cons, ← Nat.add_assoc]
    exact ih (offset + c.utf8Size)

theorem Lexeme.scan {cs : List Char} {t : Token} (h : Lexeme cs t) {rest : List Char}
    (hrest : t.Ends rest) (offset : Nat) :
    Token.scan offset 0 (cs ++ rest) =
      (Token.scan (offset + Text.byteSize cs) 0 rest).map (⟨t, offset⟩ :: ·) := by
  obtain ⟨c, part, rfl, hblank, hread⟩ := h.read
  rw [List.cons_append, Token.scan, if_neg (by simp [hblank]), hread rest hrest offset,
    Text.byteSize_cons, ← Nat.add_assoc]
  simp only [bind, Except.bind, Token.scan_skip]
  rfl

theorem cuts_nil : Cuts [] [] := fun _ => ⟨[], rfl, rfl⟩

section

variable {cs rest : List Char} {ts : List Token}

theorem Cuts.blank {c : Char} (h : Cuts rest ts) (hc : Text.isBlank c = true) :
    Cuts (c :: rest) ts := by
  intro offset
  obtain ⟨placed, hscan, hplaced⟩ := h (offset + c.utf8Size)
  refine ⟨placed, ?_, hplaced⟩
  rw [Token.scan, if_pos hc]
  exact hscan

theorem Lexeme.cuts {t : Token} (h : Lexeme cs t) (hrest : t.Ends rest) (hts : Cuts rest ts) :
    Cuts (cs ++ rest) (t :: ts) := by
  intro offset
  obtain ⟨placed, hscan, rfl⟩ := hts (offset + Text.byteSize cs)
  refine ⟨⟨t, offset⟩ :: placed, ?_, rfl⟩
  rw [h.scan hrest, hscan]
  rfl

theorem Cuts.leftParen (h : Cuts rest ts) : Cuts ('(' :: rest) (.leftParen :: ts) :=
  Lexeme.leftParen.cuts trivial h

theorem Cuts.rightParen (h : Cuts rest ts) : Cuts (')' :: rest) (.rightParen :: ts) :=
  Lexeme.rightParen.cuts trivial h

theorem Cuts.comma (h : Cuts rest ts) : Cuts (',' :: rest) (.comma :: ts) :=
  Lexeme.comma.cuts trivial h

theorem Cuts.word {w : String} {t : Token} (h : Cuts rest ts) (hw : IsWord w.toList = true)
    (ht : Token.ofWord? w = some t) (hrest : Apart rest) : Cuts (w.toList ++ rest) (t :: ts) :=
  (Lexeme.word hw ht).cuts (hrest.ends t) h

end

def Token.ofValue : Value → Token
  | .text s => .text s
  | .number d => .number (toString d)

def Readable : Value → Prop
  | .text s => s.toList.getLast? ≠ some '\\'
  | .number d => -9223372036854775808 < d.micros

theorem lexeme_ofValue {v : Value} (hv : Readable v) : Lexeme v.toChars (Token.ofValue v) := by
  cases v with
  | text s => exact .text hv
  | number d =>
    have hnumber := Lexeme.number d.plain_parts
    rwa [← Decimal.toChars_eq] at hnumber

theorem Cuts.literal {v : Value} (hv : Readable v) {rest : List Char} {ts : List Token}
    (h : Cuts rest ts) (hrest : Apart rest) : Cuts (v.toChars ++ rest) (Token.ofValue v :: ts) :=
  (lexeme_ofValue hv).cuts (hrest.ends _) h

theorem denotes_ofValue {f : Field} {v : Value} (hv : Readable v) (hk : v.kind = f.kind) :
    Denotes f (Token.ofValue v) v := by
  cases v with
  | text s => exact .text s hk.symm
  | number d => exact .number hk.symm ((Decimal.parse_toString d).trans (if_pos hv))

end OfferLedger.Filter
