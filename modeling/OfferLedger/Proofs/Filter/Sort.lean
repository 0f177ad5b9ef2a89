import OfferLedger.Filter.Sort
import OfferLedger.Proofs.Text.Pieces
import OfferLedger.Proofs.Text.Words
import Mathlib.Data.List.Forall2

/-! # Sort expressions are read segment by segment

Between commas stands the name of a field, and perhaps a direction. An expression is read exactly if all of
its segments are of this kind; otherwise the first one that is not is reported, by the first word of it that
does not fit. -/
namespace OfferLedger

theorem SortField.ofName?_eq_some_iff {s : String} {f : SortField} : ofName? s = some f ↔ f.name = s := by
  unfold ofName?
  constructor
  · intro h
    split_ifs at h with hs
    · cases h
      exact hs.symm
    · obtain ⟨g, hg, rfl⟩ := Option.map_eq_some_iff.mp h
      have hname : (g.name == s) = true := List.find?_some (p := fun g : Field => g.name == s) hg
      exact eq_of_beq hname
  · rintro rfl
    cases f with
    | createdAt => rfl
    | field g => cases g <;> rfl

theorem SortField.ofName?_eq_none_iff {s : String} : ofName? s = none ↔ ∀ f : SortField, f.name ≠ s := by
  rw [Option.eq_none_iff_forall_ne_some]
  exact forall_congr' fun f => not_congr ofName?_eq_some_iff

theorem Direction.ofName?_eq_some_iff {s : String} {d : Direction} : ofName? s = some d ↔ d.name = s := by
  unfold ofName?
  constructor
  · intro h
    split_ifs at h with hasc hdesc <;> cases h
    · exact hasc.symm
    · exact hdesc.symm
  · rintro rfl
    cases d <;> rfl

theorem Direction.ofName?_eq_none_iff {s : String} : ofName? s = none ↔ ∀ d : Direction, d.name ≠ s := by
  rw [Option.eq_none_iff_forall_ne_some]
  exact forall_congr' fun d => not_congr ofName?_eq_some_iff

namespace SortClause

open Text (Spaced)

/-- The segment is the clause as it may be written. Only the ascending direction may be left out. -/
inductive Written (segment : List Char) : SortClause → Prop where
  | field (f : SortField) : Spaced segment [f.name.toList] → Written segment ⟨f, .asc⟩
  | directed (f : SortField) (d : Direction) : Spaced segment [f.name.toList, d.name.toList] →
      Written segment ⟨f, d⟩

/-- What is wrong with a segment: it has no word, or the first word that does not fit is its first, its
second or its third. -/
inductive Fault (position : Nat) (segment : List Char) : ParseError → Prop where
  | empty : Spaced segment [] → Fault position segment (.emptyClause position)
  | field {name : String} {rest : List (List Char)} : Spaced segment (name.toList :: rest) →
      (∀ f : SortField, f.name ≠ name) → Fault position segment (.unknownField name)
  | direction {f : SortField} {word : String} {rest : List (List Char)} :
      Spaced segment (f.name.toList :: word.toList :: rest) → (∀ d : Direction, d.name ≠ word) →
      Fault position segment (.invalidDirection f.name word)
  | trailing {f : SortField} {d : Direction} {token : String} {rest : List (List Char)} :
      Spaced segment (f.name.toList :: d.name.toList :: token.toList :: rest) →
      Fault position segment (.trailingInput (String.ofList (Text.trim segment)) token)

theorem words_of_spaced {segment : List Char} {words : List (List Char)} (h : Spaced segment words) :
    (Text.words segment).map String.ofList = words.map String.ofList := by
  rw [h.words_eq]

theorem ofWords_of_written {position : Nat} {segment : List Char} {c : SortClause}
    (h : Written segment c) :
    ofWords position segment ((Text.words segment).map String.ofList) = .ok c := by
  cases h with
  | field f hspaced =>
    have hf : SortField.ofName? f.name = some f := SortField.ofName?_eq_some_iff.mpr rfl
    simp only [words_of_spaced hspaced, List.map_cons, List.map_nil, String.ofList_toList, ofWords, hf]
  | directed f d hspaced =>
    have hf : SortField.ofName? f.name = some f := SortField.ofName?_eq_some_iff.mpr rfl
    have hd : Direction.ofName? d.name = some d := Direction.ofName?_eq_some_iff.mpr rfl
    simp only [words_of_spaced hspaced, List.map_cons, List.map_nil, String.ofList_toList, ofWords, hf,
      hd]

theorem ofWords_of_fault {position : Nat} {segment : List Char} {e : ParseError}
    (h : Fault position segment e) :
    ofWords position segment ((Text.words segment).map String.ofList) = .error e := by
  cases h with
  | empty hspaced => simp only [words_of_spaced hspaced, List.map_nil, ofWords]
  | field hspaced hname =>
    have hf := SortField.ofName?_eq_none_iff.mpr hname
    simp only [words_of_spaced hspaced, List.map_cons, String.ofList_toList, ofWords, hf]
  | @direction f word rest hspaced hword =>
    have hf : SortField.ofName? f.name = some f := SortField.ofName?_eq_some_iff.mpr rfl
    have hd := Direction.ofName?_eq_none_iff.mpr hword
    simp only [words_of_spaced hspaced, List.map_cons, String.ofList_toList, ofWords, hf, hd]
  | @trailing f d token rest hspaced =>
    have hf : SortField.ofName? f.name = some f := SortField.ofName?_eq_some_iff.mpr rfl
    have hd : Direction.ofName? d.name = some d := Direction.ofName?_eq_some_iff.mpr rfl
    simp only [words_of_spaced hspaced, List.map_cons, String.ofList_toList, ofWords, hf, hd]

theorem written_or_fault (position : Nat) (segment : List Char) :
    (∃ c, Written segment c) ∨ ∃ e, Fault position segment e := by
  have hspaced : Spaced segment (Text.words segment) := Text.words_eq_iff.mp rfl
  rcases hwords : Text.words segment with _ | ⟨name, rest⟩ <;> rw [hwords] at hspaced
  · exact .inr ⟨_, .empty hspaced⟩
  have hlist : ∀ cs : List Char, (String.ofList cs).toList = cs := fun cs => String.toList_ofList
  by_cases hname : ∃ f : SortField, f.name = String.ofList name
  · obtain ⟨f, hf⟩ := hname
    rw [← hlist name, ← hf] at hspaced
    rcases rest with _ | ⟨word, rest⟩
    · exact .inl ⟨_, .field f hspaced⟩
    by_cases hword : ∃ d : Direction, d.name = String.ofList word
    · obtain ⟨d, hd⟩ := hword
      rw [← hlist word, ← hd] at hspaced
      rcases rest with _ | ⟨token, rest⟩
      · exact .inl ⟨_, .directed f d hspaced⟩
      · rw [← hlist token] at hspaced
        exact .inr ⟨_, .trailing hspaced⟩
    · rw [← hlist word] at hspaced
      exact .inr ⟨_, .direction hspaced fun d hd => hword ⟨d, hd⟩⟩
  · rw [← hlist name] at hspaced
    exact .inr ⟨_, .field hspaced fun f hf => hname ⟨f, hf⟩⟩

theorem Fault.not_written {position : Nat} {segment : List Char} {e : ParseError}
    (h : Fault position segment e) (c : SortClause) : ¬ Written segment c := by
  intro hc
  have hread := ofWords_of_fault h
  rw [ofWords_of_written hc] at hread
  cases hread

theorem Written.not_mem {segment : List Char} {c : SortClause} (h : Written segment c) :
    ',' ∉ segment := by
  have hfield : ∀ f : SortField, ',' ∉ f.name.toList := by
    rintro (f | _)
    · cases f <;> decide
    · decide
  have hdirection : ∀ d : Direction, ',' ∉ d.name.toList := by
    rintro (_ | _) <;> decide
  have hblank : Text.isBlank ',' ≠ true := by decide
  intro hmem
  cases h with
  | field f hspaced => simpa [hblank, hfield f] using hspaced.mem hmem
  | directed f d hspaced => simpa [hblank, hfield f, hdirection d] using hspaced.mem hmem

theorem forall_not_mem {segments : List (List Char)} {clauses : List SortClause}
    (h : List.Forall₂ Written segments clauses) : ∀ segment ∈ segments, ',' ∉ segment := by
  induction h with
  | nil => exact nofun
  | cons hc _ ih => exact List.forall_mem_cons.mpr ⟨hc.not_mem, ih⟩

theorem parseFrom_of_written {segments : List (List Char)} {clauses : List SortClause}
    (h : List.Forall₂ Written segments clauses) (position : Nat) :
    parseFrom position segments = .ok clauses := by
  induction h generalizing position with
  | nil => rfl
  | cons hc _ ih =>
    rw [parseFrom, ofWords_of_written hc]
    change (parseFrom (position + 1) _ >>= _) = _
    rw [ih]
    rfl

theorem parseFrom_of_fault {before : List (List Char)}
    (hbefore : ∀ segment ∈ before, ∃ c, Written segment c) {position : Nat} {bad : List Char}
    {e : ParseError} (h : Fault (before.length + position) bad e) (after : List (List Char)) :
    parseFrom position (before ++ bad :: after) = .error e := by
  induction before generalizing position with
  | nil =>
    rw [List.length_nil, Nat.zero_add] at h
    rw [List.nil_append, parseFrom, ofWords_of_fault h]
    rfl
  | cons segment before ih =>
    obtain ⟨⟨c, hc⟩, hbefore⟩ := List.forall_mem_cons.mp hbefore
    rw [List.length_cons, Nat.add_right_comm] at h
    rw [List.cons_append, parseFrom, ofWords_of_written hc]
    change (parseFrom (position + 1) _ >>= _) = _
    rw [ih hbefore h]
    rfl

theorem written_or_stopped (position : Nat) (segments : List (List Char)) :
    (∃ clauses, List.Forall₂ Written segments clauses) ∨
      ∃ before bad after e, segments = before ++ bad :: after ∧
        (∀ segment ∈ before, ∃ c, Written segment c) ∧ Fault (before.length + position) bad e := by
  induction segments generalizing position with
  | nil => exact .inl ⟨[], .nil⟩
  | cons segment rest ih =>
    rcases written_or_fault position segment with ⟨c, hc⟩ | ⟨e, he⟩
    · rcases ih (position + 1) with ⟨clauses, h⟩ | ⟨before, bad, after, e, rfl, hbefore, he⟩
      · exact .inl ⟨c :: clauses, .cons hc h⟩
      · rw [← Nat.add_assoc, Nat.add_right_comm] at he
        exact .inr ⟨segment :: before, bad, after, e, rfl,
          List.forall_mem_cons.mpr ⟨⟨c, hc⟩, hbefore⟩, he⟩
    · exact .inr ⟨[], segment, rest, e, rfl, nofun, by simpa using he⟩

theorem parse_of_blank {s : String} (h : Text.isBlankText s = true) : parse s = .error .empty :=
  if_pos h

theorem parse_of_not_blank {s : String} (h : ¬ Text.isBlankText s = true) :
    parse s = parseFrom 1 (s.toList.splitOn ',') := by
  rw [parse, if_neg h, Text.splitAt_eq_splitOn]

theorem not_written_of_blank {s : String} (h : Text.isBlankText s = true) (clauses : List SortClause) :
    ¬ List.Forall₂ Written (s.toList.splitOn ',') clauses := by
  have hblank : ∀ c ∈ s.toList, Text.isBlank c = true := List.all_eq_true.mp h
  have hcomma : ',' ∉ s.toList := by
    intro hmem
    cases hblank _ hmem
  rw [List.splitOn_eq_singleton hcomma]
  rintro (_ | ⟨hc, -⟩)
  have hfault : Fault 1 s.toList (.emptyClause 1) := .empty (.blank hblank)
  exact hfault.not_written _ hc

/-- An expression is read exactly if each of its segments is a clause as it may be written, and as these
clauses in their order. So clauses that are written in any such way are read back. Otherwise the expression
is blank or its first bad segment is reported. -/
theorem parse_segments :
    (∀ s clauses, parse s = .ok clauses ↔ List.Forall₂ Written (s.toList.splitOn ',') clauses) ∧
    (∀ segments clauses, clauses ≠ [] → List.Forall₂ Written segments clauses →
      parse (String.ofList ([','].intercalate segments)) = .ok clauses) ∧
    ∀ s e, parse s = .error e ↔
      ((∀ c ∈ s.toList, Text.isBlank c = true) ∧ e = .empty) ∨
      (¬ (∀ c ∈ s.toList, Text.isBlank c = true) ∧
        ∃ before bad after, s.toList.splitOn ',' = before ++ bad :: after ∧
          (∀ segment ∈ before, ∃ c, Written segment c) ∧ (∀ c, ¬ Written bad c) ∧
          Fault (before.length + 1) bad e) := by
  have hok : ∀ s clauses, parse s = .ok clauses ↔
      List.Forall₂ Written (s.toList.splitOn ',') clauses := by
    intro s clauses
    by_cases hblank : Text.isBlankText s = true
    · rw [parse_of_blank hblank]
      exact ⟨nofun, fun h => absurd h (not_written_of_blank hblank clauses)⟩
    rw [parse_of_not_blank hblank]
    constructor
    · intro h
      rcases written_or_stopped 1 (s.toList.splitOn ',') with
        ⟨clauses', hclauses⟩ | ⟨before, bad, after, e, hsplit, hbefore, he⟩
      · rw [parseFrom_of_written hclauses] at h
        cases h
        exact hclauses
      · rw [hsplit, parseFrom_of_fault hbefore he] at h
        cases h
    · exact fun h => parseFrom_of_written h 1
  refine ⟨hok, fun segments clauses hne h => ?_, fun s e => ?_⟩
  · have hsegments : segments ≠ [] := by
      rintro rfl
      cases h
      exact hne rfl
    rw [hok, String.toList_ofList, List.splitOn_intercalate ',' (forall_not_mem h) hsegments]
    exact h
  · by_cases hblank : Text.isBlankText s = true
    · have hall : ∀ c ∈ s.toList, Text.isBlank c = true := List.all_eq_true.mp hblank
      rw [parse_of_blank hblank]
      constructor
      · intro h
        cases h
        exact .inl ⟨hall, rfl⟩
      · rintro (⟨-, rfl⟩ | ⟨h, -⟩)
        · rfl
        · exact absurd hall h
    have hall : ¬ ∀ c ∈ s.toList, Text.isBlank c = true := fun h => hblank (List.all_eq_true.mpr h)
    rw [parse_of_not_blank hblank]
    constructor
    · intro h
      rcases written_or_stopped 1 (s.toList.splitOn ',') with
        ⟨clauses, hclauses⟩ | ⟨before, bad, after, e', hsplit, hbefore, he⟩
      · rw [parseFrom_of_written hclauses] at h
        cases h
      · rw [hsplit, parseFrom_of_fault hbefore he] at h
        cases h
        exact .inr ⟨hall, before, bad, after, hsplit, hbefore, he.not_written, he⟩
    · rintro (⟨h, -⟩ | ⟨-, before, bad, after, hsplit, hbefore, -, he⟩)
      · exact absurd h hall
      · rw [hsplit, parseFrom_of_fault hbefore he]

/-- Blanks of any kind may stand around words; of two bad segments the first one is reported. -/
theorem parse_segments_of_gaps :
    parse " uf ,createdAt\u3000desc" = .ok [⟨.field .uf, .asc⟩, ⟨.createdAt, .desc⟩] ∧
      parse "city asc,\t,uf up" = .error (.emptyClause 2) := by
  obtain ⟨-, hread, herror⟩ := parse_segments
  have huf : Written " uf ".toList ⟨.field .uf, .asc⟩ :=
    .field (.field .uf) (Text.words_eq_iff.mp (by decide))
  have hcreated : Written "createdAt\u3000desc".toList ⟨.createdAt, .desc⟩ :=
    .directed .createdAt .desc (Text.words_eq_iff.mp (by decide))
  have hcity : Written "city asc".toList ⟨.field .city, .asc⟩ :=
    .directed (.field .city) .asc (Text.words_eq_iff.mp (by decide))
  have hbad : Fault 2 "\t".toList (.emptyClause 2) := .empty (Text.words_eq_iff.mp (by decide))
  constructor
  · exact hread [" uf ".toList, "createdAt\u3000desc".toList] _ nofun
      (.cons huf (.cons hcreated .nil))
  · have hvisible : ¬ ∀ c ∈ "city asc,\t,uf up".toList, Text.isBlank c = true := by
      intro h
      exact absurd (h 'c' (by decide)) (by decide)
    refine (herror _ _).mpr (.inr ⟨hvisible, ["city asc".toList], "\t".toList, ["uf up".toList], ?_,
      ?_, hbad.not_written, hbad⟩)
    · rw [← Text.splitAt_eq_splitOn]
      rfl
    · simpa using ⟨_, hcity⟩

end SortClause
end OfferLedger
