import OfferLedger.Filter.Match
import OfferLedger.Query.Condition
import Mathlib.Data.List.Infix

/-! # Patterns made from literals

A literal in brackets is read back as atoms that accept its characters and no others. So a pattern with
a star at one end or at both decides whether the literal is a suffix, a prefix or a part of a text. -/
namespace OfferLedger

/-- A character that a pattern sees as it is. The matcher ends a text at U+0000 and replaces the other
two. -/
def Text.Plain (cs : List Char) : Prop :=
  ∀ c ∈ cs, c ≠ '\x00' ∧ c ≠ '\ufffe' ∧ c ≠ '\uffff'

instance (cs : List Char) : Decidable (Text.Plain cs) :=
  List.decidableBAll _ cs

theorem Text.Plain.map_readable {cs : List Char} (h : Text.Plain cs) :
    cs.map Query.readable = cs :=
  Query.map_readable cs fun c hc => (h c hc).2

theorem Text.Plain.append {a b : List Char} (ha : Text.Plain a) (hb : Text.Plain b) :
    Text.Plain (a ++ b) := by
  intro c hc
  rcases List.mem_append.mp hc with hc | hc
  · exact ha c hc
  · exact hb c hc

namespace Query

def Atom.exactly (c : Char) : Atom :=
  if c = '*' || c = '?' || c = '[' then .oneOf false [.single c] else .literal c

theorem matchAtoms_exactly (c d : Char) (rest : List Atom) (text : List Char) :
    matchAtoms (.exactly c :: rest) (d :: text) = (d == c && matchAtoms rest text) := by
  unfold Atom.exactly
  split
  · simp [matchAtoms, Atom.accepts, Member.covers]
  · rw [matchAtoms, Atom.accepts, Bool.beq_comm]
    intro h
    cases h

theorem matchAtoms_exactly_nil (c : Char) (rest : List Atom) :
    matchAtoms (.exactly c :: rest) [] = false := by
  unfold Atom.exactly
  split <;> rfl

theorem classMembers_close (previous : Option Char) (rest : List Char) :
    classMembers previous (']' :: rest) = some ([], rest) := by
  unfold classMembers
  exact if_pos rfl

theorem readClass_single {c : Char} (hc : c = '*' ∨ c = '?' ∨ c = '[') (rest : List Char) :
    readClass (c :: ']' :: rest) = some (.oneOf false [.single c], rest) := by
  rcases hc with rfl | rfl | rfl <;> simp [readClass, classMembers, classMembers_close]

theorem readAtoms_literal (s rest : List Char) (fuel : Nat)
    (hf : (globLiteral s).length + rest.length ≤ fuel) :
    ∃ fuel', rest.length ≤ fuel' ∧ readAtoms fuel (globLiteral s ++ rest) =
      (readAtoms fuel' rest).map (s.map Atom.exactly ++ ·) := by
  induction s generalizing fuel with
  | nil =>
    refine ⟨fuel, by omega, ?_⟩
    cases h : readAtoms fuel rest <;> simp [globLiteral, h]
  | cons c s ih =>
    have hcons : globLiteral (c :: s) =
        (if c = '*' || c = '?' || c = '[' then ['[', c, ']'] else [c]) ++ globLiteral s := rfl
    by_cases hc : (c = '*' || c = '?' || c = '[') = true
    · rw [hcons, if_pos hc] at hf ⊢
      have hclass : readClass (c :: ']' :: (globLiteral s ++ rest)) =
          some (.exactly c, globLiteral s ++ rest) := by
        rw [readClass_single (by simpa [or_assoc] using hc), Atom.exactly, if_pos hc]
      simp only [List.length_append, List.length_cons, List.length_nil] at hf
      obtain ⟨fuel, rfl⟩ : ∃ k, fuel = k + 1 := ⟨fuel - 1, by omega⟩
      obtain ⟨fuel', hf', h⟩ := ih fuel (by omega)
      refine ⟨fuel', hf', ?_⟩
      change readAtoms (fuel + 1) ('[' :: c :: ']' :: (globLiteral s ++ rest)) = _
      rw [readAtoms, if_neg (by decide), if_neg (by decide), if_pos rfl, hclass]
      change (readAtoms fuel (globLiteral s ++ rest)).map _ = _
      rw [h, List.map_cons]
      cases readAtoms fuel' rest <;> rfl
    · rw [hcons, if_neg hc] at hf ⊢
      simp only [List.length_append, List.length_cons, List.length_nil] at hf
      obtain ⟨fuel, rfl⟩ : ∃ k, fuel = k + 1 := ⟨fuel - 1, by omega⟩
      obtain ⟨fuel', hf', h⟩ := ih fuel (by omega)
      refine ⟨fuel', hf', ?_⟩
      have hexact : Atom.exactly c = .literal c := if_neg hc
      simp only [Bool.or_eq_true, decide_eq_true_eq, not_or] at hc
      change readAtoms (fuel + 1) (c :: (globLiteral s ++ rest)) = _
      rw [readAtoms, if_neg hc.1.1, if_neg hc.1.2, if_neg hc.2, h, List.map_cons, hexact]
      cases readAtoms fuel' rest <;> rfl

theorem remainders_eq_tails (text : List Char) : remainders text = text.tails := by
  induction text with
  | nil => rfl
  | cons c cs ih => rw [remainders, ih, List.tails]

theorem matchAtoms_literal (s : List Char) (rest : List Atom) (text : List Char) :
    matchAtoms (s.map Atom.exactly ++ rest) text = true ↔
      ∃ after, s ++ after = text ∧ matchAtoms rest after = true := by
  induction s generalizing text with
  | nil => simp
  | cons c s ih =>
    rw [List.map_cons, List.cons_append]
    cases text with
    | nil => simp [matchAtoms_exactly_nil]
    | cons d text =>
      rw [matchAtoms_exactly, Bool.and_eq_true, beq_iff_eq, ih]
      constructor
      · rintro ⟨rfl, after, rfl, h⟩
        exact ⟨after, rfl, h⟩
      · rintro ⟨after, heq, h⟩
        obtain ⟨rfl, rfl⟩ := List.cons_eq_cons.mp heq
        exact ⟨rfl, after, rfl, h⟩

theorem matchAtoms_anyText (rest : List Atom) (text : List Char) :
    matchAtoms (.anyText :: rest) text = true ↔
      ∃ after, after <:+ text ∧ matchAtoms rest after = true := by
  rw [matchAtoms, remainders_eq_tails, List.any_eq_true]
  simp only [List.mem_tails]

theorem matchAtoms_star (text : List Char) : matchAtoms [.anyText] text = true :=
  (matchAtoms_anyText [] text).mpr ⟨[], List.nil_suffix, rfl⟩

theorem plain_globLiteral {s : List Char} (h : Text.Plain s) : Text.Plain (globLiteral s) := by
  intro c hc
  obtain ⟨d, hd, hc⟩ := List.mem_flatMap.mp hc
  split at hc
  · simp only [List.mem_cons, List.not_mem_nil, or_false] at hc
    rcases hc with rfl | rfl | rfl
    · decide
    · exact h _ hd
    · decide
  · rw [List.mem_singleton.mp hc]
    exact h d hd

theorem readAtoms_nil (fuel : Nat) : readAtoms fuel [] = some [] := by
  cases fuel <;> rfl

theorem readAtoms_star (fuel : Nat) (cs : List Char) :
    readAtoms (fuel + 1) ('*' :: cs) = (readAtoms fuel cs).map (.anyText :: ·) := rfl

theorem readAtoms_literal_star (s : List Char) {fuel : Nat}
    (hf : (globLiteral s ++ ['*']).length ≤ fuel) :
    readAtoms fuel (globLiteral s ++ ['*']) = some (s.map Atom.exactly ++ [.anyText]) := by
  rw [List.length_append] at hf
  obtain ⟨fuel', hf', h⟩ := readAtoms_literal s ['*'] fuel hf
  obtain ⟨k, rfl⟩ : ∃ k, fuel' = k + 1 := Nat.exists_eq_add_of_le' hf'
  rw [h, readAtoms_star, readAtoms_nil]
  rfl

theorem readAtoms_literal_only (s : List Char) {fuel : Nat} (hf : (globLiteral s).length ≤ fuel) :
    readAtoms fuel (globLiteral s) = some (s.map Atom.exactly) := by
  obtain ⟨fuel', -, h⟩ := readAtoms_literal s [] fuel hf
  rw [List.append_nil] at h
  rw [h, readAtoms_nil, Option.map_some, List.append_nil]

theorem globMatches_of_readAtoms {pattern text : List Char} {atoms : List Atom}
    (hp : Text.Plain pattern) (ht : Text.Plain text)
    (h : readAtoms pattern.length pattern = some atoms) :
    globMatches pattern text = matchAtoms atoms text := by
  rw [globMatches, hp.map_readable, ht.map_readable, h]

theorem plain_star : Text.Plain ['*'] := by decide

section

variable {s text : List Char} (hs : Text.Plain s) (ht : Text.Plain text)
include hs ht

theorem globMatches_literal_star : globMatches (globLiteral s ++ ['*']) text = true ↔ s <+: text := by
  have hp : Text.Plain (globLiteral s ++ ['*']) := (plain_globLiteral hs).append plain_star
  rw [globMatches_of_readAtoms hp ht (readAtoms_literal_star s le_rfl), matchAtoms_literal]
  simp only [matchAtoms_star, and_true]
  rfl

theorem globMatches_star_literal : globMatches ('*' :: globLiteral s) text = true ↔ s <:+ text := by
  have hp : Text.Plain ('*' :: globLiteral s) := plain_star.append (plain_globLiteral hs)
  have hread : readAtoms ('*' :: globLiteral s).length ('*' :: globLiteral s) =
      some (.anyText :: s.map Atom.exactly) := by
    rw [List.length_cons, readAtoms_star, readAtoms_literal_only s le_rfl]
    rfl
  have hwhole : ∀ after, matchAtoms (s.map Atom.exactly) after = true ↔ s = after := by
    intro after
    have h := matchAtoms_literal s [] after
    rw [List.append_nil] at h
    rw [h]
    simp [matchAtoms]
  rw [globMatches_of_readAtoms hp ht hread, matchAtoms_anyText]
  simp only [hwhole]
  constructor
  · rintro ⟨_, hsuffix, rfl⟩
    exact hsuffix
  · exact fun h => ⟨s, h, rfl⟩

theorem globMatches_star_literal_star :
    globMatches ('*' :: (globLiteral s ++ ['*'])) text = true ↔ s <:+: text := by
  have hp : Text.Plain ('*' :: (globLiteral s ++ ['*'])) :=
    plain_star.append ((plain_globLiteral hs).append plain_star)
  have hread : readAtoms ('*' :: (globLiteral s ++ ['*'])).length ('*' :: (globLiteral s ++ ['*'])) =
      some (.anyText :: (s.map Atom.exactly ++ [.anyText])) := by
    rw [List.length_cons, readAtoms_star, readAtoms_literal_star s le_rfl]
    rfl
  rw [globMatches_of_readAtoms hp ht hread, matchAtoms_anyText, List.infix_iff_prefix_suffix]
  refine exists_congr fun after => ?_
  rw [and_comm, matchAtoms_literal]
  simp only [matchAtoms_star, and_true]
  rfl

end

/-- Whatever signs a literal is made of, the three patterns made from it decide whether it is a part, the
beginning or the end of a text. -/
theorem globMatches_parts {s text : List Char} (hs : Text.Plain s) (ht : Text.Plain text) :
    (globMatches ('*' :: (globLiteral s ++ ['*'])) text = true ↔ s <:+: text) ∧
      (globMatches (globLiteral s ++ ['*']) text = true ↔ s <+: text) ∧
      (globMatches ('*' :: globLiteral s) text = true ↔ s <:+ text) := by
  refine ⟨?_, ?_, ?_⟩
  · exact globMatches_star_literal_star hs ht
  · exact globMatches_literal_star hs ht
  · exact globMatches_star_literal hs ht

/-- A literal that would be a class, a range, an inversion and two wildcards if it were not one. -/
theorem globMatches_parts_of_signs :
    let s := "[^]-*?".toList
    let text := "a[^]-*?".toList
    Text.Plain s ∧ Text.Plain text ∧
      globMatches ('*' :: (globLiteral s ++ ['*'])) text = true ∧
      ¬ globMatches (globLiteral s ++ ['*']) text = true ∧
      globMatches ('*' :: globLiteral s) text = true := by
  intro s text
  have hs : Text.Plain s := by decide
  have ht : Text.Plain text := by decide
  obtain ⟨hpart, hstart, hend⟩ := globMatches_parts hs ht
  refine ⟨hs, ht, hpart.mpr ?_, fun h => ?_, hend.mpr ?_⟩
  · exact ⟨['a'], [], rfl⟩
  · exact absurd (hstart.mp h) (by decide)
  · exact ⟨['a'], rfl⟩

theorem containsPart_iff (part text : List Char) :
    Text.containsPart part text = true ↔ part <:+: text := by
  induction text with
  | nil => simp [Text.containsPart, List.isEmpty_iff, List.infix_nil]
  | cons c cs ih =>
    rw [Text.containsPart, Bool.or_eq_true, ih, List.isPrefixOf_iff_prefix, List.infix_cons_iff]

theorem globMatches_patternOf {op : Operator} (hop : op.isTextOnly = true) {s text : String}
    (hs : Text.Plain s.toList) (ht : Text.Plain text.toList) :
    globMatches (patternOf op s).toList text.toList = op.holdsText text.toList s.toList := by
  rw [Bool.eq_iff_iff]
  cases op with
  | contains =>
    rw [patternOf, String.toList_ofList, Operator.holdsText, containsPart_iff]
    exact globMatches_star_literal_star hs ht
  | startsWith =>
    rw [patternOf, String.toList_ofList, Operator.holdsText, List.isPrefixOf_iff_prefix]
    exact globMatches_literal_star hs ht
  | endsWith =>
    have hpattern : (patternOf .endsWith s).toList = '*' :: globLiteral s.toList :=
      String.toList_ofList
    have htext : Operator.holdsText .endsWith text.toList s.toList = s.toList.isSuffixOf text.toList :=
      rfl
    rw [hpattern, htext, List.isSuffixOf_iff_suffix]
    exact globMatches_star_literal hs ht
  | _ => cases hop

end Query
end OfferLedger
