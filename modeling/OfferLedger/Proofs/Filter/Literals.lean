import OfferLedger.Proofs.Filter.RoundTrip

/-! # Literals

The literal of a text escapes its quotes and nothing else. A backslash at the end of the text therefore
makes an escape of the closing quote, and the literal never ends. No other text is misread, and no text
that is read from a filter ends in a backslash. -/
namespace OfferLedger

def Value.literal (v : Value) : String := String.ofList v.toChars

namespace Filter

theorem escaped_append (s t : List Char) : escaped (s ++ t) = escaped s ++ escaped t :=
  List.flatMap_append

theorem Token.readText_unclosed (s : List Char) : Token.readText (escaped s) = none := by
  induction s with
  | nil => rfl
  | cons c s ih =>
    by_cases hc : c = '\''
    · rw [hc, escaped_cons_quote, Token.readText, ih]
      rfl
    · have hnext : c = '\\' → (escaped s).head? ≠ some '\'' := by
        intro _
        by_cases hs : s = []
        · simp [hs, escaped]
        · simpa using head_escaped_ne_quote hs []
      rw [escaped_cons_of_ne hc, Token.readText_cons hc hnext, ih]
      rfl

theorem escaped_of_backslash {s : List Char} (hs : s.getLast? = some '\\') :
    ∃ t, escaped s ++ ['\''] = escaped t := by
  obtain ⟨before, rfl⟩ := List.getLast?_eq_some_iff.mp hs
  refine ⟨before ++ ['\''], ?_⟩
  rw [escaped_append, escaped_append, List.append_assoc]
  rfl

theorem tokenize_unclosed (s : List Char) :
    Token.tokenize (String.ofList ('\'' :: escaped s)) = .error (.unterminatedText 0) := by
  have hlexeme : Token.lexeme 0 '\'' (escaped s) = .error (.unterminatedText 0) := by
    simp [Token.lexeme, Token.readText_unclosed]
  rw [Token.tokenize, String.toList_ofList, Token.scan, if_neg (by decide), hlexeme]
  rfl

theorem tokenize_of_backslash {s : String} (hs : s.toList.getLast? = some '\\') :
    Token.tokenize (Value.text s).literal = .error (.unterminatedText 0) := by
  obtain ⟨t, ht⟩ := escaped_of_backslash hs
  have hliteral : (Value.text s).literal = String.ofList ('\'' :: escaped t) := by
    rw [← ht]
    rfl
  rw [hliteral, tokenize_unclosed]

theorem tokenize_of_readable {v : Value} (hv : Readable v) :
    Token.tokenize v.literal = .ok [⟨Token.ofValue v, 0⟩] := by
  apply Lexeme.tokenize
  rw [Value.literal, String.toList_ofList]
  exact lexeme_ofValue hv

/-- The literal of a text is one token, which holds that text, unless the text ends in a backslash; then
it is not closed. But no token holds such a text, so every value of a filter that was read is read from
its literal again. -/
theorem tokenize_literal :
    (∀ s : String,
      (Token.tokenize (Value.text s).literal = .ok [⟨.text s, 0⟩] ↔ s.toList.getLast? ≠ some '\\') ∧
      (s.toList.getLast? = some '\\' →
        Token.tokenize (Value.text s).literal = .error (.unterminatedText 0))) ∧
    (∀ input placed, Token.tokenize input = .ok placed → ∀ p ∈ placed, ∀ s, p.token = .text s →
      s.toList.getLast? ≠ some '\\') ∧
    ∀ input n, parse input = .ok n → ∀ v ∈ n.values,
      Token.tokenize v.literal = .ok [⟨Token.ofValue v, 0⟩] ∧
      ∀ f : Field, v.kind = f.kind → valueOf f (some (Token.ofValue v)) = .ok v := by
  refine ⟨fun s => ⟨⟨?_, ?_⟩, tokenize_of_backslash⟩, ?_, ?_⟩
  · intro h hs
    rw [tokenize_of_backslash hs] at h
    cases h
  · intro hs
    exact tokenize_of_readable (v := .text s) hs
  · intro input placed h p hp s hs
    refine (laid_of_scan h).readable ?_
    rw [← hs]
    exact List.mem_map_of_mem hp
  · intro input n h v hv
    have hread := readable_of_parse h v hv
    refine ⟨tokenize_of_readable hread, ?_⟩
    intro f hk
    exact (valueOf_eq_ok_iff f _ v).mpr (denotes_ofValue hread hk)

example :
    Token.tokenize (Value.text "a\\'").literal = .ok [⟨.text "a\\'", 0⟩] ∧
      Token.tokenize (Value.text "a'\\").literal = .error (.unterminatedText 0) := by
  exact ⟨rfl, rfl⟩

end Filter
end OfferLedger
