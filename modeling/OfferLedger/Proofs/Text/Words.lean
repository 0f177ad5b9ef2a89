import OfferLedger.Text.Blank

/-! # Words between blanks

A text holds words apart from one another, with blanks around them as it likes. These words, and no others,
are what it is split into. -/
namespace OfferLedger.Text

/-- The text holds these words in this order. A word ends at a blank or at the end of the text. -/
inductive Spaced : List Char → List (List Char) → Prop where
  | blank {gap : List Char} : (∀ c ∈ gap, isBlank c = true) → Spaced gap []
  | word {gap word rest : List Char} {words : List (List Char)} :
      (∀ c ∈ gap, isBlank c = true) → word ≠ [] → (∀ c ∈ word, isBlank c = false) →
      (∀ c, rest.head? = some c → isBlank c = true) → Spaced rest words →
      Spaced (gap ++ (word ++ rest)) (word :: words)

theorem Spaced.cons_word {word rest : List Char} {words : List (List Char)} (hne : word ≠ [])
    (hword : ∀ c ∈ word, isBlank c = false) (hend : ∀ c, rest.head? = some c → isBlank c = true)
    (h : Spaced rest words) : Spaced (word ++ rest) (word :: words) :=
  @Spaced.word [] word rest words nofun hne hword hend h

theorem Spaced.cons_blank {c : Char} {cs : List Char} {words : List (List Char)}
    (hc : isBlank c = true) (h : Spaced cs words) : Spaced (c :: cs) words := by
  cases h with
  | blank hgap => exact .blank (List.forall_mem_cons.mpr ⟨hc, hgap⟩)
  | word hgap hne hword hend hrest =>
    rw [← List.cons_append]
    exact .word (List.forall_mem_cons.mpr ⟨hc, hgap⟩) hne hword hend hrest

theorem Spaced.mem {cs : List Char} {words : List (List Char)} (h : Spaced cs words) {c : Char}
    (hc : c ∈ cs) : isBlank c = true ∨ ∃ word ∈ words, c ∈ word := by
  induction h with
  | blank hgap => exact .inl (hgap c hc)
  | word hgap _ _ _ _ ih =>
    rcases List.mem_append.mp hc with hc | hc
    · exact .inl (hgap c hc)
    rcases List.mem_append.mp hc with hc | hc
    · exact .inr ⟨_, List.mem_cons_self .., hc⟩
    rcases ih hc with hc | ⟨word, hword, hc⟩
    · exact .inl hc
    · exact .inr ⟨word, List.mem_cons_of_mem _ hword, hc⟩

theorem wordsFrom_blank {c : Char} (hc : isBlank c = true) (run cs : List Char) :
    wordsFrom run (c :: cs) =
      if run.isEmpty then wordsFrom [] cs else run.reverse :: wordsFrom [] cs := by
  cases run <;> exact if_pos hc

theorem wordsFrom_not_blank {c : Char} (hc : isBlank c = false) (run cs : List Char) :
    wordsFrom run (c :: cs) = wordsFrom (c :: run) cs := by
  cases run <;> exact if_neg (by simp [hc])

theorem wordsFrom_gap {gap : List Char} (h : ∀ c ∈ gap, isBlank c = true) (cs : List Char) :
    wordsFrom [] (gap ++ cs) = wordsFrom [] cs := by
  induction gap with
  | nil => rfl
  | cons c gap ih =>
    obtain ⟨hc, hgap⟩ := List.forall_mem_cons.mp h
    rw [List.cons_append, wordsFrom_blank hc]
    exact ih hgap

theorem wordsFrom_word {word : List Char} (h : ∀ c ∈ word, isBlank c = false) (run rest : List Char) :
    wordsFrom run (word ++ rest) = wordsFrom (word.reverse ++ run) rest := by
  induction word generalizing run with
  | nil => rfl
  | cons c word ih =>
    obtain ⟨hc, hword⟩ := List.forall_mem_cons.mp h
    rw [List.cons_append, wordsFrom_not_blank hc, ih hword, List.reverse_cons, List.append_assoc]
    rfl

theorem wordsFrom_end {run rest : List Char} (hrun : run ≠ [])
    (h : ∀ c, rest.head? = some c → isBlank c = true) :
    wordsFrom run rest = run.reverse :: wordsFrom [] rest := by
  cases rest with
  | nil =>
    cases run with
    | nil => exact absurd rfl hrun
    | cons c run => rfl
  | cons c rest =>
    have hc := h c rfl
    rw [wordsFrom_blank hc, if_neg (by simpa using hrun), wordsFrom_blank hc]
    rfl

theorem Spaced.words_eq {cs : List Char} {ws : List (List Char)} (h : Spaced cs ws) :
    words cs = ws := by
  induction h with
  | @blank gap hgap =>
    have hempty := wordsFrom_gap hgap []
    rw [List.append_nil] at hempty
    exact hempty
  | @word gap word rest ws hgap hne hword hend _ ih =>
    have hrun : word.reverse ++ [] ≠ [] := by simpa using hne
    rw [words, wordsFrom_gap hgap, wordsFrom_word hword, wordsFrom_end hrun hend, List.append_nil,
      List.reverse_reverse]
    exact congrArg (word :: ·) ih

theorem spaced_wordsFrom {run : List Char} (h : ∀ c ∈ run, isBlank c = false) (cs : List Char) :
    Spaced (run.reverse ++ cs) (wordsFrom run cs) := by
  fun_induction wordsFrom run cs with
  | case1 => exact .blank nofun
  | case2 run hne =>
    have hword : ∀ c ∈ run.reverse, isBlank c = false := fun c hc => h c (List.mem_reverse.mp hc)
    exact .cons_word (by simpa using hne) hword nofun (.blank nofun)
  | case3 run c cs hc hempty ih =>
    have hnil : run = [] := by simpa using hempty
    subst hnil
    exact (ih nofun).cons_blank hc
  | case4 run c cs hc hne ih =>
    have hword : ∀ c ∈ run.reverse, isBlank c = false := fun c hc => h c (List.mem_reverse.mp hc)
    refine .cons_word (by simpa using hne) hword ?_ ((ih nofun).cons_blank hc)
    rintro d ⟨⟩
    exact hc
  | case5 run c cs hc ih =>
    have hspaced := ih (List.forall_mem_cons.mpr ⟨by simpa using hc, h⟩)
    rw [List.reverse_cons, List.append_assoc] at hspaced
    exact hspaced

theorem words_eq_iff {cs : List Char} {ws : List (List Char)} : words cs = ws ↔ Spaced cs ws := by
  constructor
  · rintro rfl
    have hrun : ∀ c ∈ ([] : List Char), isBlank c = false := nofun
    exact spaced_wordsFrom hrun cs
  · exact Spaced.words_eq

end OfferLedger.Text
