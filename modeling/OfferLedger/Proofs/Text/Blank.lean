import OfferLedger.Text.Blank
import Mathlib.Data.List.DropRight

/-! # Trimmed texts

A text is trimmed when it neither begins nor ends with a blank. Trimming makes a text so, and leaves alone
one that is. -/
namespace OfferLedger.Text

/-- Neither end of the text is blank. -/
def Trimmed (cs : List Char) : Prop :=
  (∀ c, cs.head? = some c → isBlank c = false) ∧ ∀ c, cs.getLast? = some c → isBlank c = false

theorem trimStart_of_head {cs : List Char} (h : ∀ c, cs.head? = some c → isBlank c = false) :
    trimStart cs = cs := by
  cases cs with
  | nil => rfl
  | cons c rest => exact List.dropWhile_cons_of_neg (by simp [h c rfl])

theorem trimEnd_of_last {cs : List Char} (h : ∀ c, cs.getLast? = some c → isBlank c = false) :
    trimEnd cs = cs := by
  apply List.rdropWhile_eq_self_iff.mpr
  intro hne
  simp [h _ (List.getLast?_eq_some_getLast hne)]

theorem trim_of_trimmed {cs : List Char} (h : Trimmed cs) : trim cs = cs := by
  rw [trim, trimStart_of_head h.1, trimEnd_of_last h.2]

theorem isBlank_of_head_trimStart {cs : List Char} {c : Char} (h : (trimStart cs).head? = some c) :
    isBlank c = false := by
  have hhead := List.head?_dropWhile_not isBlank cs
  rw [trimStart] at h
  rw [h] at hhead
  simpa using hhead

theorem isBlank_of_last_trimEnd {cs : List Char} {c : Char}
    (h : (trimEnd cs).getLast? = some c) : isBlank c = false := by
  rw [trimEnd, List.getLast?_reverse] at h
  exact isBlank_of_head_trimStart h

theorem trimmed_trim (cs : List Char) : Trimmed (trim cs) := by
  refine ⟨fun c hc => ?_, fun c hc => isBlank_of_last_trimEnd hc⟩
  -- What is taken off the end leaves the first character where it was.
  have hprefix : trim cs <+: trimStart cs := List.rdropWhile_prefix isBlank _
  obtain ⟨rest, hrest⟩ := hprefix
  have hhead : (trimStart cs).head? = some c := by
    rw [← hrest, List.head?_append, hc]
    rfl
  exact isBlank_of_head_trimStart hhead

theorem trim_trim (cs : List Char) : trim (trim cs) = trim cs := trim_of_trimmed (trimmed_trim cs)

theorem trim_eq_nil_iff (s : String) : trim s.toList = [] ↔ isBlankText s = true := by
  change List.rdropWhile isBlank (trimStart s.toList) = [] ↔ s.toList.all isBlank = true
  rw [List.rdropWhile_eq_nil_iff, List.all_eq_true]
  constructor
  · intro h
    have hstart : trimStart s.toList = [] := by
      cases hcs : trimStart s.toList with
      | nil => rfl
      | cons c rest =>
        -- What is left begins with a character that is not blank.
        have hhead : (trimStart s.toList).head? = some c := by
          rw [hcs]
          rfl
        have hc := isBlank_of_head_trimStart hhead
        rw [h c (hcs ▸ List.mem_cons_self ..)] at hc
        cases hc
    exact List.dropWhile_eq_nil_iff.mp hstart
  · intro h c hc
    exact h c ((List.dropWhile_sublist _).subset hc)

theorem isEmpty_trimmed (s : String) : (trimmed s).isEmpty = isBlankText s := by
  rw [Bool.eq_iff_iff, ← trim_eq_nil_iff, trimmed, String.isEmpty_iff, String.ofList_eq_empty_iff]

theorem isBlank_of_visible {c : Char} (hfirst : 33 ≤ c.toNat) (hlast : c.toNat ≤ 126) :
    isBlank c = false := by
  simp only [isBlank, Bool.or_eq_false_iff, Bool.and_eq_false_iff, decide_eq_false_iff_not,
    beq_eq_false_iff_ne]
  omega

theorem trimmed_of_forall {cs : List Char} (h : ∀ c ∈ cs, isBlank c = false) : Trimmed cs :=
  ⟨fun c hc => h c (List.mem_of_head? hc), fun c hc => h c (List.mem_of_getLast? hc)⟩

end OfferLedger.Text
