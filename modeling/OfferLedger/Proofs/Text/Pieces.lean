import OfferLedger.Text.Blank
import OfferLedger.Text.Pieces
import Mathlib.Data.List.TakeWhile
import Mathlib.Order.Basic

/-! # Texts and bytes cut apart and put together

They are cut where they were put together: at the first separator, and at all of them. -/
namespace OfferLedger.Text

section

variable {α : Type} {p : α → Bool} {part rest : List α} (hpart : ∀ a ∈ part, p a = true)
  (hrest : ∀ a, rest.head? = some a → p a = false)
include hpart hrest

theorem takeWhile_stop : (part ++ rest).takeWhile p = part := by
  rw [List.takeWhile_append_of_pos hpart]
  cases rest with
  | nil => simp
  | cons a rest => simp [hrest a rfl]

theorem dropWhile_stop : (part ++ rest).dropWhile p = rest := by
  rw [List.dropWhile_append_of_pos hpart]
  cases rest with
  | nil => rfl
  | cons a rest => simp [hrest a rfl]

end

theorem eq_splitOn {α : Type} [DecidableEq α] {separator : α} {cut : List α → List (List α)}
    (hnil : cut [] = [[]]) (hcut : ∀ rest, cut (separator :: rest) = [] :: cut rest)
    (hkeep : ∀ a rest piece more, a ≠ separator → cut rest = piece :: more →
      cut (a :: rest) = (a :: piece) :: more) (as : List α) : cut as = as.splitOn separator := by
  induction as with
  | nil => exact hnil
  | cons a rest ih =>
    rw [List.splitOn_cons_eq_if_modifyHead, ← ih]
    by_cases ha : a = separator
    · subst ha
      simp [hcut]
    · rw [if_neg (by simpa using ha)]
      cases hrest : cut rest with
      | nil => exact absurd (ih.symm.trans hrest) (List.splitOn_ne_nil separator rest)
      | cons piece more => exact hkeep a rest piece more ha hrest

theorem pieces_eq_splitOn (separator : UInt8) (bytes : List UInt8) :
    pieces separator bytes = bytes.splitOn separator := by
  apply eq_splitOn
  · rfl
  · intro rest
    rw [pieces, if_pos rfl]
  · intro a rest piece more ha h
    rw [pieces, if_neg ha, h]

theorem splitAt_eq_splitOn (separator : Char) (cs : List Char) :
    splitAt separator cs = cs.splitOn separator := by
  apply eq_splitOn
  · rfl
  · intro rest
    rw [splitAt, if_pos rfl]
  · intro a rest piece more ha h
    rw [splitAt, if_neg ha, h]

theorem not_mem_intercalate {b separator : UInt8} (hb : b ≠ separator) {written : List (List UInt8)}
    (h : ∀ piece ∈ written, b ∉ piece) : b ∉ [separator].intercalate written := by
  induction written with
  | nil => exact List.not_mem_nil
  | cons piece rest ih =>
    obtain ⟨hpiece, hrest⟩ := List.forall_mem_cons.mp h
    cases rest with
    | nil => simpa using hpiece
    | cons next more =>
      rw [List.intercalate_cons_cons]
      simpa [hpiece, hb] using ih hrest

theorem cutAt_append_left {b : UInt8} {start : List UInt8} (h : b ∉ start) (rest : List UInt8) :
    cutAt b (start ++ rest) = (start ++ (cutAt b rest).1, (cutAt b rest).2) := by
  have hpass : ∀ d ∈ start, decide (d ≠ b) = true := by
    intro d hd
    simpa using ne_of_mem_of_not_mem hd h
  rw [cutAt, cutAt, List.dropWhile_append_of_pos hpass, List.takeWhile_append_of_pos hpass]
  cases rest.dropWhile (· ≠ b) <;> rfl

theorem cutAt_of_not_mem {b : UInt8} {bytes : List UInt8} (h : b ∉ bytes) :
    cutAt b bytes = (bytes, none) := by
  have hcut := cutAt_append_left h []
  have hnil : cutAt b [] = ([], none) := rfl
  rwa [hnil, List.append_nil] at hcut

theorem cutAt_cons_self (b : UInt8) (rest : List UInt8) : cutAt b (b :: rest) = ([], some rest) := by
  simp [cutAt]

theorem cutAt_append {b : UInt8} {start : List UInt8} (h : b ∉ start) (rest : List UInt8) :
    cutAt b (start ++ b :: rest) = (start, some rest) := by
  rw [cutAt_append_left h, cutAt_cons_self, List.append_nil]

theorem after?_eq_some_iff (start bytes rest : List UInt8) :
    after? start bytes = some rest ↔ bytes = start ++ rest := by
  rw [after?, Option.ite_none_right_eq_some, List.isPrefixOf_iff_prefix, Option.some_inj]
  constructor
  · rintro ⟨⟨more, rfl⟩, rfl⟩
    rw [List.drop_left]
  · rintro rfl
    exact ⟨List.prefix_append _ _, List.drop_left⟩

theorem before?_eq_some_iff (ending bytes rest : List UInt8) :
    before? ending bytes = some rest ↔ bytes = rest ++ ending := by
  rw [before?, Option.map_eq_some_iff]
  constructor
  · rintro ⟨more, h, rfl⟩
    rw [after?_eq_some_iff] at h
    rw [← List.reverse_reverse bytes, h]
    simp
  · rintro rfl
    exact ⟨rest.reverse, (after?_eq_some_iff _ _ _).mpr (by simp), by simp⟩

end OfferLedger.Text
