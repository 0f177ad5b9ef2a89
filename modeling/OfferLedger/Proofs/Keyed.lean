import OfferLedger.Keyed
import Mathlib.Data.List.Induction
import Mathlib.Data.List.Nodup

/-! # Laws of keyed lists

Of several entries for one key the last one is found, and each key stands once, in the order in which
the keys first occurred. -/
namespace OfferLedger

theorem eraseDups_concat {α : Type} [DecidableEq α] (xs : List α) (x : α) :
    (xs ++ [x]).eraseDups = if x ∈ xs then xs.eraseDups else xs.eraseDups ++ [x] := by
  rw [List.eraseDups_append]
  by_cases hx : x ∈ xs
  · simp [List.removeAll, hx]
  · simp [List.removeAll, hx, List.eraseDups_cons]

theorem pairwise_idxOf_eraseDups {α : Type} [DecidableEq α] (xs : List α) :
    xs.eraseDups.Pairwise fun a b => xs.idxOf a < xs.idxOf b := by
  induction xs using List.reverseRecOn with
  | nil => exact List.Pairwise.nil
  | append_singleton xs x ih =>
    have hold : xs.eraseDups.Pairwise fun a b => (xs ++ [x]).idxOf a < (xs ++ [x]).idxOf b := by
      refine ih.imp_of_mem fun ha hb h => ?_
      rw [List.idxOf_append_of_mem (List.mem_eraseDups.mp ha),
        List.idxOf_append_of_mem (List.mem_eraseDups.mp hb)]
      exact h
    rw [eraseDups_concat]
    split
    · exact hold
    · rename_i hx
      refine List.pairwise_append.mpr ⟨hold, List.pairwise_singleton _ x, fun a ha b hb => ?_⟩
      have ha := List.mem_eraseDups.mp ha
      rw [List.mem_singleton.mp hb, List.idxOf_append_of_mem ha, List.idxOf_append_of_notMem hx]
      exact Nat.lt_add_right _ (List.idxOf_lt_length_iff.mpr ha)

theorem nodup_eraseDups {α : Type} [DecidableEq α] (xs : List α) : xs.eraseDups.Nodup := by
  refine (pairwise_idxOf_eraseDups xs).imp fun h heq => ?_
  rw [heq] at h
  exact Nat.lt_irrefl _ h

theorem eraseDups_of_nodup {α : Type} [DecidableEq α] {xs : List α} (h : xs.Nodup) :
    xs.eraseDups = xs := by
  induction xs using List.reverseRecOn with
  | nil => rfl
  | append_singleton xs x ih =>
    obtain ⟨hxs, -, hne⟩ := List.nodup_append.mp h
    have hx : x ∉ xs := fun hm => hne x hm x (List.mem_singleton_self x) rfl
    rw [eraseDups_concat, if_neg hx, ih hxs]

namespace Keyed

variable {κ ν : Type} [DecidableEq κ]

def last? (entries : List (κ × ν)) (k : κ) : Option ν :=
  (entries.reverse.find? (·.1 = k)).map (·.2)

theorem last?_append (a b : List (κ × ν)) (k : κ) :
    last? (a ++ b) k = (last? b k).or (last? a k) := by
  unfold last?
  rw [List.reverse_append, List.find?_append]
  cases b.reverse.find? (·.1 = k) <;> rfl

theorem last?_singleton (e : κ × ν) (k : κ) :
    last? [e] k = if e.1 = k then some e.2 else none := by
  by_cases h : e.1 = k <;> simp [last?, h]

theorem mem_of_last? {entries : List (κ × ν)} {k : κ} {v : ν} (h : last? entries k = some v) :
    (k, v) ∈ entries := by
  obtain ⟨e, he, rfl⟩ := Option.map_eq_some_iff.mp h
  have hk : e.1 = k := by simpa using List.find?_some he
  subst hk
  exact List.mem_reverse.mp (List.mem_of_find?_eq_some he)

theorem last?_isSome_iff (entries : List (κ × ν)) (k : κ) :
    (last? entries k).isSome ↔ k ∈ keys entries := by
  simp [last?, keys]

omit [DecidableEq κ] in
theorem unique_of_nodup {entries : List (κ × ν)} (h : (keys entries).Nodup) {k : κ} {v w : ν}
    (hv : (k, v) ∈ entries) (hw : (k, w) ∈ entries) : v = w :=
  congrArg Prod.snd (List.inj_on_of_nodup_map h hv hw rfl)

theorem last?_eq_some_iff {entries : List (κ × ν)} (h : (keys entries).Nodup) {k : κ} {v : ν} :
    last? entries k = some v ↔ (k, v) ∈ entries := by
  refine ⟨mem_of_last?, fun hv => ?_⟩
  have hk : (last? entries k).isSome :=
    (last?_isSome_iff entries k).mpr (List.mem_map_of_mem (f := Prod.fst) hv)
  obtain ⟨w, hw⟩ := Option.isSome_iff_exists.mp hk
  rw [hw, unique_of_nodup h hv (mem_of_last? hw)]

theorem get?_foldl_put (entries : List (κ × ν)) (t : Keyed κ ν) (k : κ) :
    get? (entries.foldl (fun t e => put e.1 e.2 t) t) k = (last? entries k).or (get? t k) := by
  induction entries generalizing t with
  | nil => rfl
  | cons e rest ih =>
    rw [List.foldl_cons, ih, get?_put, ← List.singleton_append, last?_append, last?_singleton]
    cases last? rest k <;> by_cases h : e.1 = k <;> simp [h]

theorem get?_ofList (entries : List (κ × ν)) (k : κ) :
    get? (ofList entries) k = last? entries k := by
  rw [ofList, get?_foldl_put]
  simp [get?]

theorem keys_put (k : κ) (v : ν) (t : Keyed κ ν) :
    keys (put k v t) = if k ∈ keys t then keys t else keys t ++ [k] := by
  induction t with
  | nil => rfl
  | cons e rest ih =>
    by_cases h : e.1 = k
    · simp [put, keys, h]
    · have hk : k ≠ e.1 := fun he => h he.symm
      unfold keys at ih
      by_cases hr : k ∈ rest.map (·.1) <;> simp_all [put, keys]

theorem keys_ofList (entries : List (κ × ν)) :
    keys (ofList entries) = (entries.map (·.1)).eraseDups := by
  induction entries using List.reverseRecOn with
  | nil => rfl
  | append_singleton entries e ih =>
    have hput : ofList (entries ++ [e]) = put e.1 e.2 (ofList entries) := List.foldl_append
    rw [hput, keys_put, ih, List.map_append, List.map_singleton, eraseDups_concat]
    simp only [List.mem_eraseDups]

theorem nodup_keys_put {t : Keyed κ ν} (h : (keys t).Nodup) (k : κ) (v : ν) :
    (keys (put k v t)).Nodup := by
  rw [keys_put]
  split
  · exact h
  · rename_i hk
    refine List.nodup_append.mpr ⟨h, List.nodup_singleton k, fun a ha b hb => ?_⟩
    rw [List.mem_singleton.mp hb]
    exact ne_of_mem_of_not_mem ha hk

theorem nodup_keys_ofList (entries : List (κ × ν)) : (keys (ofList entries)).Nodup := by
  rw [keys_ofList]
  exact nodup_eraseDups _

omit [DecidableEq κ] in
theorem mem_keys_iff (t : Keyed κ ν) (k : κ) : k ∈ keys t ↔ ∃ v, (k, v) ∈ t := by
  simp [keys]

theorem get?_eq_some_iff {t : Keyed κ ν} (h : (keys t).Nodup) {k : κ} {v : ν} :
    get? t k = some v ↔ (k, v) ∈ t := by
  constructor
  · intro hv
    obtain ⟨e, he, rfl⟩ := Option.map_eq_some_iff.mp hv
    have hk : e.1 = k := by simpa using List.find?_some he
    subst hk
    exact List.mem_of_find?_eq_some he
  · intro hv
    have hf : (t.find? (·.1 = k)).isSome := List.find?_isSome.mpr ⟨(k, v), hv, by simp⟩
    obtain ⟨e, he⟩ := Option.isSome_iff_exists.mp hf
    have hk : e.1 = k := by simpa using List.find?_some he
    subst hk
    rw [get?, he, Option.map_some, unique_of_nodup h hv (List.mem_of_find?_eq_some he)]

theorem mem_ofList_iff (entries : List (κ × ν)) (k : κ) (v : ν) :
    (k, v) ∈ ofList entries ↔ last? entries k = some v := by
  rw [← get?_ofList, get?_eq_some_iff (nodup_keys_ofList entries)]

end Keyed
end OfferLedger
