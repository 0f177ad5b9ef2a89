import OfferLedger.Text.Upper
import OfferLedger.Proofs.Text.Blank

/-! # Upper case of upper case

The upper case of a character is made of characters that are their own upper case. So a text in upper
case stays as it is, and no blank comes up at either end of it. -/
namespace OfferLedger.Text

def mask (ns : List Nat) : Nat := ns.foldr (fun n m => 1 <<< n ||| m) 0

theorem testBit_mask {ns : List Nat} {n : Nat} (h : n ∈ ns) : (mask ns).testBit n = true := by
  induction ns with
  | nil => cases h
  | cons m ns ih =>
    change (1 <<< m ||| mask ns).testBit n = true
    rw [Nat.testBit_or, Bool.or_eq_true]
    rcases List.mem_cons.mp h with rfl | h
    · exact .inl (by simp)
    · exact .inr (ih h)

theorem not_mem_of_mask {ns ms : List Nat} (h : mask ns &&& mask ms = 0) {n : Nat} (hn : n ∈ ns) :
    n ∉ ms := by
  intro hm
  have hbit : (mask ns &&& mask ms).testBit n = true := by
    rw [Nat.testBit_and, testBit_mask hn, testBit_mask hm]
    rfl
  rw [h, Nat.zero_testBit] at hbit
  cases hbit

def CaseRun.points (run : CaseRun) : List Nat :=
  (List.range ((run.last - run.first) / run.step + 1)).map fun k => run.first + k * run.step

theorem CaseRun.mem_points {run : CaseRun} {n : Nat} (h : run.covers n = true) :
    n ∈ run.points := by
  simp only [covers, Bool.and_eq_true, decide_eq_true_eq, beq_iff_eq] at h
  obtain ⟨⟨hfirst, hlast⟩, hstep⟩ := h
  refine List.mem_map.mpr ⟨(n - run.first) / run.step, List.mem_range.mpr ?_, ?_⟩
  · have := Nat.div_le_div_right (c := run.step) (Nat.sub_le_sub_right hlast run.first)
    omega
  · rw [Nat.div_mul_cancel (Nat.dvd_of_mod_eq_zero hstep)]
    omega

def changing : List Nat := upperSequences.map (·.1) ++ upperRuns.flatMap (·.points)

def capitals : List Nat :=
  upperSequences.flatMap (·.2) ++
    upperRuns.flatMap fun run => run.points.map fun n : Nat => ((n : Int) + run.shift).toNat

def blanks : List Nat :=
  [9, 10, 11, 12, 13, 0x20, 0x85, 0xA0, 0x1680, 0x2000, 0x2001, 0x2002, 0x2003, 0x2004, 0x2005,
    0x2006, 0x2007, 0x2008, 0x2009, 0x200A, 0x2028, 0x2029, 0x202F, 0x205F, 0x3000]

theorem mem_blanks {c : Char} (h : isBlank c = true) : c.toNat ∈ blanks := by
  simp only [isBlank, Bool.or_eq_true, Bool.and_eq_true, decide_eq_true_eq, beq_iff_eq] at h
  simp only [blanks, List.mem_cons, List.not_mem_nil, or_false]
  omega

theorem mask_capitals : mask capitals &&& mask (changing ++ blanks) = 0 := by decide +kernel

theorem valid_capitals : ∀ n ∈ capitals, n.isValidChar := by decide +kernel

def Capital (c : Char) : Prop := upperChar c = [c] ∧ isBlank c = false

theorem upperChar_of_not_mem {c : Char} (h : c.toNat ∉ changing) : upperChar c = [c] := by
  have hkeys : upperSequences.lookup c.toNat = none := by
    refine List.lookup_eq_none_iff.mpr fun p hp => bne_iff_ne.mpr fun heq => h ?_
    exact List.mem_append_left _ (heq ▸ List.mem_map_of_mem hp)
  have hruns : ∀ run ∈ upperRuns, ¬ run.covers c.toNat = true := fun run hrun hcovers =>
    h (List.mem_append_right _ (List.mem_flatMap.mpr ⟨run, hrun, CaseRun.mem_points hcovers⟩))
  unfold upperChar
  dsimp only
  split
  · split
    · rename_i hletter
      refine absurd ?_ (hruns _ (List.mem_cons_self ..))
      simp only [Bool.and_eq_true, decide_eq_true_eq] at hletter
      simp [CaseRun.covers, hletter, Nat.mod_one]
    · rfl
  · rw [hkeys, List.find?_eq_none.mpr hruns]

theorem capital_of_mem {n : Nat} (h : n ∈ capitals) : Capital (Char.ofNat n) := by
  have hn : (Char.ofNat n).toNat = n := by
    rw [Char.ofNat, dif_pos (valid_capitals n h)]
    rfl
  have hnot := not_mem_of_mask mask_capitals h
  rw [← hn, List.mem_append, not_or] at hnot
  refine ⟨upperChar_of_not_mem hnot.1, ?_⟩
  by_contra hblank
  exact hnot.2 (mem_blanks (Bool.not_eq_false _ ▸ hblank))

theorem mem_capitals_of_run {run : CaseRun} (hrun : run ∈ upperRuns) {n : Nat}
    (h : run.covers n = true) : (n + run.shift).toNat ∈ capitals :=
  List.mem_append_right _
    (List.mem_flatMap.mpr ⟨run, hrun, List.mem_map_of_mem (CaseRun.mem_points h)⟩)

theorem upperSequences_ne_nil : ∀ p ∈ upperSequences, p.2 ≠ [] := by decide

theorem upperChar_cases (c : Char) :
    upperChar c = [c] ∨ upperChar c ≠ [] ∧ ∀ d ∈ upperChar c, Capital d := by
  unfold upperChar
  dsimp only
  split
  · split
    · rename_i hletter
      simp only [Bool.and_eq_true, decide_eq_true_eq] at hletter
      have hmem := mem_capitals_of_run (n := c.toNat) (List.mem_cons_self ..)
        (by simp [CaseRun.covers, hletter, Nat.mod_one])
      have hshift : ((c.toNat : Int) + (-32)).toNat = c.toNat - 0x20 := by omega
      rw [hshift] at hmem
      refine .inr ⟨by simp, fun d hd => ?_⟩
      rw [List.mem_singleton.mp hd]
      exact capital_of_mem hmem
    · exact .inl rfl
  · split
    · rename_i ns hlookup
      obtain ⟨before, after, htable, -⟩ := List.lookup_eq_some_iff.mp hlookup
      have hmem : (c.toNat, ns) ∈ upperSequences := by
        rw [htable]
        exact List.mem_append_right _ (List.mem_cons_self ..)
      refine .inr ⟨by simpa using upperSequences_ne_nil _ hmem, fun d hd => ?_⟩
      obtain ⟨n, hn, rfl⟩ := List.mem_map.mp hd
      exact capital_of_mem (List.mem_append_left _ (List.mem_flatMap.mpr ⟨_, hmem, hn⟩))
    · split
      · rename_i run hfind
        refine .inr ⟨by simp, fun d hd => ?_⟩
        rw [List.mem_singleton.mp hd]
        have hcovers := List.find?_some hfind
        exact capital_of_mem (mem_capitals_of_run (List.mem_of_find?_eq_some hfind) hcovers)
      · exact .inl rfl

theorem upperChar_of_mem {c d : Char} (h : d ∈ upperChar c) : upperChar d = [d] := by
  rcases upperChar_cases c with hc | ⟨-, hc⟩
  · rw [hc] at h
    rwa [List.mem_singleton.mp h]
  · exact (hc d h).1

theorem isBlank_of_mem_upperChar {c d : Char} (hblank : isBlank c = false) (h : d ∈ upperChar c) :
    isBlank d = false := by
  rcases upperChar_cases c with hc | ⟨-, hc⟩
  · rw [hc] at h
    rwa [List.mem_singleton.mp h]
  · exact (hc d h).2

theorem upperChar_ne_nil (c : Char) : upperChar c ≠ [] := by
  rcases upperChar_cases c with hc | ⟨hc, -⟩
  · rw [hc]
    exact List.cons_ne_nil _ _
  · exact hc

theorem upper_eq_nil_iff (cs : List Char) : upper cs = [] ↔ cs = [] := by
  rw [upper, List.flatMap_eq_nil_iff]
  constructor
  · intro h
    rw [List.eq_nil_iff_forall_not_mem]
    intro c hc
    exact upperChar_ne_nil c (h c hc)
  · rintro rfl c hc
    cases hc

theorem upper_upper (cs : List Char) : upper (upper cs) = upper cs := by
  have hfixed : ∀ ds : List Char, (∀ d ∈ ds, upperChar d = [d]) → upper ds = ds := by
    intro ds h
    induction ds with
    | nil => rfl
    | cons d ds ih =>
      rw [upper, List.flatMap_cons, h d (List.mem_cons_self ..)]
      exact congrArg _ (ih fun e he => h e (List.mem_cons_of_mem _ he))
  refine hfixed _ fun d hd => ?_
  obtain ⟨c, -, hc⟩ := List.mem_flatMap.mp hd
  exact upperChar_of_mem hc

theorem trimmed_upper {cs : List Char} (h : Trimmed cs) : Trimmed (upper cs) := by
  constructor
  · intro d hd
    cases cs with
    | nil => cases hd
    | cons c rest =>
      rw [upper, List.flatMap_cons, List.head?_append_of_ne_nil _ (upperChar_ne_nil c)] at hd
      exact isBlank_of_mem_upperChar (h.1 c rfl) (List.mem_of_head? hd)
  · intro d hd
    cases cs using List.reverseRecOn with
    | nil => cases hd
    | append_singleton rest c _ =>
      rw [upper, List.flatMap_append, List.flatMap_singleton,
        List.getLast?_append_of_ne_nil _ (upperChar_ne_nil c)] at hd
      exact isBlank_of_mem_upperChar (h.2 c (List.getLast?_concat ..)) (List.mem_of_getLast? hd)

end OfferLedger.Text
