import OfferLedger.Proofs.Text.Utf8
import Mathlib.Data.List.TakeWhile

/-! # Texts read leniently

Reading bytes with replacements changes nothing about the bytes of a text: every character is found again,
whatever follows it. -/
namespace OfferLedger.Text

def tailByte (n : Nat) : UInt8 := .ofNat (0x80 + n)

theorem isContinuation_tailByte : ∀ n < 64, isContinuation (tailByte n) = true := by decide

theorem tailByte_mod : ∀ n < 64, (tailByte n).toNat % 64 = n := by decide

theorem encodedSize_one : ∀ m < 0x80, encodedSize (.ofNat m) = 1 := by decide

theorem encodedSize_two : ∀ m < 0x1E, encodedSize (.ofNat (0xC2 + m)) = 2 := by decide

theorem encodedSize_three : ∀ m < 0x10, encodedSize (.ofNat (0xE0 + m)) = 3 := by decide

theorem encodedSize_four : ∀ m < 5, encodedSize (.ofNat (0xF0 + m)) = 4 := by decide

theorem ofNat_eq_iff {m n : Nat} (hm : m < 256) (hn : n < 256) :
    UInt8.ofNat m = UInt8.ofNat n ↔ m = n := by
  rw [← UInt8.toNat_inj, UInt8.toNat_ofNat', UInt8.toNat_ofNat', Nat.mod_eq_of_lt hm,
    Nat.mod_eq_of_lt hn]

theorem isSecond_tailByte {m n : Nat} (hm : m < 256) (hn : n < 64) (hE0 : m = 0xE0 → 0x20 ≤ n)
    (hED : m = 0xED → n < 0x20) (hF0 : m = 0xF0 → 0x10 ≤ n) (hF4 : m = 0xF4 → n < 0x10) :
    isSecond (.ofNat m) (tailByte n) = true := by
  have hcode : (tailByte n).toNat = 0x80 + n := by
    rw [tailByte, UInt8.toNat_ofNat', Nat.mod_eq_of_lt (by omega)]
  rw [isSecond, isContinuation_tailByte n hn, Bool.true_and]
  split_ifs with h h h h
  all_goals try rw [decide_eq_true_eq, UInt8.le_iff_toNat_le, hcode]
  · have := hE0 ((ofNat_eq_iff hm (by decide)).mp h)
    change 0xA0 ≤ _
    omega
  · have := hED ((ofNat_eq_iff hm (by decide)).mp h)
    change _ ≤ 0x9F
    omega
  · have := hF0 ((ofNat_eq_iff hm (by decide)).mp h)
    change 0x90 ≤ _
    omega
  · have := hF4 ((ofNat_eq_iff hm (by decide)).mp h)
    change _ ≤ 0x8F
    omega
  · rfl

theorem lossyChars_one {m : Nat} (hm : m < 0x80) (rest : List UInt8) :
    lossyChars (.ofNat m :: rest) = Char.ofNat m :: lossyChars rest := by
  have hsize := encodedSize_one m hm
  have hmore : continuation (.ofNat m) rest = [] := by
    cases rest with
    | nil => rfl
    | cons b rest => simp [continuation, hsize]
  have hcode : (UInt8.ofNat m).toNat = m := by
    rw [UInt8.toNat_ofNat', Nat.mod_eq_of_lt (by omega)]
  rw [lossyChars, hmore, hsize]
  simp [charOf, hsize, hcode]

theorem foldl_tailBytes {ds : List Nat} (h : ∀ d ∈ ds, d < 64) (high : Nat) :
    (ds.map tailByte).foldl (fun n b => 64 * n + b.toNat % 64) high =
      ds.foldl (fun n d => 64 * n + d) high := by
  induction ds generalizing high with
  | nil => rfl
  | cons d ds ih =>
    obtain ⟨hd, hds⟩ := List.forall_mem_cons.mp h
    rw [List.map_cons, List.foldl_cons, List.foldl_cons, tailByte_mod d hd]
    exact ih hds _

theorem lossyChars_many {m high : Nat} (n : Nat) (ns : List Nat) (hm : m < 256)
    (hsize : encodedSize (.ofNat m) = ns.length + 2) (hhigh : m % Nat.pow 2 (5 - ns.length) = high)
    (hsecond : isSecond (.ofNat m) (tailByte n) = true) (hn : ∀ d ∈ n :: ns, d < 64)
    (rest : List UInt8) :
    lossyChars (.ofNat m :: ((n :: ns).map tailByte ++ rest)) =
      Char.ofNat ((n :: ns).foldl (fun n d => 64 * n + d) high) :: lossyChars rest := by
  have hmore : continuation (.ofNat m) ((n :: ns).map tailByte ++ rest) = (n :: ns).map tailByte := by
    have hall : ∀ b ∈ ns.map tailByte, isContinuation b = true := by
      intro b hb
      obtain ⟨d, hd, rfl⟩ := List.mem_map.mp hb
      exact isContinuation_tailByte d (hn d (List.mem_cons_of_mem _ hd))
    rw [List.map_cons, List.cons_append, continuation, hsize, hsecond, if_pos (by simp),
      Nat.add_sub_cancel, ← List.length_map tailByte, List.take_left,
      List.takeWhile_eq_self_iff.mpr hall]
  have hchar : charOf (.ofNat m) ((n :: ns).map tailByte) =
      Char.ofNat ((n :: ns).foldl (fun n d => 64 * n + d) high) := by
    rw [charOf, hsize, if_neg (by omega), show 7 - (ns.length + 2) = 5 - ns.length by omega,
      UInt8.toNat_ofNat_of_lt' hm, hhigh, foldl_tailBytes hn]
  rw [lossyChars, hmore, hsize, if_pos (by simp), hchar, List.drop_left]

theorem lossyChars_encodeChar (c : Char) (rest : List UInt8) :
    lossyChars (String.utf8EncodeChar c ++ rest) = c :: lossyChars rest := by
  have hvalid : c.val.toNat < 0xD800 ∨ 0xDFFF < c.val.toNat ∧ c.val.toNat < 0x110000 := c.valid
  have hchar : Char.ofNat c.val.toNat = c := Char.ofNat_toNat c
  unfold String.utf8EncodeChar
  generalize c.val.toNat = v at hvalid hchar ⊢
  rw [← hchar]
  dsimp only
  -- The bounds on the code point in each case are what keeps the second byte in its narrowed range:
  -- it is not encoded too long, no surrogate and not beyond the last one.
  split_ifs with h7 h11 h16
  · exact lossyChars_one (by omega) rest
  · have hlead : v / 64 % 32 + 192 = 0xC2 + (v / 64 - 2) := by omega
    have hread := lossyChars_many (v % 64) [] (by omega)
      (encodedSize_two (v / 64 - 2) (by omega)) rfl
      (isSecond_tailByte (by omega) (by omega) (by omega) (by omega) (by omega) (by omega))
      (by simp; omega) rest
    have hvalue : 64 * ((0xC2 + (v / 64 - 2)) % 32) + v % 64 = v := by omega
    rw [hlead, Nat.add_comm (v % 64)]
    simpa [tailByte, hvalue] using hread
  · have hlead : v / 4096 % 16 + 224 = 0xE0 + v / 4096 := by omega
    have hread := lossyChars_many (v / 64 % 64) [v % 64] (by omega)
      (encodedSize_three (v / 4096) (by omega)) rfl
      (isSecond_tailByte (by omega) (by omega) (by omega) (by omega) (by omega) (by omega))
      (by simp; omega) rest
    have hvalue : 64 * (64 * ((0xE0 + v / 4096) % 16) + v / 64 % 64) + v % 64 = v := by omega
    rw [hlead, Nat.add_comm (v / 64 % 64), Nat.add_comm (v % 64)]
    simpa [tailByte, hvalue] using hread
  · have hlead : v / 262144 % 8 + 240 = 0xF0 + v / 262144 := by omega
    have hread := lossyChars_many (v / 4096 % 64) [v / 64 % 64, v % 64] (by omega)
      (encodedSize_four (v / 262144) (by omega)) rfl
      (isSecond_tailByte (by omega) (by omega) (by omega) (by omega) (by omega) (by omega))
      (by simp; omega) rest
    have hvalue : 64 * (64 * (64 * ((0xF0 + v / 262144) % 8) + v / 4096 % 64) + v / 64 % 64) +
        v % 64 = v := by omega
    rw [hlead, Nat.add_comm (v / 4096 % 64), Nat.add_comm (v / 64 % 64), Nat.add_comm (v % 64)]
    simpa [tailByte, hvalue] using hread

theorem lossyChars_encoded (cs : List Char) : lossyChars (encoded cs) = cs := by
  induction cs with
  | nil => rw [encoded, List.flatMap_nil, lossyChars]
  | cons c cs ih => rw [encoded_cons, lossyChars_encodeChar, ih]

theorem ofUtf8Lossy_utf8 (s : String) : ofUtf8Lossy (utf8 s) = s := by
  rw [ofUtf8Lossy, utf8_eq, lossyChars_encoded, String.ofList_toList]

end OfferLedger.Text
