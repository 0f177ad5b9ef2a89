import OfferLedger.Text.Utf8
import Mathlib.Data.String.Basic
import Mathlib.Data.Char
import Mathlib.Tactic.SplitIfs

/-! # The bytes of a text

A text is encoded character by character, its bytes are read back as the same text, and texts are
ordered as their bytes are. -/
namespace OfferLedger.Text

theorem toList_loop (bytes : ByteArray) (i : Nat) (before : List UInt8) :
    ByteArray.toList.loop bytes i before = before.reverse ++ bytes.data.toList.drop i := by
  fun_induction ByteArray.toList.loop bytes i before with
  | case1 i before h ih =>
    have hget : bytes.get! i = bytes.data[i] := getElem!_pos bytes.data i h
    rw [ih, hget, List.reverse_cons, List.append_assoc, List.singleton_append,
      ← Array.getElem_toList, ← List.drop_eq_getElem_cons]
  | case2 i before h =>
    rw [List.drop_eq_nil_of_le (by simpa using h), List.append_nil]

/-- The bytes of characters, one after another. -/
def encoded (cs : List Char) : List UInt8 := cs.flatMap String.utf8EncodeChar

theorem encoded_cons (c : Char) (cs : List Char) :
    encoded (c :: cs) = String.utf8EncodeChar c ++ encoded cs := rfl

theorem encoded_append (cs ds : List Char) : encoded (cs ++ ds) = encoded cs ++ encoded ds :=
  List.flatMap_append

theorem toUTF8_eq (s : String) : s.toUTF8 = (encoded s.toList).toByteArray := by
  rw [String.toUTF8_eq_toByteArray, ← String.utf8Encode_toList]
  rfl

theorem utf8_eq (s : String) : utf8 s = encoded s.toList := by
  rw [utf8, toUTF8_eq, ByteArray.toList, toList_loop, List.toList_data_toByteArray]
  rfl

theorem fromUTF8?_encoded (s : String) :
    String.fromUTF8? ⟨(encoded s.toList).toArray⟩ = some s := by
  have h : (⟨(encoded s.toList).toArray⟩ : ByteArray) = s.toUTF8 := by
    rw [toUTF8_eq, ByteArray.ext_iff, List.data_toByteArray]
  rw [h, String.fromUTF8?]
  exact dif_pos s.isValidUTF8

theorem ofUtf8?_utf8 (s : String) : ofUtf8? (utf8 s) = some s := by
  rw [utf8_eq]
  exact fromUTF8?_encoded s

def byteSize (cs : List Char) : Nat := (String.ofList cs).utf8ByteSize

theorem byteSize_toList (s : String) : byteSize s.toList = s.utf8ByteSize :=
  congrArg String.utf8ByteSize String.ofList_toList

theorem byteSize_append (cs ds : List Char) : byteSize (cs ++ ds) = byteSize cs + byteSize ds := by
  rw [byteSize, String.ofList_append, String.utf8ByteSize_append]
  rfl

theorem byteSize_cons (c : Char) (cs : List Char) :
    byteSize (c :: cs) = c.utf8Size + byteSize cs := by
  have hsplit := byteSize_append [c] cs
  have hone : byteSize [c] = c.utf8Size := String.utf8ByteSize_singleton
  rwa [hone] at hsplit

theorem byteSize_pos {cs : List Char} (h : cs ≠ []) : 0 < byteSize cs := by
  cases cs with
  | nil => exact absurd rfl h
  | cons c rest =>
    have hc := c.utf8Size_pos
    rw [byteSize_cons]
    omega

theorem ofNat_lt_iff {m n : Nat} (hm : m < 256) (hn : n < 256) :
    UInt8.ofNat m < UInt8.ofNat n ↔ m < n := by
  rw [UInt8.lt_iff_toNat_lt, UInt8.toNat_ofNat', UInt8.toNat_ofNat', Nat.mod_eq_of_lt hm,
    Nat.mod_eq_of_lt hn]

theorem cons_lt_cons {m n : Nat} (hm : m < 256) (hn : n < 256) {s t : List UInt8} (h : m ≤ n)
    (hst : m = n → s < t) : UInt8.ofNat m :: s < UInt8.ofNat n :: t := by
  rw [List.cons_lt_cons_iff, ofNat_lt_iff hm hn]
  rcases Nat.lt_or_eq_of_le h with h | h
  · exact .inl h
  · exact .inr ⟨congrArg UInt8.ofNat h, hst h⟩

/-- The bytes of two characters differ before either of them ends. -/
theorem encodeChar_lt {c d : Char} (h : c < d) (s t : List UInt8) :
    String.utf8EncodeChar c ++ s < String.utf8EncodeChar d ++ t := by
  have hlt : c.val.toNat < d.val.toNat := h
  have hd : d.val.toNat < 1114112 := by
    rcases d.valid with h | h
    · exact Nat.lt_trans h (by decide)
    · exact h.2
  unfold String.utf8EncodeChar
  generalize c.val.toNat = m at hlt ⊢
  generalize d.val.toNat = n at hlt hd ⊢
  dsimp only
  -- The quotients of the smaller number are at most those of the greater one, and where all agree
  -- the last remainders do not.
  split_ifs <;>
    repeat' first
      | omega
      | refine cons_lt_cons (by omega) (by omega) (by omega) fun _ => ?_

theorem encoded_lt {cs ds : List Char} (h : cs < ds) : encoded cs < encoded ds := by
  induction h with
  | @nil d ds =>
    obtain ⟨b, rest, hd⟩ : ∃ b rest, String.utf8EncodeChar d = b :: rest := by
      unfold String.utf8EncodeChar
      dsimp only
      split_ifs <;> exact ⟨_, _, rfl⟩
    rw [encoded_cons, hd]
    exact List.Lex.nil
  | @cons c cs ds _ ih => exact List.append_left_lt ih
  | rel h => exact encodeChar_lt h ..

theorem utf8_lt_iff (a b : String) : utf8 a < utf8 b ↔ a < b := by
  rw [utf8_eq, utf8_eq]
  constructor
  · intro h
    rcases lt_trichotomy a b with hab | rfl | hba
    · exact hab
    · exact absurd h (List.lt_irrefl _)
    · exact absurd h (List.lt_asymm (encoded_lt (String.lt_iff.mp hba)))
  · intro h
    exact encoded_lt (String.lt_iff.mp h)

theorem utf8_inj (a b : String) : utf8 a = utf8 b ↔ a = b := by
  refine ⟨fun h => ?_, congrArg utf8⟩
  rcases lt_trichotomy a b with hab | hab | hba
  · rw [← utf8_lt_iff, h] at hab
    exact absurd hab (List.lt_irrefl _)
  · exact hab
  · rw [← utf8_lt_iff, h] at hba
    exact absurd hba (List.lt_irrefl _)

theorem utf8_ne_nil {s : String} (hs : s ≠ "") : utf8 s ≠ [] := by
  intro h
  apply hs
  rw [← utf8_inj, h, utf8_eq]
  rfl

end OfferLedger.Text
