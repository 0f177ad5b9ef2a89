import OfferLedger.Json.Reader
import OfferLedger.Json.Value
import OfferLedger.Proofs.Text.Utf8

/-! # Strings are read as they were written

What is written between the quotes is read character by character. An escape names the character it was
written for, and the bytes of every other character hold no quote, no backslash and no control. -/
namespace OfferLedger.Json

open Text (encoded)

theorem encodeChar_of_ascii {c : Char} (h : c.toNat < 0x80) : String.utf8EncodeChar c = [byte c] := by
  unfold String.utf8EncodeChar
  exact if_pos (Nat.le_of_lt_succ h)

theorem encoded_of_ascii {cs : List Char} (h : ∀ c ∈ cs, c.toNat < 0x80) :
    encoded cs = cs.map byte := by
  induction cs with
  | nil => rfl
  | cons c cs ih =>
    rw [Text.encoded_cons, encodeChar_of_ascii (h c (List.mem_cons_self ..)),
      ih fun d hd => h d (List.mem_cons_of_mem _ hd)]
    rfl

def PlainByte (b : UInt8) : Prop := b ≠ byte '"' ∧ b ≠ byte '\\' ∧ ¬ b < 0x20

theorem plainByte_ofNat {n : Nat} (hn : n < 256) (hquote : n ≠ 0x22) (hbackslash : n ≠ 0x5C)
    (hcontrol : 0x20 ≤ n) : PlainByte (UInt8.ofNat n) := by
  have hnat : (UInt8.ofNat n).toNat = n := by rw [UInt8.toNat_ofNat', Nat.mod_eq_of_lt hn]
  refine ⟨fun h => hquote ?_, fun h => hbackslash ?_, fun h => ?_⟩
  · rw [← hnat, h]
    rfl
  · rw [← hnat, h]
    rfl
  · rw [UInt8.lt_iff_toNat_lt, hnat] at h
    exact absurd h (Nat.not_lt.mpr hcontrol)

theorem plainByte_of_encodeChar {c : Char} (hquote : c ≠ '"') (hbackslash : c ≠ '\\')
    (hcontrol : ¬ c.toNat < 0x20) {b : UInt8} (h : b ∈ String.utf8EncodeChar c) : PlainByte b := by
  have hquote : c.val.toNat ≠ 0x22 := fun heq => hquote (Char.ext (UInt32.toNat_inj.mp heq))
  have hbackslash : c.val.toNat ≠ 0x5C := fun heq =>
    hbackslash (Char.ext (UInt32.toNat_inj.mp heq))
  have hcontrol : 0x20 ≤ c.val.toNat := Nat.not_lt.mp hcontrol
  unfold String.utf8EncodeChar at h
  generalize c.val.toNat = n at h hquote hbackslash hcontrol
  dsimp only at h
  split_ifs at h <;> simp only [List.mem_cons, List.not_mem_nil, or_false] at h
  · subst h
    exact plainByte_ofNat (by omega) hquote hbackslash hcontrol
  · rcases h with rfl | rfl <;> exact plainByte_ofNat (by omega) (by omega) (by omega) (by omega)
  · rcases h with rfl | rfl | rfl <;>
      exact plainByte_ofNat (by omega) (by omega) (by omega) (by omega)
  · rcases h with rfl | rfl | rfl | rfl <;>
      exact plainByte_ofNat (by omega) (by omega) (by omega) (by omega)

def after (meant more : List UInt8) : Except ReadError (List UInt8 × List UInt8) := do
  let (read, rest) ← readTextBytes 0 more
  .ok (meant ++ read, rest)

theorem after_nil (more : List UInt8) : after [] more = readTextBytes 0 more := by
  unfold after
  cases readTextBytes 0 more <;> rfl

theorem readTextBytes_plain {bytes : List UInt8} (h : ∀ b ∈ bytes, PlainByte b)
    (more : List UInt8) : readTextBytes 0 (bytes ++ more) = after bytes more := by
  induction bytes with
  | nil => exact (after_nil more).symm
  | cons b bytes ih =>
    obtain ⟨hquote, hbackslash, hcontrol⟩ := h b (List.mem_cons_self ..)
    rw [List.cons_append, readTextBytes, if_neg hquote, if_neg hbackslash, if_neg hcontrol,
      ih fun d hd => h d (List.mem_cons_of_mem _ hd)]
    unfold after
    cases readTextBytes 0 more <;> rfl

theorem readTextBytes_skip (passed more : List UInt8) :
    readTextBytes passed.length (passed ++ more) = readTextBytes 0 more := by
  induction passed with
  | nil => rfl
  | cons b passed ih => exact ih

theorem readTextBytes_escape {escape more meant : List UInt8}
    (h : readEscape (escape ++ more) = .ok (meant, escape.length)) :
    readTextBytes 0 (byte '\\' :: (escape ++ more)) = after meant more := by
  rw [readTextBytes, if_neg (by decide), if_pos rfl, h]
  change (readTextBytes escape.length (escape ++ more) >>= _) = _
  rw [readTextBytes_skip]
  rfl

theorem readTextBytes_simple {b meant : UInt8} (h : simpleEscape b = some meant)
    (more : List UInt8) : readTextBytes 0 (byte '\\' :: b :: more) = after [meant] more := by
  have hescape : readEscape ([b] ++ more) = .ok ([meant], [b].length) := by
    rw [List.singleton_append, readEscape, h]
    rfl
  exact readTextBytes_escape hescape

theorem hexValue_hexDigit : ∀ n < 16, Text.hexValue (byte (hexDigit n)) = some n := by decide

theorem hexDigit_lt : ∀ n < 16, (hexDigit n).toNat < 0x80 := by decide

theorem readHex_digits {n : Nat} (hn : n < 0x20) (more : List UInt8) :
    readHex (['0', '0', hexDigit (n / 16), hexDigit (n % 16)].map byte ++ more) = .ok n := by
  have hzero : Text.hexValue (byte '0') = some 0 := rfl
  have hhigh := hexValue_hexDigit (n / 16) (by omega)
  have hlow := hexValue_hexDigit (n % 16) (by omega)
  simp only [List.map_cons, List.map_nil, List.cons_append, readHex, hzero, hhigh, hlow]
  exact congrArg _ (by omega)

theorem readEscape_hex {n : Nat} (hn : n < 0x20) (more : List UInt8) :
    readEscape (['u', '0', '0', hexDigit (n / 16), hexDigit (n % 16)].map byte ++ more) =
      .ok (encodeChar n, 5) := by
  change (readCodePoint (['0', '0', hexDigit (n / 16), hexDigit (n % 16)].map byte ++ more) >>=
    fun read => .ok (read.1, read.2 + 1)) = _
  rw [readCodePoint, readHex_digits hn]
  change (if (n < 0xD800 || 0xDFFF < n) = true then _ else _) >>= _ = _
  rw [if_pos (by simp; omega)]
  rfl

/-- Every character is read as it was written. -/
theorem readTextBytes_escapeChar (c : Char) (more : List UInt8) :
    readTextBytes 0 (encoded (escapeChar c) ++ more) = after (String.utf8EncodeChar c) more := by
  unfold escapeChar
  split_ifs with hself hb hf hn hr ht hcontrol
  · rw [Bool.or_eq_true, decide_eq_true_eq, decide_eq_true_eq] at hself
    rcases hself with rfl | rfl <;> exact readTextBytes_simple rfl more
  · subst hb
    exact readTextBytes_simple rfl more
  · subst hf
    exact readTextBytes_simple rfl more
  · subst hn
    exact readTextBytes_simple rfl more
  · subst hr
    exact readTextBytes_simple rfl more
  · subst ht
    exact readTextBytes_simple rfl more
  · have hascii : ∀ d ∈ ['\\', 'u', '0', '0', hexDigit (c.toNat / 16), hexDigit (c.toNat % 16)],
        d.toNat < 0x80 := by
      have hhigh := hexDigit_lt (c.toNat / 16) (by omega)
      have hlow := hexDigit_lt (c.toNat % 16) (by omega)
      simp [hhigh, hlow]
    have hescape := readTextBytes_escape (readEscape_hex hcontrol more)
    rw [encodeChar, Char.ofNat_toNat] at hescape
    rw [encoded_of_ascii hascii]
    exact hescape
  · rw [Bool.or_eq_true, decide_eq_true_eq, decide_eq_true_eq, not_or] at hself
    rw [Text.encoded_cons, Text.encoded, List.flatMap_nil, List.append_nil]
    exact readTextBytes_plain (fun b => plainByte_of_encodeChar hself.1 hself.2 hcontrol) more

theorem readTextBytes_escaped (cs : List Char) (rest : List UInt8) :
    readTextBytes 0 (encoded (cs.flatMap escapeChar) ++ byte '"' :: rest) =
      .ok (encoded cs, rest) := by
  induction cs with
  | nil => rfl
  | cons c cs ih =>
    rw [List.flatMap_cons, Text.encoded_append, List.append_assoc, readTextBytes_escapeChar, after,
      ih]
    rfl

def quoted (s : String) : List UInt8 := encoded (quote s)

theorem quoted_eq (s : String) :
    quoted s = byte '"' :: encoded (s.toList.flatMap escapeChar) ++ [byte '"'] := by
  change encoded ('"' :: (s.toList.flatMap escapeChar ++ ['"'])) = _
  rw [Text.encoded_cons, Text.encoded_append]
  rfl

theorem readText_quoted (s : String) (rest : List UInt8) :
    readText ((quoted s).tail ++ rest) = .ok (s, rest) := by
  have hbytes : (quoted s).tail ++ rest =
      encoded (s.toList.flatMap escapeChar) ++ byte '"' :: rest := by
    rw [quoted_eq, List.cons_append, List.tail_cons, List.append_assoc, List.singleton_append]
  rw [hbytes, readText, readTextBytes_escaped]
  simp only [bind, Except.bind, Text.fromUTF8?_encoded]

end OfferLedger.Json
