import OfferLedger.Proofs.Text.Blank
import OfferLedger.Proofs.Text.Lossy
import OfferLedger.Proofs.Text.Percent
import OfferLedger.Proofs.Text.Pieces
import OfferLedger.Service.Target
import Mathlib.Data.List.Forall2

/-! # Forms in a request target

A form can be written in many ways: a byte stands for itself or is escaped, and a blank may be a plus sign.
Whichever way was chosen, the query of the target is read as the same form, with every name and every value
as it was. -/
namespace OfferLedger.Service

open Text (Escaped cutAt hexValue utf8)

def Form.Free (b : UInt8) : Prop := b ≠ 0x23 ∧ b ≠ 0x25 ∧ b ≠ 0x26 ∧ b ≠ 0x2B

instance : DecidablePred Form.Free := fun _ => inferInstanceAs (Decidable (_ ∧ _))

/-- The bytes of a name or a value as they are written. -/
inductive Form.Written : List UInt8 → List UInt8 → Prop where
  | nil : Form.Written [] []
  | plain {b bytes written} : Form.Free b → Form.Written bytes written →
      Form.Written (b :: bytes) (b :: written)
  | blank {bytes written} : Form.Written bytes written →
      Form.Written (0x20 :: bytes) (0x2B :: written)
  | escape {h l high low bytes written} : hexValue h = some high → hexValue l = some low →
      Form.Written bytes written →
      Form.Written ((16 * high + low).toUInt8 :: bytes) (0x25 :: h :: l :: written)

def Form.WritesPair (p : String × String) (piece : List UInt8) : Prop :=
  ∃ name value, Form.Written (utf8 p.1) name ∧ Form.Written (utf8 p.2) value ∧ 0x3D ∉ name ∧
    piece = name ++ 0x3D :: value

def Form.Writes (form : Form) (query : List UInt8) : Prop :=
  ∃ written, List.Forall₂ Form.WritesPair form written ∧ query = [0x26].intercalate written

/-- The address asks for a path with this form. An empty form needs no query. -/
def Form.Asks (form : Form) (path uri : String) : Prop :=
  form = [] ∧ uri = path ∨ ∃ query, form.Writes query ∧ utf8 uri = utf8 path ++ 0x3F :: query

namespace Form

theorem written_self {bytes : List UInt8} (h : ∀ b ∈ bytes, Free b) : Written bytes bytes := by
  induction bytes with
  | nil => exact .nil
  | cons b rest ih =>
    obtain ⟨hb, hrest⟩ := List.forall_mem_cons.mp h
    exact .plain hb (ih hrest)

theorem Written.not_mem {bytes written : List UInt8} (h : Written bytes written) {b : UInt8}
    (hfree : ¬ Free b) (hhex : hexValue b = none) (hpercent : b ≠ 0x25) (hplus : b ≠ 0x2B) :
    b ∉ written := by
  induction h with
  | nil => exact List.not_mem_nil
  | plain hd _ ih => exact List.not_mem_cons_of_ne_of_not_mem (fun heq => hfree (heq ▸ hd)) ih
  | blank _ ih => exact List.not_mem_cons_of_ne_of_not_mem hplus ih
  | escape hh hl _ ih =>
    simp [hpercent, Text.ne_of_hexValue hhex hh, Text.ne_of_hexValue hhex hl, ih]

theorem Written.escaped {bytes written : List UInt8} (h : Written bytes written) :
    Escaped (· ≠ 0x25) bytes (written.map fun b => if b = 0x2B then 0x20 else b) := by
  have hdigit {d : UInt8} {n : Nat} (hd : hexValue d = some n) : d ≠ 0x2B :=
    (Text.ne_of_hexValue rfl hd).symm
  induction h with
  | nil => exact .nil
  | plain hb _ ih =>
    rw [List.map_cons, if_neg hb.2.2.2]
    exact .plain hb.2.1 ih
  | blank _ ih => exact .plain (by decide) ih
  | escape hh hl _ ih =>
    simp only [List.map_cons, if_neg (hdigit hh), if_neg (hdigit hl)]
    exact .escape hh hl ih

theorem decode_of_written {s : String} {written : List UInt8} (h : Written (utf8 s) written) :
    decode written = s := by
  rw [decode, h.escaped.percentDecode_eq fun _ hb => hb, Text.ofUtf8Lossy_utf8]

theorem parsePair_of_writes {p : String × String} {piece : List UInt8} (h : WritesPair p piece) :
    parsePair piece = p := by
  obtain ⟨name, value, hname, hvalue, hequals, rfl⟩ := h
  rw [parsePair, Text.cutAt_append hequals]
  exact Prod.ext (decode_of_written hname) (decode_of_written hvalue)

theorem WritesPair.not_mem {p : String × String} {piece : List UInt8} (h : WritesPair p piece)
    {b : UInt8} (hfree : ¬ Free b) (hhex : hexValue b = none) (hpercent : b ≠ 0x25)
    (hplus : b ≠ 0x2B) (hequals : b ≠ 0x3D) : b ∉ piece := by
  obtain ⟨name, value, hname, hvalue, -, rfl⟩ := h
  simp [hequals, hname.not_mem hfree hhex hpercent hplus, hvalue.not_mem hfree hhex hpercent hplus]

theorem WritesPair.ne_nil {p : String × String} {piece : List UInt8} (h : WritesPair p piece) :
    piece ≠ [] := by
  obtain ⟨name, value, -, -, -, rfl⟩ := h
  simp

theorem forall_mem_written {form : Form} {written : List (List UInt8)}
    (h : List.Forall₂ WritesPair form written) {P : List UInt8 → Prop}
    (hP : ∀ p piece, WritesPair p piece → P piece) : ∀ piece ∈ written, P piece := by
  induction h with
  | nil => exact nofun
  | cons hp _ ih => exact List.forall_mem_cons.mpr ⟨hP _ _ hp, ih⟩

theorem map_parsePair {form : Form} {written : List (List UInt8)}
    (h : List.Forall₂ WritesPair form written) : written.map parsePair = form := by
  induction h with
  | nil => rfl
  | cons hp _ ih => rw [List.map_cons, parsePair_of_writes hp, ih]

theorem parse_of_writes {form : Form} {query : List UInt8} (h : form.Writes query) :
    parse query = form := by
  obtain ⟨written, hwritten, rfl⟩ := h
  by_cases hnil : written = []
  · subst hnil
    cases hwritten
    rfl
  have hampersand : ∀ piece ∈ written, 0x26 ∉ piece := forall_mem_written hwritten fun _ _ hp =>
    hp.not_mem (by simp [Free]) rfl (by decide) (by decide) (by decide)
  have hfull : ∀ piece ∈ written, (!piece.isEmpty) = true := forall_mem_written hwritten fun _ _ hp => by
    simpa using hp.ne_nil
  rw [parse, Text.pieces_eq_splitOn, List.splitOn_intercalate 0x26 hampersand hnil,
    List.filter_eq_self.mpr hfull, map_parsePair hwritten]

theorem Writes.not_mem_numberSign {form : Form} {query : List UInt8} (h : form.Writes query) :
    0x23 ∉ query := by
  obtain ⟨written, hwritten, rfl⟩ := h
  apply Text.not_mem_intercalate (by decide)
  exact forall_mem_written hwritten fun _ _ hp =>
    hp.not_mem (by simp [Free]) rfl (by decide) (by decide) (by decide)

/-- Of the values under a name the last one counts, unless it is blank. -/
def Gives (form : Form) (name s : String) : Prop :=
  (∃ before after, form = before ++ (name, s) :: after ∧ ∀ p ∈ after, p.1 ≠ name) ∧
    Text.trim s.toList ≠ []

def Omits (form : Form) (name : String) : Prop := ∀ s, ¬ form.Gives name s

theorem value?_eq_some_iff {form : Form} {name s : String} :
    form.value? name = some s ↔
      ∃ before after, form = before ++ (name, s) :: after ∧ ∀ p ∈ after, p.1 ≠ name := by
  rw [value?, Option.map_eq_some_iff]
  constructor
  · rintro ⟨⟨key, s⟩, hfind, rfl⟩
    obtain ⟨hname, after, before, hreverse, hafter⟩ := List.find?_eq_some_iff_append.mp hfind
    have hname : key = name := by simpa using hname
    subst hname
    refine ⟨before.reverse, after.reverse, ?_, ?_⟩
    · rw [← List.reverse_reverse form, hreverse]
      simp
    · intro p hp
      simpa using hafter p (List.mem_reverse.mp hp)
  · rintro ⟨before, after, rfl, hafter⟩
    refine ⟨(name, s), List.find?_eq_some_iff_append.mpr ⟨by simp, after.reverse, before.reverse, ?_, ?_⟩,
      rfl⟩
    · simp
    · intro p hp
      simpa using hafter p (List.mem_reverse.mp hp)

end Form

theorem Target.dropHost_of_slash (rest : List UInt8) :
    dropHost (slash :: rest) = slash :: rest := by
  have hsigns : utf8 "://" = [0x3A, 0x2F, 0x2F] := by
    rw [Text.utf8_eq]
    rfl
  have hscheme : (slash :: rest).dropWhile isSchemeByte = slash :: rest :=
    List.dropWhile_cons_of_neg (by decide)
  rw [dropHost, hscheme, hsigns]
  rfl

/-- What may stand behind a path in an address: a query or a fragment, if anything. -/
def Target.Behind (tail : List UInt8) : Prop :=
  ∀ b, tail.head? = some b → b = 0x23 ∨ b = 0x3F

theorem Target.parse_eq {rest tail : List UInt8} {uri : String}
    (huri : utf8 uri = slash :: (rest ++ tail)) (hnumber : 0x23 ∉ slash :: rest)
    (hquestion : 0x3F ∉ slash :: rest) (htail : Behind tail) :
    parse uri = ⟨slash :: rest, (cutAt 0x3F (cutAt 0x23 tail).1).2⟩ := by
  have hempty : (cutAt 0x3F (cutAt 0x23 tail).1).1 = [] := by
    cases tail with
    | nil => rfl
    | cons b more =>
      rcases htail b rfl with rfl | rfl
      · rw [Text.cutAt_cons_self]
        rfl
      · have hmark : (0x23 : UInt8) ∉ [0x3F] := by decide
        have hfragment := Text.cutAt_append_left hmark more
        rw [List.singleton_append, List.singleton_append] at hfragment
        rw [hfragment, Text.cutAt_cons_self]
  have hbefore := Text.cutAt_append_left hnumber tail
  have hcut := Text.cutAt_append_left hquestion (cutAt 0x23 tail).1
  rw [List.cons_append] at hbefore hcut
  simp [parse, huri, hbefore, dropHost_of_slash, hcut, hempty]

theorem Target.parse_of_asks {form : Form} {path uri : String} {rest : List UInt8}
    (hpath : utf8 path = slash :: rest) (hnumber : 0x23 ∉ slash :: rest)
    (hquestion : 0x3F ∉ slash :: rest) (h : form.Asks path uri) :
    (parse uri).path = utf8 path ∧ Form.parse ((parse uri).query.getD []) = form := by
  rw [hpath]
  rcases h with ⟨rfl, rfl⟩ | ⟨query, hquery, huri⟩
  · have htail : Behind [] := by
      intro b hb
      cases hb
    rw [parse_eq (by rw [hpath, List.append_nil]) hnumber hquestion htail]
    exact ⟨rfl, rfl⟩
  · rw [hpath, List.cons_append] at huri
    have htail : Behind (0x3F :: query) := by
      intro b hb
      simp at hb
      exact .inr hb.symm
    have hwhole : cutAt 0x23 (0x3F :: query) = (0x3F :: query, none) :=
      Text.cutAt_of_not_mem (by simp [hquery.not_mem_numberSign])
    rw [parse_eq huri hnumber hquestion htail, hwhole, Text.cutAt_cons_self]
    exact ⟨rfl, Form.parse_of_writes hquery⟩

end OfferLedger.Service
