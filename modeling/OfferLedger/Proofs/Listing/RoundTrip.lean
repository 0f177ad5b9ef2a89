import OfferLedger.Listing.Reading
import OfferLedger.Proofs.Decimal.RoundTrip
import OfferLedger.Proofs.Json.Layout

/-! # Listings are read as they were written

A listing is written as an object with its eleven attributes. The reader takes the fields one by one into
a draft, and at the closing brace the draft is the listing, wherever blanks stand between. -/
namespace OfferLedger

open Json (byte quoted comma Layout ReadError)

def Value.written : Value → String
  | .text s => s
  | .number d => toString d

def Value.Legible : Value → Prop
  | .text _ => True
  | .number d => -9223372036854775808 < d.micros

namespace Listing

def valueOf (l : Listing) : Attribute → Value
  | .sourceId => .text l.sourceId
  | .field f => l.value f

def Legible (l : Listing) : Prop := ∀ f, (l.value f).Legible

def writtenFields (l : Listing) (attributes : List Attribute) : List (String × String) :=
  attributes.map fun a => (a.name, (l.valueOf a).written)

theorem toJson_eq (l : Listing) : l.toJson = Json.strings (l.writtenFields Attribute.all) := rfl

theorem kind_valueOf (l : Listing) (a : Attribute) : (l.valueOf a).kind = a.kind := by
  cases a with
  | sourceId => rfl
  | field f => exact l.kind_value f

theorem Legible.valueOf {l : Listing} (h : l.Legible) (a : Attribute) :
    (l.valueOf a).Legible := by
  cases a with
  | sourceId => trivial
  | field f => exact h f

theorem Attribute.ofName?_name (a : Attribute) : ofName? a.name = some a := by
  cases a with
  | sourceId => rfl
  | field f => cases f <;> decide

theorem readValue_written {v : Value} (h : v.Legible) {gap : List UInt8} (hgap : Json.Blank gap)
    (rest : List UInt8) : readValue v.kind (gap ++ (quoted v.written ++ rest)) = .ok (v, rest) := by
  cases v with
  | text s =>
    change (Json.readString (gap ++ (quoted s ++ rest)) >>= _) = _
    rw [Json.readString_quoted hgap]
    rfl
  | number d =>
    have hparse : Decimal.parse (toString d) = .ok d := (Decimal.parse_toString d).trans (if_pos h)
    change (Json.readDecimal (gap ++ (quoted (toString d) ++ rest)) >>= _) = _
    rw [Json.readDecimal_quoted hgap hparse]
    rfl

def drafted (l : Listing) (attributes : List Attribute) : Draft :=
  (attributes.map fun a => (a, l.valueOf a)).reverse

section

variable {l : Listing} (hl : l.Legible) {layout : Layout} (hlayout : layout.Blank)
include hl hlayout

theorem readFields_written {attributes : List Attribute} (hnodup : attributes.Nodup)
    {fuel : Nat} (hfuel : attributes.length < fuel) (first : Bool) {draft : Draft}
    (hdraft : ∀ a ∈ attributes, draft.lookup a = none)
    (hmissing : (l.drafted attributes ++ draft).missing = none) (rest : List UInt8) :
    readFields fuel first draft (layout.fields first (l.writtenFields attributes) ++
        (layout.objectEnd ++ byte '\x7d' :: rest)) =
      .ok (l.drafted attributes ++ draft, rest) := by
  induction attributes generalizing fuel first draft with
  | nil =>
    obtain ⟨fuel, rfl⟩ := Nat.exists_eq_add_one_of_ne_zero (Nat.ne_of_gt hfuel)
    have hmissing : draft.missing = none := hmissing
    change (Json.nextKey first (layout.objectEnd ++ byte '\x7d' :: rest) >>= _) = _
    rw [Json.nextKey_close hlayout.objectEnd]
    simp only [bind, Except.bind, hmissing]
    rfl
  | cons a attributes ih =>
    obtain ⟨fuel, rfl⟩ := Nat.exists_eq_add_one_of_ne_zero (Nat.ne_of_gt (Nat.zero_lt_of_lt hfuel))
    obtain ⟨hnot, hnodup⟩ := List.nodup_cons.mp hnodup
    have hnext : l.drafted attributes ++ (a, l.valueOf a) :: draft =
        l.drafted (a :: attributes) ++ draft := by
      simp [drafted]
    rw [← hnext] at hmissing ⊢
    rw [writtenFields, List.map_cons, Layout.fields]
    simp only [List.append_assoc, List.cons_append]
    have hfree : (draft.lookup a).isSome = false := by
      rw [hdraft a (List.mem_cons_self ..)]
      rfl
    have hvalue := readValue_written (hl.valueOf a) hlayout.value
    rw [l.kind_valueOf] at hvalue
    rw [readFields, Json.nextKey_quoted hlayout.key]
    simp only [bind, Except.bind, Attribute.ofName?_name, hfree, Bool.false_eq_true, if_false,
      Json.readColon_cons, hvalue]
    refine ih hnodup (Nat.lt_of_succ_lt_succ hfuel) false (fun b hb => ?_) hmissing
    have hne : b ≠ a := fun h => hnot (h ▸ hb)
    rw [List.lookup_cons, beq_false_of_ne hne]
    exact hdraft b (List.mem_cons_of_mem _ hb)

end

theorem toListing_drafted (l : Listing) : (l.drafted Attribute.all).toListing = l := rfl

theorem missing_drafted (l : Listing) : (l.drafted Attribute.all).missing = none := rfl

theorem length_fields (layout : Layout) (first : Bool) (fields : List (String × String)) :
    fields.length ≤ (layout.fields first fields).length := by
  induction fields generalizing first with
  | nil => exact Nat.zero_le _
  | cons field rest ih =>
    have := ih false
    simp only [Layout.fields, List.length_append, List.length_cons]
    omega

def bytes (layout : Layout) (l : Listing) : List UInt8 :=
  layout.object (l.writtenFields Attribute.all)

theorem read_bytes {l : Listing} (hl : l.Legible) {layout : Layout} (hlayout : layout.Blank)
    (rest : List UInt8) : read (l.bytes layout ++ rest) = .ok (l, rest) := by
  have hbytes : l.bytes layout ++ rest =
      byte '\x7b' :: (layout.fields true (l.writtenFields Attribute.all) ++
        (layout.objectEnd ++ byte '\x7d' :: rest)) := by
    rw [bytes, Layout.object, List.cons_append, List.append_assoc, List.append_assoc]
    rfl
  rw [hbytes, read, Json.skipSpaces_cons rfl]
  change (readFields _ true [] _ >>= _) = _
  rw [readFields_written hl hlayout (by decide) ?_ true (fun _ _ => rfl)]
  · rw [List.append_nil]
    exact congrArg (fun read => Except.ok (read, rest)) l.toListing_drafted
  · rw [List.append_nil]
    exact l.missing_drafted
  · have hlength := length_fields layout true (l.writtenFields Attribute.all)
    rw [writtenFields, List.length_map] at hlength
    rw [List.length_append, writtenFields]
    omega

theorem length_elements (layout : Layout) (first : Bool) (objects : List (List (String × String))) :
    objects.length ≤ (layout.elements first objects).length := by
  induction objects generalizing first with
  | nil => exact Nat.zero_le _
  | cons fields rest ih =>
    have := ih false
    simp only [Layout.elements, Layout.object, List.length_append, List.length_cons]
    omega

section

variable {layout : Layout} (hlayout : layout.Blank)
include hlayout

theorem readItems_written {listings : List Listing} (hl : ∀ l ∈ listings, l.Legible) {fuel : Nat}
    (hfuel : listings.length < fuel) (first : Bool) (rest : List UInt8) :
    readItems fuel first (layout.elements first (listings.map (·.writtenFields Attribute.all)) ++
        (layout.listEnd ++ byte ']' :: rest)) = .ok (listings, rest) := by
  induction listings generalizing fuel first with
  | nil =>
    obtain ⟨fuel, rfl⟩ := Nat.exists_eq_add_one_of_ne_zero (Nat.ne_of_gt hfuel)
    change (Json.nextElement first (layout.listEnd ++ byte ']' :: rest) >>= _) = _
    rw [Json.nextElement_close hlayout.listEnd]
    change (do .ok ([], ← Json.closeList (byte ']' :: rest))) = _
    rw [Json.closeList_cons]
    rfl
  | cons l listings ih =>
    obtain ⟨fuel, rfl⟩ := Nat.exists_eq_add_one_of_ne_zero (Nat.ne_of_gt (Nat.zero_lt_of_lt hfuel))
    rw [List.map_cons, Layout.elements]
    simp only [List.append_assoc]
    change (Json.nextElement first (comma first ++ (layout.element ++ byte '\x7b' :: _)) >>= _) = _
    rw [Json.nextElement_open hlayout.element]
    change (read (l.bytes layout ++ _) >>= _) = _
    rw [read_bytes (hl l (List.mem_cons_self ..)) hlayout]
    change (readItems fuel false _ >>= _) = _
    rw [ih (fun l hm => hl l (List.mem_cons_of_mem _ hm)) (Nat.lt_of_succ_lt_succ hfuel)]
    rfl

theorem listOfJson_list {listings : List Listing} (hl : ∀ l ∈ listings, l.Legible) :
    listOfJson (layout.list (listings.map (·.writtenFields Attribute.all))) = .ok listings := by
  have hlist : readList (layout.list (listings.map (·.writtenFields Attribute.all))) =
      .ok (listings, []) := by
    rw [Layout.list, readList, Json.skipSpaces_cons rfl]
    change readItems _ true _ = _
    refine readItems_written hlayout hl ?_ true []
    have hlength := length_elements layout true (listings.map (·.writtenFields Attribute.all))
    rw [List.length_map] at hlength
    rw [List.length_append]
    omega
  change (readList _ >>= _) = _
  rw [hlist]
  rfl

end

end Listing
end OfferLedger
