import OfferLedger.Proofs.Json.Strings

/-! # Lists and objects are read as they were written

A list of objects whose fields are strings, with blanks where a writer may put them: before every
element and every key, behind every colon, and before every closing bracket. Both layouts in which JSON
is written are of this kind. -/
namespace OfferLedger.Json

open Text (encoded)

def Blank (gap : List UInt8) : Prop := ∀ b ∈ gap, isSpace b = true

instance (gap : List UInt8) : Decidable (Blank gap) :=
  inferInstanceAs (Decidable (∀ b ∈ gap, isSpace b = true))

theorem blank_nil : Blank [] := fun _ h => absurd h List.not_mem_nil

theorem skipSpaces_append {gap : List UInt8} (h : Blank gap) (rest : List UInt8) :
    skipSpaces (gap ++ rest) = skipSpaces rest :=
  List.dropWhile_append_of_pos h

theorem skipSpaces_cons {b : UInt8} (h : isSpace b = false) (rest : List UInt8) :
    skipSpaces (b :: rest) = b :: rest :=
  List.dropWhile_cons_of_neg (by simp [h])

theorem skipSpaces_gap {gap : List UInt8} (hgap : Blank gap) {b : UInt8} (h : isSpace b = false)
    (rest : List UInt8) : skipSpaces (gap ++ b :: rest) = b :: rest := by
  rw [skipSpaces_append hgap, skipSpaces_cons h]

theorem quoted_append (s : String) (rest : List UInt8) :
    quoted s ++ rest = byte '"' :: ((quoted s).tail ++ rest) := by
  rw [quoted_eq]
  rfl

section

variable {gap : List UInt8} (hgap : Blank gap)
include hgap

theorem readString_quoted (s : String) (rest : List UInt8) :
    readString (gap ++ (quoted s ++ rest)) = .ok (s, rest) := by
  rw [quoted_append, readString, skipSpaces_gap hgap rfl]
  exact readText_quoted s rest

theorem readDecimal_text (text : String) (rest : List UInt8) :
    readDecimal (gap ++ (quoted text ++ rest)) = decimalOf text rest := by
  rw [quoted_append, readDecimal, skipSpaces_gap hgap rfl]
  change (readText ((quoted text).tail ++ rest) >>= _) = _
  rw [readText_quoted]
  rfl

theorem readDecimal_quoted {text : String} {d : Decimal} (h : Decimal.parse text = .ok d)
    (rest : List UInt8) : readDecimal (gap ++ (quoted text ++ rest)) = .ok (d, rest) := by
  rw [readDecimal_text hgap, decimalOf, h]

def comma (first : Bool) : List UInt8 := if first then [] else [byte ',']

theorem nextKey_quoted (first : Bool) (key : String) (rest : List UInt8) :
    nextKey first (comma first ++ (gap ++ (quoted key ++ rest))) = .ok (some key, rest) := by
  have hskip := skipSpaces_gap hgap (b := byte '"') rfl ((quoted key).tail ++ rest)
  have hquote : byte '"' ≠ byte '\x7d' := by decide
  have hcomma : byte ',' ≠ byte '\x7d' := by decide
  rw [quoted_append]
  cases first with
  | true =>
    change nextKey true (gap ++ _) = _
    simp only [nextKey, hskip, if_neg hquote, if_true, bind, Except.bind, readText_quoted]
  | false =>
    change nextKey false (byte ',' :: (gap ++ _)) = _
    simp only [nextKey, skipSpaces_cons (b := byte ',') rfl, hskip, if_neg hquote, if_neg hcomma,
      Bool.false_eq_true, if_false, if_true, bind, Except.bind, readText_quoted]

theorem nextKey_close (first : Bool) (rest : List UInt8) :
    nextKey first (gap ++ byte '\x7d' :: rest) = .ok (none, rest) := by
  rw [nextKey, skipSpaces_gap hgap rfl]
  rfl

theorem nextElement_open (first : Bool) (rest : List UInt8) :
    nextElement first (comma first ++ (gap ++ byte '\x7b' :: rest)) =
      .ok (true, byte '\x7b' :: rest) := by
  have hskip := skipSpaces_gap hgap (b := byte '\x7b') rfl rest
  cases first with
  | true =>
    change nextElement true (gap ++ _) = _
    rw [nextElement, hskip]
    rfl
  | false =>
    change nextElement false (byte ',' :: (gap ++ _)) = _
    rw [nextElement, skipSpaces_cons rfl]
    simp only [hskip]
    rfl

theorem nextElement_close (first : Bool) (rest : List UInt8) :
    nextElement first (gap ++ byte ']' :: rest) = .ok (false, byte ']' :: rest) := by
  rw [nextElement, skipSpaces_gap hgap rfl]
  rfl

end

theorem readColon_cons (rest : List UInt8) : readColon (byte ':' :: rest) = .ok rest := by
  rw [readColon, skipSpaces_cons rfl]
  rfl

theorem closeList_cons (rest : List UInt8) : closeList (byte ']' :: rest) = .ok rest := by
  rw [closeList, skipSpaces_cons rfl]
  rfl

/-- Where a writer puts blanks: before an element and a closing bracket of the list, before a key and a
closing brace of an object, and behind a colon. -/
structure Layout where
  element : List UInt8
  listEnd : List UInt8
  key : List UInt8
  objectEnd : List UInt8
  value : List UInt8

structure Layout.Blank (layout : Layout) : Prop where
  element : Json.Blank layout.element
  listEnd : Json.Blank layout.listEnd
  key : Json.Blank layout.key
  objectEnd : Json.Blank layout.objectEnd
  value : Json.Blank layout.value

def Layout.fields (layout : Layout) : Bool → List (String × String) → List UInt8
  | _, [] => []
  | first, (key, value) :: rest =>
    comma first ++ (layout.key ++ (quoted key ++
      (byte ':' :: (layout.value ++ (quoted value ++ layout.fields false rest)))))

def Layout.object (layout : Layout) (fields : List (String × String)) : List UInt8 :=
  byte '\x7b' :: (layout.fields true fields ++ (layout.objectEnd ++ [byte '\x7d']))

def Layout.elements (layout : Layout) : Bool → List (List (String × String)) → List UInt8
  | _, [] => []
  | first, fields :: rest =>
    comma first ++ (layout.element ++ (layout.object fields ++ layout.elements false rest))

def Layout.list (layout : Layout) (objects : List (List (String × String))) : List UInt8 :=
  byte '[' :: (layout.elements true objects ++ (layout.listEnd ++ [byte ']']))

def strings (fields : List (String × String)) : Json :=
  .obj (fields.map fun field => (field.1, .str field.2))

def Layout.compact : Layout := ⟨[], [], [], [], []⟩

def Layout.pretty : Layout :=
  ⟨encoded (indent 1), encoded (indent 0), encoded (indent 2), encoded (indent 1), [byte ' ']⟩

theorem Layout.blank_compact : Layout.compact.Blank :=
  ⟨blank_nil, blank_nil, blank_nil, blank_nil, blank_nil⟩

theorem Layout.blank_pretty : Layout.pretty.Blank :=
  ⟨by decide +kernel, by decide +kernel, by decide +kernel, by decide +kernel, by decide +kernel⟩

theorem encoded_comma (first : Bool) : encoded (if first then [] else [',']) = comma first := by
  cases first <;> rfl

theorem compactChars_str (s : String) : compactChars (.str s) = quote s := by
  rw [compactChars] <;> first | rfl | nofun

theorem prettyChars_str (depth : Nat) (s : String) : prettyChars depth (.str s) = quote s := by
  rw [prettyChars] <;> first | rfl | nofun

theorem encoded_compactFields (first : Bool) (fields : List (String × String)) :
    encoded (compactFields first (fields.map fun field => (field.1, .str field.2))) =
      Layout.compact.fields first fields := by
  induction fields generalizing first with
  | nil =>
    rw [List.map_nil, compactFields]
    rfl
  | cons field rest ih =>
    rw [List.map_cons, compactFields, compactChars_str, List.append_assoc, List.append_assoc,
      List.cons_append, Text.encoded_append, Text.encoded_append, Text.encoded_cons,
      Text.encoded_append, encoded_comma, ih]
    rfl

theorem encoded_prettyFields (first : Bool) (fields : List (String × String)) :
    encoded (prettyFields 2 first (fields.map fun field => (field.1, .str field.2))) =
      Layout.pretty.fields first fields := by
  induction fields generalizing first with
  | nil =>
    rw [List.map_nil, prettyFields]
    rfl
  | cons field rest ih =>
    rw [List.map_cons, prettyFields, prettyChars_str]
    simp only [List.append_assoc]
    rw [Text.encoded_append, Text.encoded_append, Text.encoded_append, Text.encoded_append,
      Text.encoded_append, encoded_comma, ih]
    rfl

theorem encoded_compactObject (fields : List (String × String)) :
    encoded (compactChars (strings fields)) = Layout.compact.object fields := by
  rw [strings, compactChars, List.cons_append, Text.encoded_cons, Text.encoded_append,
    encoded_compactFields]
  rfl

theorem encoded_prettyObject {fields : List (String × String)} (h : fields ≠ []) :
    encoded (prettyChars 1 (strings fields)) = Layout.pretty.object fields := by
  rw [strings, prettyChars, List.append_assoc, List.cons_append, Text.encoded_cons,
    Text.encoded_append, Text.encoded_append, encoded_prettyFields]
  · rfl
  · simpa using h

theorem encoded_compactItems (first : Bool) (objects : List (List (String × String))) :
    encoded (compactItems first (objects.map strings)) = Layout.compact.elements first objects := by
  induction objects generalizing first with
  | nil =>
    rw [List.map_nil, compactItems]
    rfl
  | cons fields rest ih =>
    rw [List.map_cons, compactItems, List.append_assoc, Text.encoded_append, Text.encoded_append,
      encoded_comma, encoded_compactObject, ih]
    rfl

theorem encoded_prettyItems (first : Bool) {objects : List (List (String × String))}
    (h : ∀ fields ∈ objects, fields ≠ []) :
    encoded (prettyItems 1 first (objects.map strings)) = Layout.pretty.elements first objects := by
  induction objects generalizing first with
  | nil =>
    rw [List.map_nil, prettyItems]
    rfl
  | cons fields rest ih =>
    rw [List.map_cons, prettyItems, List.append_assoc, List.append_assoc, Text.encoded_append,
      Text.encoded_append, Text.encoded_append, encoded_comma,
      encoded_prettyObject (h fields (List.mem_cons_self ..)),
      ih _ fun fields hm => h fields (List.mem_cons_of_mem _ hm)]
    rfl

theorem utf8_compact (objects : List (List (String × String))) :
    Text.utf8 (Json.arr (objects.map strings)).compact = Layout.compact.list objects := by
  rw [Text.utf8_eq, compact, String.toList_ofList, compactChars, List.cons_append,
    Text.encoded_cons, Text.encoded_append, encoded_compactItems]
  rfl

theorem utf8_pretty {objects : List (List (String × String))} (hne : objects ≠ [])
    (h : ∀ fields ∈ objects, fields ≠ []) :
    Text.utf8 (Json.arr (objects.map strings)).pretty = Layout.pretty.list objects := by
  rw [Text.utf8_eq, pretty, String.toList_ofList, prettyChars, List.append_assoc,
    List.cons_append, Text.encoded_cons, Text.encoded_append, Text.encoded_append,
    encoded_prettyItems _ h]
  · rfl
  · simpa using hne

end OfferLedger.Json
