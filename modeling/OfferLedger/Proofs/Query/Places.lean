import OfferLedger.Proofs.Filter.Soundness
import OfferLedger.Query.Condition

/-! # The places of a condition

The text of a condition has as many places as there are values for it, and the values are the literals of
the filter in their order. The text depends on nothing but the shape of the filter: two filters that differ
in their literals alone have the same text. -/
namespace OfferLedger

namespace Filter

/-- Two filters of one shape, with the same fields and operators, and lists of the same lengths. -/
inductive Alike : Filter → Filter → Prop where
  | compare (f : Field) (op : Operator) (v w : Value) : Alike (.compare f op v) (.compare f op w)
  | isIn (f : Field) {vs ws : List Value} : vs.length = ws.length →
      Alike (.isIn f vs) (.isIn f ws)
  | and {l l' r r'} : Alike l l' → Alike r r' → Alike (.and l r) (.and l' r')
  | or {l l' r r'} : Alike l l' → Alike r r' → Alike (.or l r) (.or l' r')
  | not {n n'} : Alike n n' → Alike (.not n) (.not n')

/-- The literals of a filter from left to right, each with the operator that it is compared by; the
values of a list are compared for equality. -/
def operands : Filter → List (Operator × Value)
  | compare _ op v => [(op, v)]
  | isIn _ vs => vs.map fun v => (.eq, v)
  | and l r | or l r => l.operands ++ r.operands
  | not n => n.operands

theorem map_snd_operands (n : Filter) : n.operands.map (·.2) = n.values := by
  induction n with
  | compare f op v => rfl
  | isIn f vs => exact (List.map_map ..).trans (List.map_id' vs)
  | and l r ihl ihr => rw [operands, values, List.map_append, ihl, ihr]
  | or l r ihl ihr => rw [operands, values, List.map_append, ihl, ihr]
  | not n ih => exact ih

end Filter

namespace Query

def operandParam : Operator × Value → Param
  | (_, .number d) => .integer d.micros
  | (op, .text s) => .text (if op.isTextOnly then patternOf op s else s)

theorem operandParam_eq (v : Value) : operandParam (.eq, v) = paramOf v := by
  cases v with
  | text s => rfl
  | number d => rfl

theorem operandParam_comparison (f : Field) (op : Operator) (v : Value) :
    (comparison f op v).2 = operandParam (op, v) := by
  unfold comparison
  cases v with
  | text s =>
    cases htext : op.isTextOnly with
    | true => simp [operandParam, htext]
    | false => simp [operandParam, htext, paramOf]
  | number d => cases op.isTextOnly <;> rfl

theorem paramsOf_eq (n : Filter) : paramsOf n = n.operands.map operandParam := by
  induction n with
  | compare f op v =>
    rw [paramsOf, operandParam_comparison]
    rfl
  | isIn f vs =>
    rw [paramsOf, Filter.operands, List.map_map]
    exact List.map_congr_left fun v _ => (operandParam_eq v).symm
  | and l r ihl ihr => rw [paramsOf, Filter.operands, List.map_append, ihl, ihr]
  | or l r ihl ihr => rw [paramsOf, Filter.operands, List.map_append, ihl, ihr]
  | not n ih => exact ih

theorem count_column (f : Field) : f.column.toList.count '?' = 0 := by cases f <;> decide

theorem count_places (n : Nat) : (Condition.places n).count '?' = n := by
  induction n with
  | zero => rfl
  | succ n ih =>
    cases n with
    | zero => rfl
    | succ n =>
      have hcomma : "?, ".toList.count '?' = 1 := by decide
      change ("?, ".toList ++ Condition.places (n + 1)).count '?' = n + 2
      rw [List.count_append, ih, hcomma, Nat.add_comm]

def Condition.size : Condition → Nat
  | .compare .. | .glob _ => 1
  | .isIn _ n => n
  | .and l r | .or l r => l.size + r.size
  | .not c => c.size

theorem count_pair {word l r : List Char} (hword : word.count '?' = 0) :
    ('(' :: l ++ word ++ r ++ [')']).count '?' = l.count '?' + r.count '?' := by
  have hopen : ('(' :: l).count '?' = l.count '?' := List.count_cons_of_ne (by decide)
  have hclose : [')'].count '?' = 0 := rfl
  rw [List.count_append, List.count_append, List.count_append, hopen, hword, hclose]
  omega

theorem count_toChars (c : Condition) : c.toChars.count '?' = c.size := by
  induction c with
  | compare f r =>
    have hplace : (' ' :: r.symbol.toList ++ " ?".toList).count '?' = 1 := by cases r <;> decide
    change (f.column.toList ++ ' ' :: r.symbol.toList ++ " ?".toList).count '?' = 1
    rw [List.append_assoc, List.count_append, count_column, hplace]
  | glob f =>
    have hplace : " GLOB ?".toList.count '?' = 1 := by decide
    change (f.column.toList ++ " GLOB ?".toList).count '?' = 1
    rw [List.count_append, count_column, hplace]
  | isIn f n =>
    have hbegin : " IN (".toList.count '?' = 0 := by decide
    have hclose : [')'].count '?' = 0 := rfl
    change (f.column.toList ++ " IN (".toList ++ Condition.places n ++ [')']).count '?' = n
    rw [List.count_append, List.count_append, List.count_append, count_column, count_places, hbegin,
      hclose]
    omega
  | and l r ihl ihr =>
    change ('(' :: l.toChars ++ " AND ".toList ++ r.toChars ++ [')']).count '?' = l.size + r.size
    rw [count_pair (by decide), ihl, ihr]
  | or l r ihl ihr =>
    change ('(' :: l.toChars ++ " OR ".toList ++ r.toChars ++ [')']).count '?' = l.size + r.size
    rw [count_pair (by decide), ihl, ihr]
  | not c ih =>
    have hbegin : "NOT (".toList.count '?' = 0 := by decide
    have hclose : [')'].count '?' = 0 := rfl
    change ("NOT (".toList ++ c.toChars ++ [')']).count '?' = c.size
    rw [List.count_append, List.count_append, ih, hbegin, hclose]
    omega

theorem size_comparison (f : Field) (op : Operator) (v : Value) :
    (comparison f op v).1.size = 1 := by
  unfold comparison
  split <;> rfl

theorem size_conditionOf (n : Filter) : (conditionOf n).size = (paramsOf n).length := by
  induction n with
  | compare f op v => exact size_comparison f op v
  | isIn f vs => exact (List.length_map _).symm
  | and l r ihl ihr => rw [conditionOf, paramsOf, Condition.size, List.length_append, ihl, ihr]
  | or l r ihl ihr => rw [conditionOf, paramsOf, Condition.size, List.length_append, ihl, ihr]
  | not n ih => exact ih

theorem comparison_congr {f : Field} {op : Operator} {v w : Value} (h : v.kind = w.kind) :
    (comparison f op v).1 = (comparison f op w).1 := by
  unfold comparison
  cases v with
  | text s =>
    cases w with
    | text s' => cases op.isTextOnly <;> rfl
    | number d => cases h
  | number d =>
    cases w with
    | text s => cases h
    | number d' => cases op.isTextOnly <;> rfl

theorem conditionOf_alike {n m : Filter} (h : n.Alike m) (hn : n.WellTyped) (hm : m.WellTyped) :
    conditionOf n = conditionOf m := by
  induction h with
  | compare f op v w => exact comparison_congr (hn.1.trans hm.1.symm)
  | isIn f hlen => exact congrArg (Condition.isIn f) hlen
  | and _ _ ihl ihr => rw [conditionOf, conditionOf, ihl hn.1 hm.1, ihr hn.2 hm.2]
  | or _ _ ihl ihr => rw [conditionOf, conditionOf, ihl hn.1 hm.1, ihr hn.2 hm.2]
  | not _ ih => rw [conditionOf, conditionOf, ih hn hm]

/-- The condition of a filter that was read has a place for every literal, in the order of the
literals, and its text is the same for every filter of the same shape. -/
theorem conditionOf_places {input : String} {n : Filter} (hn : Filter.parse input = .ok n) :
    (conditionOf n).toChars.count '?' = (paramsOf n).length ∧
      paramsOf n = n.operands.map operandParam ∧ n.operands.map (·.2) = n.values ∧
      ∀ (input' : String) (m : Filter), Filter.parse input' = .ok m → n.Alike m →
        (conditionOf m).toChars = (conditionOf n).toChars := by
  refine ⟨?_, paramsOf_eq n, n.map_snd_operands, ?_⟩
  · rw [count_toChars, size_conditionOf]
  · intro input' m hm halike
    rw [conditionOf_alike halike (Filter.wellTyped_of_parse hn) (Filter.wellTyped_of_parse hm)]

/-- Question marks and quotes of the user stay in the values. -/
theorem conditionOf_places_of_marks :
    (conditionOf (.and (.not (.compare .city .contains (.text "?' OR ?")))
        (.isIn .uf [.text "?", .text "b"]))).toChars.count '?' = 3 ∧
      paramsOf (.and (.not (.compare .city .contains (.text "?' OR ?")))
        (.isIn .uf [.text "?", .text "b"])) =
        [.text "*[?]' OR [?]*", .text "?", .text "b"] ∧
      (conditionOf (.and (.not (.compare .city .contains (.text "")))
        (.isIn .uf [.text "x", .text "y"]))).toChars =
        (conditionOf (.and (.not (.compare .city .contains (.text "?' OR ?")))
        (.isIn .uf [.text "?", .text "b"]))).toChars := by
  have hn : Filter.parse "not city contains '?\\' OR ?' and uf in ('?', 'b')" = .ok
      (.and (.not (.compare .city .contains (.text "?' OR ?")))
        (.isIn .uf [.text "?", .text "b"])) := by
    rfl
  have hm : Filter.parse "not city contains '' and uf in ('x', 'y')" = .ok
      (.and (.not (.compare .city .contains (.text ""))) (.isIn .uf [.text "x", .text "y"])) := by
    rfl
  obtain ⟨hcount, hparams, -, hsame⟩ := conditionOf_places hn
  exact ⟨hcount, hparams, hsame _ _ hm (.and (.not (.compare ..)) (.isIn _ rfl))⟩

end Query
end OfferLedger
