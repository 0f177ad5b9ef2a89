import OfferLedger.Proofs.Filter.RoundTrip
import OfferLedger.Proofs.Query.Places

/-! # What a filter that was read can be

The reader counts terms, and a tree has fewer nodes and fewer values than terms, so it is bounded in size
and in the values that are passed for it. It also checks every type, so the branches that the translation
and the matching have for values of a wrong kind are never taken: both give the same without them. -/
namespace OfferLedger

namespace Filter

def height : Filter → Nat
  | compare .. | isIn .. => 1
  | and l r | or l r => max l.height r.height + 1
  | not n => n.height + 1

theorem height_le_size (n : Filter) : n.height ≤ n.size := by
  induction n with
  | compare | isIn => exact Nat.le_refl 1
  | and l r ihl ihr | or l r ihl ihr =>
    rw [height, size]
    omega
  | not n ih => exact Nat.succ_le_succ ih

/-- A comparison and a list have a term for their field besides those of their values, which makes up for
the `and`s and `or`s between them. -/
theorem size_lt_termCount {n : Filter} (hn : n.WellTyped) : n.size < n.termCount := by
  induction n with
  | compare => exact Nat.lt_succ_self 1
  | isIn f vs => exact Nat.succ_lt_succ (List.length_pos_of_ne_nil hn.1)
  | and l r ihl ihr | or l r ihl ihr =>
    have hl := ihl hn.1
    have hr := ihr hn.2
    rw [size, termCount]
    omega
  | not n ih => exact Nat.succ_lt_succ (ih hn)

theorem length_values_lt_termCount (n : Filter) : n.values.length < n.termCount := by
  induction n with
  | compare => exact Nat.lt_succ_self 1
  | isIn f vs => exact Nat.lt_succ_self _
  | and l r ihl ihr | or l r ihl ihr =>
    rw [values, termCount, List.length_append]
    omega
  | not n ih => exact Nat.lt_succ_of_lt ih

theorem termCount_of_parse {input : String} {n : Filter} (h : parse input = .ok n) :
    n.termCount ≤ 500 := by
  obtain ⟨_, -, hd, hterms⟩ := derives_of_parse h
  rwa [hd.terms_eq] at hterms

end Filter

def Operator.holds? (op : Operator) (actual expected : Value) : Option Bool :=
  if op.isTextOnly then
    match actual, expected with
    | .text a, .text e => some (op.holdsText a.toList e.toList)
    | _, _ => none
  else (actual.order? expected).map op.holdsOrder

/-- As `Filter.selects`, but without an answer if any value is of another kind than that of the listing. -/
def Filter.selects? (l : Listing) : Filter → Option Bool
  | .compare f op v => op.holds? (l.value f) v
  | .isIn f vs => do
    let orders ← vs.mapM fun v => (l.value f).order? v
    some (orders.any (· == .eq))
  | .and a b => do
    let left ← a.selects? l
    let right ← b.selects? l
    some (left && right)
  | .or a b => do
    let left ← a.selects? l
    let right ← b.selects? l
    some (left || right)
  | .not n => do
    let operand ← n.selects? l
    some !operand

theorem Value.exists_order {a b : Value} (h : a.kind = b.kind) : ∃ o, a.order? b = some o := by
  cases a <;> cases b <;> first | exact ⟨_, rfl⟩ | cases h

theorem Operator.holds?_eq {op : Operator} {actual expected : Value}
    (hkind : actual.kind = expected.kind) (hop : op.isTextOnly = true → expected.kind = .text) :
    op.holds? actual expected = some (op.holds actual expected) := by
  unfold holds? holds
  cases htext : op.isTextOnly with
  | true =>
    have hk := hop htext
    cases expected with
    | number d => cases hk
    | text e =>
      cases actual with
      | number d => cases hkind
      | text a => rfl
  | false =>
    obtain ⟨o, ho⟩ := Value.exists_order hkind
    rw [ho]
    rfl

theorem mapM_order (actual : Value) {vs : List Value} (hvs : ∀ v ∈ vs, v.kind = actual.kind) :
    ∃ orders, vs.mapM (fun v => actual.order? v) = some orders ∧
      orders.any (· == .eq) = vs.any fun v => actual.order? v == some .eq := by
  induction vs with
  | nil => exact ⟨[], rfl, rfl⟩
  | cons v vs ih =>
    obtain ⟨o, ho⟩ := Value.exists_order (hvs v (List.mem_cons_self ..)).symm
    obtain ⟨orders, horders, hany⟩ := ih fun w hw => hvs w (List.mem_cons_of_mem _ hw)
    refine ⟨o :: orders, ?_, ?_⟩
    · rw [List.mapM_cons, ho, horders]
      rfl
    · rw [List.any_cons, List.any_cons, hany, ho]
      rfl

theorem Filter.selects?_eq {n : Filter} (hn : n.WellTyped) (l : Listing) :
    n.selects? l = some (n.selects l) := by
  induction n with
  | compare f op v =>
    have hkind : (l.value f).kind = v.kind := (l.kind_value f).trans hn.1.symm
    exact Operator.holds?_eq hkind fun htext => hn.1.trans (hn.2 htext)
  | isIn f vs =>
    obtain ⟨orders, horders, hany⟩ :=
      mapM_order (l.value f) fun v hv => (hn.2 v hv).trans (l.kind_value f).symm
    rw [selects?, horders, selects, ← hany]
    rfl
  | and a b iha ihb | or a b iha ihb =>
    rw [selects?, iha hn.1, ihb hn.2]
    rfl
  | not n ih =>
    rw [selects?, ih hn]
    rfl

namespace Query

def relationOf? (op : Operator) : Option Relation :=
  if op.isTextOnly then none else some (relationOf op)

def comparison? (f : Field) (op : Operator) (v : Value) : Option Condition :=
  match op.isTextOnly, v with
  | true, .text _ => some (.glob f)
  | _, _ => (relationOf? op).map (.compare f)

def conditionOf? : Filter → Option Condition
  | .compare f op v => comparison? f op v
  | .isIn f vs => some (.isIn f vs.length)
  | .and l r => do
    let left ← conditionOf? l
    let right ← conditionOf? r
    some (.and left right)
  | .or l r => do
    let left ← conditionOf? l
    let right ← conditionOf? r
    some (.or left right)
  | .not n => do
    let operand ← conditionOf? n
    some (.not operand)

theorem comparison?_eq {f : Field} {op : Operator} {v : Value}
    (hop : op.isTextOnly = true → v.kind = .text) :
    comparison? f op v = some (comparison f op v).1 := by
  unfold comparison? comparison relationOf?
  cases htext : op.isTextOnly with
  | true =>
    have hk := hop htext
    cases v with
    | text s => rfl
    | number d => cases hk
  | false => rfl

theorem conditionOf?_eq {n : Filter} (hn : n.WellTyped) :
    conditionOf? n = some (conditionOf n) := by
  induction n with
  | compare f op v => exact comparison?_eq fun htext => hn.1.trans (hn.2 htext)
  | isIn f vs => rfl
  | and l r ihl ihr | or l r ihl ihr =>
    rw [conditionOf?, ihl hn.1, ihr hn.2]
    rfl
  | not n ih =>
    rw [conditionOf?, ih hn]
    rfl

/-- No text is read as this filter. -/
example : conditionOf? (.compare .askingPrice .contains (.number .zero)) = none ∧
    (Filter.compare .askingPrice .contains (.number .zero)).selects?
      { sourceId := "a", uf := "SP" } = none := by
  decide

theorem length_paramsOf (n : Filter) : (paramsOf n).length = n.values.length := by
  rw [paramsOf_eq, ← n.map_snd_operands, List.length_map, List.length_map]

/-- A filter that was read has at most 499 nodes and as many values, its values have the kinds of their
fields, and no list is empty. Its condition needs no relation for an operator on parts of a text, and no
listing that it is matched against has a value of another kind. -/
theorem parse_bounded {input : String} {n : Filter} (h : Filter.parse input = .ok n) :
    n.size ≤ 499 ∧ n.height ≤ n.size ∧ n.WellTyped ∧ (paramsOf n).length ≤ 499 ∧
      conditionOf? n = some (conditionOf n) ∧
      ∀ l : Listing, n.selects? l = some (n.selects l) := by
  have hn := Filter.wellTyped_of_parse h
  have hterms := Filter.termCount_of_parse h
  have hsize := Filter.size_lt_termCount hn
  have hvalues := n.length_values_lt_termCount
  refine ⟨by omega, n.height_le_size, hn, ?_, conditionOf?_eq hn, n.selects?_eq hn⟩
  rw [length_paramsOf]
  omega

theorem parse_bounded_glob :
    ∃ n, Filter.parse "not uf in ('SP', 'RJ') or city startswith 'S' and askingPrice le 10" = .ok n ∧
      n.size = 6 ∧ n.WellTyped ∧ (paramsOf n).length ≤ 499 ∧
      conditionOf? n = some
        (.or (.not (.isIn .uf 2)) (.and (.glob .city) (.compare .askingPrice .le))) ∧
      n.selects? { sourceId := "a", uf := "RJ", city := "Santos" } = some true := by
  have hn : Filter.parse "not uf in ('SP', 'RJ') or city startswith 'S' and askingPrice le 10" = .ok
      (.or (.not (.isIn .uf [.text "SP", .text "RJ"]))
        (.and (.compare .city .startsWith (.text "S"))
          (.compare .askingPrice .le (.number ⟨10000000, by decide, by decide⟩)))) := by
    rfl
  obtain ⟨-, -, hwell, hparams, hcondition, hselects⟩ := parse_bounded hn
  exact ⟨_, hn, rfl, hwell, hparams, hcondition, (hselects _).trans (congrArg some (by decide))⟩

end Query
end OfferLedger
