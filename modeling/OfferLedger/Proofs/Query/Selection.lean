import OfferLedger.Ledger.Read
import OfferLedger.Proofs.Filter.Soundness
import OfferLedger.Proofs.Ledger.Finding
import OfferLedger.Proofs.Query.Glob
import OfferLedger.Proofs.Store.Ledger

/-! # Stored offers are selected as their listings

The condition of a filter takes its values from the list in the order in which the filter holds them, and
is true on the row of an offer exactly when the filter selects the listing. -/
namespace OfferLedger

def Value.Plain : Value → Prop
  | .text s => Text.Plain s.toList
  | .number _ => True

instance : (v : Value) → Decidable v.Plain
  | .text s => inferInstanceAs (Decidable (Text.Plain s.toList))
  | .number _ => isTrue trivial

namespace Query

theorem holds_relationOf {op : Operator} (hop : op.isTextOnly = false) (o : Ordering) :
    (relationOf op).holds o = op.holdsOrder o := by
  cases op with
  | contains | startsWith | endsWith => cases hop
  | _ => rfl

theorem order_cell {a b : Value} (h : a.kind = b.kind) :
    a.order? b = some ((paramOf a).cell.order (paramOf b).cell) := by
  cases a <;> cases b <;> first | rfl | cases h

theorem holds_of_order {op : Operator} (hop : op.isTextOnly = false) {a b : Value} {o : Ordering}
    (h : a.order? b = some o) : op.holds a b = op.holdsOrder o := by
  unfold Operator.holds
  rw [hop, h]
  rfl

theorem holds_text {op : Operator} (hop : op.isTextOnly = true) (a b : String) :
    op.holds (.text a) (.text b) = op.holdsText a.toList b.toList := by
  unfold Operator.holds
  rw [hop]
  rfl

theorem eval_comparison {f : Field} {op : Operator} {v actual : Value} {row : Field → Cell}
    (hrow : row f = (paramOf actual).cell) (hactual : actual.kind = f.kind) (hv : v.kind = f.kind)
    (hop : op.isTextOnly = true → f.kind = .text) (hplain : v.Plain) (hstored : actual.Plain)
    (rest : List Param) :
    (comparison f op v).1.eval row ((comparison f op v).2 :: rest) =
      some (op.holds actual v, rest) := by
  cases htext : op.isTextOnly with
  | false =>
    have hcomparison : comparison f op v = (.compare f (relationOf op), paramOf v) := by
      unfold comparison
      rw [htext]
    rw [hcomparison, holds_of_order htext (order_cell (hactual.trans hv.symm)), ← hrow,
      ← holds_relationOf htext]
    rfl
  | true =>
    have hk := hop htext
    cases v with
    | number d => cases hv.trans hk
    | text s =>
      cases actual with
      | number d => cases hactual.trans hk
      | text stored =>
        have hcomparison : comparison f op (.text s) = (.glob f, .text (patternOf op s)) := by
          unfold comparison
          rw [htext]
        rw [hcomparison, holds_text htext, ← globMatches_patternOf htext hplain hstored]
        change some (globMatches _ (row f).globText, rest) = _
        rw [hrow]
        rfl

theorem any_order_eq {vs : List Value} {actual : Value} (hvs : ∀ v ∈ vs, v.kind = actual.kind) :
    ((vs.map paramOf).any fun p => (paramOf actual).cell.order p.cell == .eq) =
      vs.any fun v => actual.order? v == some .eq := by
  induction vs with
  | nil => rfl
  | cons v vs ih =>
    have hone := order_cell (hvs v (List.mem_cons_self ..)).symm
    rw [List.map_cons, List.any_cons, List.any_cons, hone,
      ih fun w hw => hvs w (List.mem_cons_of_mem _ hw)]
    rfl

/-- The condition of a filter takes its own values and leaves the others. -/
theorem eval_conditionOf {l : Listing} {row : Field → Cell}
    (hrow : ∀ f, row f = (paramOf (l.value f)).cell) (hstored : ∀ f, (l.value f).Plain)
    {n : Filter} (hn : n.WellTyped) (hplain : ∀ v ∈ n.values, v.Plain) (rest : List Param) :
    (conditionOf n).eval row (paramsOf n ++ rest) = some (n.selects l, rest) := by
  induction n generalizing rest with
  | compare f op v =>
    exact eval_comparison (hrow f) (l.kind_value f) hn.1 hn.2
      (hplain v (List.mem_singleton_self v)) (hstored f) rest
  | isIn f vs =>
    have hlen : (vs.map paramOf).length = vs.length := List.length_map _
    have hkinds : ∀ v ∈ vs, v.kind = (l.value f).kind := fun v hv =>
      (hn.2 v hv).trans (l.kind_value f).symm
    rw [conditionOf, paramsOf, Condition.eval, if_neg (by rw [List.length_append, hlen]; omega),
      List.take_left' hlen, List.drop_left' hlen, hrow, any_order_eq hkinds]
    rfl
  | and a b iha ihb =>
    have ha := iha hn.1 fun v hv => hplain v (List.mem_append_left _ hv)
    have hb := ihb hn.2 fun v hv => hplain v (List.mem_append_right _ hv)
    rw [conditionOf, paramsOf, List.append_assoc, Condition.eval, ha]
    change ((conditionOf b).eval row (paramsOf b ++ rest)).bind _ = _
    rw [hb]
    rfl
  | or a b iha ihb =>
    have ha := iha hn.1 fun v hv => hplain v (List.mem_append_left _ hv)
    have hb := ihb hn.2 fun v hv => hplain v (List.mem_append_right _ hv)
    rw [conditionOf, paramsOf, List.append_assoc, Condition.eval, ha]
    change ((conditionOf b).eval row (paramsOf b ++ rest)).bind _ = _
    rw [hb]
    rfl
  | not n ih =>
    have h := ih hn hplain rest
    rw [conditionOf, paramsOf, Condition.eval, h]
    rfl

end Query

namespace Ledger

theorem cell_of_undamaged {row : RevisionRow} (h : row.damage = []) (f : Field) :
    row.cell f = (Query.paramOf (row.revision.listing.value f)).cell := by
  simp [RevisionRow.cell, h]

theorem mem_select_iff (l : Ledger) (filter : Option Filter) (clauses : List SortClause)
    (s : Stored) : s ∈ l.select filter clauses ↔ s ∈ l.active ∧ selects filter s = true :=
  List.mem_mergeSort.trans List.mem_filter

theorem selects_eq {n : Filter} (hn : n.WellTyped) (hplain : ∀ v ∈ n.values, v.Plain) {s : Stored}
    (hs : s.row.damage = []) (hstored : ∀ f, (s.row.revision.listing.value f).Plain) :
    selects (some n) s = n.selects s.row.revision.listing := by
  have h := Query.eval_conditionOf (cell_of_undamaged hs) hstored hn hplain []
  rw [List.append_nil] at h
  change ((Query.conditionOf n).eval s.row.cell (Query.paramsOf n) == some (true, [])) = _
  rw [h]
  cases n.selects s.row.revision.listing <;> rfl

/-- An active offer is selected exactly when the filter selects its listing, and it is selected with its
latest revision. -/
theorem Reachable.selected_iff {l : Ledger} (hl : l.Reachable) {input : String} {n : Filter}
    (hn : Filter.parse input = .ok n) (hplain : ∀ v ∈ n.values, v.Plain)
    (clauses : List SortClause) {id : SourceId} {r : Revision} (hactive : l.view.isActive id = true)
    (hr : l.view.latest? id = some r) (hstored : ∀ f, (r.listing.value f).Plain) :
    (id ∈ (l.select (some n) clauses).map (·.head.sourceId) ↔ n.selects r.listing = true) ∧
      ∀ s ∈ l.select (some n) clauses, s.head.sourceId = id → s.row.revision = r := by
  have hs := hl.sound
  have hlatest : ∀ s ∈ l.active, s.head.sourceId = id → s.row.revision = r := by
    rintro s hm rfl
    have h := latest?_stored ((hs.mem_active_iff s).mp hm).2.2
    rw [hr] at h
    exact (Option.some.inj h).symm
  have hselects : ∀ s ∈ l.active, s.head.sourceId = id →
      selects (some n) s = n.selects r.listing := by
    intro s hm hid
    have hrow := hlatest s hm hid
    rw [← hrow] at hstored ⊢
    exact selects_eq (Filter.wellTyped_of_parse hn) hplain
      (hs.undamaged_stored ((hs.mem_active_iff s).mp hm).2.2) hstored
  refine ⟨?_, fun s hm => hlatest s ((mem_select_iff _ _ _ _).mp hm).1⟩
  rw [List.mem_map]
  constructor
  · rintro ⟨s, hm, hid⟩
    obtain ⟨hm, hsel⟩ := (mem_select_iff _ _ _ _).mp hm
    rwa [hselects s hm hid] at hsel
  · intro hsel
    obtain ⟨s, hm, hid, hrow, -⟩ := hs.exists_stored hr
    have hmem : s ∈ l.active := by
      refine (hs.mem_active_iff s).mpr ⟨hm, ?_, hrow⟩
      rw [← hs.isActive_stored hm, hid]
      exact hactive
    exact ⟨s, (mem_select_iff _ _ _ _).mpr ⟨hmem, (hselects s hmem hid).trans hsel⟩, hid⟩

/-- A star in a filter text is a star in the stored text. -/
theorem selected_by_star :
    "a" ∈ (select (repository ⟨⟨5⟩, []⟩
        (.append [⟨{ sourceId := "a", uf := "SP", city := "S*o" }, 1, .insert⟩] 1)
        ⟨[⟨1, "SP", none, ⟨0⟩, none⟩], [], []⟩).2
      (some (.compare .city .contains (.text "*"))) []).map (·.head.sourceId) := by
  have hbatch : Reachable ⟨[⟨1, "SP", none, ⟨0⟩, none⟩], [], []⟩ :=
    .startBatch (c := ⟨⟨0⟩, []⟩) .empty rfl
  have hlive : Call.Live
      (.append [⟨{ sourceId := "a", uf := "SP", city := "S*o" }, 1, .insert⟩] 1) := by decide
  have hl := hbatch.call ⟨⟨5⟩, []⟩ hlive
  exact (hl.selected_iff (n := .compare .city .contains (.text "*"))
    (r := ⟨1, .insert, 1, { sourceId := "a", uf := "SP", city := "S*o" }⟩)
    (show Filter.parse "city contains '*'" = _ from rfl) (by decide) [] (by decide)
    (by decide) (by intro f; cases f <;> decide)).1.mpr (by decide)

end Ledger
end OfferLedger
