import OfferLedger.Proofs.Query.Selection
import OfferLedger.Proofs.Text.Utf8
import OfferLedger.Proofs.Timestamp
import Mathlib.Data.String.Basic
import Mathlib.Order.Compare

/-! # The order of the current offers

Sort clauses order stored offers by comparing cells, and no two offers with different source ids are
equal in that order. What a cell compares as is said here of the offers that are shown: a text by its
bytes and a number by its value. A moment is kept as a text, which compares as the moment does among the
years 0 to 9999. -/
namespace OfferLedger

inductive SortKey where
  | text (bytes : List UInt8)
  | number (n : Int)
  deriving DecidableEq, Repr

def SortKey.Less : SortKey → SortKey → Prop
  | .text a, .text b => a < b
  | .number a, .number b => a < b
  | _, _ => False

instance : DecidableRel SortKey.Less
  | .text a, .text b => inferInstanceAs (Decidable (a < b))
  | .number a, .number b => inferInstanceAs (Decidable (a < b))
  | .text _, .number _ | .number _, .text _ => .isFalse id

def Value.sortKey : Value → SortKey
  | .text s => .text (Text.utf8 s)
  | .number d => .number d.micros

/-- What a sort clause means of an offer: a moment by its time. -/
def CurrentOffer.sortKey (o : CurrentOffer) : SortField → SortKey
  | .field f => (o.listing.value f).sortKey
  | .createdAt => .number o.createdAt.nanos

/-- What a sort clause sees of an offer in the ledger: a moment by its text. -/
def CurrentOffer.storedKey (o : CurrentOffer) : SortField → SortKey
  | .field f => (o.listing.value f).sortKey
  | .createdAt => .text (Text.utf8 (toString o.createdAt))

namespace SortClause

variable (key : CurrentOffer → SortField → SortKey)

def Before (c : SortClause) (a b : CurrentOffer) : Prop :=
  match c.direction with
  | .asc => SortKey.Less (key a c.field) (key b c.field)
  | .desc => SortKey.Less (key b c.field) (key a c.field)

/-- The first clause that tells two offers apart orders them, and if none does their source ids. -/
def Precedes : List SortClause → CurrentOffer → CurrentOffer → Prop
  | [], a, b => Text.utf8 a.listing.sourceId < Text.utf8 b.listing.sourceId
  | c :: rest, a, b => c.Before key a b ∨ key a c.field = key b c.field ∧ Precedes rest a b

instance : (c : SortClause) → DecidableRel (c.Before key)
  | ⟨field, .asc⟩, a, b => inferInstanceAs (Decidable (SortKey.Less (key a field) (key b field)))
  | ⟨field, .desc⟩, a, b => inferInstanceAs (Decidable (SortKey.Less (key b field) (key a field)))

instance decidablePrecedes : (clauses : List SortClause) → DecidableRel (Precedes key clauses)
  | [], a, b => inferInstanceAs
    (Decidable (Text.utf8 a.listing.sourceId < Text.utf8 b.listing.sourceId))
  | c :: rest, a, b =>
    have := decidablePrecedes rest a b
    inferInstanceAs (Decidable (c.Before key a b ∨
      key a c.field = key b c.field ∧ Precedes key rest a b))

end SortClause

theorem SortKey.less_irrefl (a : SortKey) : ¬ SortKey.Less a a := by
  cases a with
  | text s => exact List.lt_irrefl s
  | number n => exact Int.lt_irrefl n

theorem SortKey.less_trans {a b c : SortKey} (hab : SortKey.Less a b) (hbc : SortKey.Less b c) :
    SortKey.Less a c :=
  match a, b, c with
  | .text _, .text _, .text _ => List.lt_trans hab hbc
  | .number _, .number _, .number _ => Int.lt_trans hab hbc

namespace SortClause

variable {key : CurrentOffer → SortField → SortKey}

theorem before_irrefl (c : SortClause) (a : CurrentOffer) : ¬ c.Before key a a := by
  unfold Before
  cases c.direction <;> apply SortKey.less_irrefl

theorem before_trans {clause : SortClause} {a b c : CurrentOffer} (hab : clause.Before key a b)
    (hbc : clause.Before key b c) : clause.Before key a c := by
  unfold Before at hab hbc ⊢
  cases h : clause.direction with
  | asc =>
    rw [h] at hab hbc
    exact SortKey.less_trans hab hbc
  | desc =>
    rw [h] at hab hbc
    exact SortKey.less_trans hbc hab

theorem before_congr {clause : SortClause} {a b c : CurrentOffer}
    (h : key a clause.field = key b clause.field) :
    (clause.Before key a c ↔ clause.Before key b c) ∧
      (clause.Before key c a ↔ clause.Before key c b) := by
  simp [Before, h]

theorem precedes_irrefl (clauses : List SortClause) (a : CurrentOffer) :
    ¬ Precedes key clauses a a := by
  induction clauses with
  | nil => exact List.lt_irrefl _
  | cons c rest ih =>
    rintro (h | ⟨-, h⟩)
    · exact before_irrefl c a h
    · exact ih h

theorem precedes_trans {clauses : List SortClause} {a b c : CurrentOffer}
    (hab : Precedes key clauses a b) (hbc : Precedes key clauses b c) :
    Precedes key clauses a c := by
  induction clauses with
  | nil => exact List.lt_trans hab hbc
  | cons clause rest ih =>
    rcases hab with hab | ⟨hk, hab⟩
    · rcases hbc with hbc | ⟨hk', -⟩
      · exact .inl (before_trans hab hbc)
      · exact .inl ((before_congr hk').2.mp hab)
    · rcases hbc with hbc | ⟨hk', hbc⟩
      · exact .inl ((before_congr hk).1.mpr hbc)
      · exact .inr ⟨hk.trans hk', ih hab hbc⟩

instance (clauses : List SortClause) : IsStrictOrder CurrentOffer (Precedes key clauses) where
  irrefl := precedes_irrefl clauses
  trans _ _ _ := precedes_trans

section

variable {a b : CurrentOffer} (ha : a.createdAt.PlainYear) (hb : b.createdAt.PlainYear)
include ha hb

theorem less_storedKey_iff (field : SortField) :
    SortKey.Less (a.storedKey field) (b.storedKey field) ↔
      SortKey.Less (a.sortKey field) (b.sortKey field) := by
  cases field with
  | field f => exact Iff.rfl
  | createdAt =>
    change Text.utf8 _ < Text.utf8 _ ↔ a.createdAt.nanos < b.createdAt.nanos
    rw [Text.utf8_lt_iff, ← compare_lt_iff_lt, ← compare_lt_iff_lt, ← Timestamp.textOrder_eq ha hb,
      Timestamp.textOrder]

theorem storedKey_eq_iff (field : SortField) :
    a.storedKey field = b.storedKey field ↔ a.sortKey field = b.sortKey field := by
  cases field with
  | field f => exact Iff.rfl
  | createdAt =>
    change SortKey.text _ = SortKey.text _ ↔ SortKey.number _ = SortKey.number _
    have horder := Timestamp.textOrder_eq ha hb
    unfold Timestamp.textOrder at horder
    rw [SortKey.text.injEq, SortKey.number.injEq, Text.utf8_inj]
    constructor
    · intro h
      rw [compare_eq_iff_eq.mpr h] at horder
      exact compare_eq_iff_eq.mp horder.symm
    · intro h
      rw [h, compare_eq_iff_eq.mpr rfl] at horder
      exact compare_eq_iff_eq.mp horder

/-- Where the years have no sign, the order of the texts of moments is the order in time. -/
theorem precedes_storedKey_iff (clauses : List SortClause) :
    Precedes CurrentOffer.storedKey clauses a b ↔ Precedes CurrentOffer.sortKey clauses a b := by
  induction clauses with
  | nil => exact Iff.rfl
  | cons c rest ih =>
    have hbefore : c.Before CurrentOffer.storedKey a b ↔ c.Before CurrentOffer.sortKey a b := by
      unfold Before
      cases c.direction with
      | asc => exact less_storedKey_iff ha hb c.field
      | desc => exact less_storedKey_iff hb ha c.field
    exact or_congr hbefore (and_congr (storedKey_eq_iff ha hb c.field) ih)

end
end SortClause

/-- A stored offer as it is shown when nothing in it is damaged. -/
def Stored.shown (s : Stored) : CurrentOffer :=
  ⟨s.row.version, s.row.revision.listing, s.head.firstSeen, s.head.lastSeen⟩

theorem Stored.read_of_undamaged {s : Stored} (h : s.row.damage = []) : s.read = .ok s.shown := by
  rw [Stored.read, s.row.readListing_of_sound 2 h]
  rfl

namespace Query

theorem order_integer (m n : Int) : (Cell.integer m).order (.integer n) = compare m n := rfl

theorem order_text (s t : String) : (Cell.text s).order (.text t) = compare s t := rfl

instance : Std.TransCmp Cell.order where
  eq_swap {a b} := by
    cases a <;> cases b <;> try rfl
    · rw [order_integer, order_integer]
      exact Std.OrientedOrd.eq_swap
    · rw [order_text, order_text]
      exact Std.OrientedOrd.eq_swap
  isLE_trans {a b c} hab hbc :=
    match a, b, c with
    | .integer m, .integer n, .integer k =>
      have h : (compare m k).isLE := Std.TransOrd.isLE_trans hab hbc
      h
    | .text s, .text t, .text u =>
      have h : (compare s u).isLE := Std.TransOrd.isLE_trans hab hbc
      h
    | .integer _, _, .text _ | .integer _, _, .blob | .text _, _, .blob => rfl
    | .blob, .blob, _ => hbc

theorem order_cell_eq_lt {a b : Value} (h : a.kind = b.kind) :
    (paramOf a).cell.order (paramOf b).cell = .lt ↔ SortKey.Less a.sortKey b.sortKey := by
  cases a with
  | text s =>
    cases b with
    | text t => exact (compareOfLessAndEq_eq_lt).trans (Text.utf8_lt_iff s t).symm
    | number e => cases h
  | number d =>
    cases b with
    | text t => cases h
    | number e => exact Int.compare_eq_lt

theorem order_cell_eq_eq {a b : Value} (h : a.kind = b.kind) :
    (paramOf a).cell.order (paramOf b).cell = .eq ↔ a.sortKey = b.sortKey := by
  cases a with
  | text s =>
    cases b with
    | text t =>
      change compare s t = .eq ↔ SortKey.text _ = SortKey.text _
      rw [compare_eq_iff_eq, SortKey.text.injEq, Text.utf8_inj]
    | number e => cases h
  | number d =>
    cases b with
    | text t => cases h
    | number e =>
      change compare d.micros e.micros = .eq ↔ SortKey.number _ = SortKey.number _
      rw [compare_eq_iff_eq, SortKey.number.injEq]

end Query

namespace SortClause

variable {α β : Type}

theorem transCmp_on (cmp : β → β → Ordering) [Std.TransCmp cmp] (f : α → β) :
    Std.TransCmp fun a b => cmp (f a) (f b) where
  eq_swap := Std.OrientedCmp.eq_swap
  isLE_trans := Std.TransCmp.isLE_trans

theorem transCmp_swap {cmp : α → α → Ordering} (h : Std.TransCmp cmp) :
    Std.TransCmp fun a b => (cmp a b).swap := by
  have heq : (fun a b => (cmp a b).swap) = fun a b => cmp b a :=
    funext₂ fun _ _ => Std.OrientedCmp.eq_swap.symm
  rw [heq]
  exact Std.TransCmp.opposite

instance (c : SortClause) : Std.TransCmp c.compareStored := by
  obtain ⟨field, direction⟩ := c
  have hasc : Std.TransCmp (compareStored ⟨field, .asc⟩) := by
    cases field with
    | field f => exact transCmp_on Query.Cell.order fun s : Stored => s.row.cell f
    | createdAt =>
      exact transCmp_on (compare : String → String → _) fun s : Stored => toString s.head.firstSeen
  cases direction with
  | asc => exact hasc
  | desc => exact transCmp_swap hasc

def orderThen (clauses : List SortClause) (a b : Stored) : Ordering :=
  clauses.foldr (fun c rest => (c.compareStored a b).then rest)
    (compareOfLessAndEq a.head.sourceId b.head.sourceId)

theorem orderStored_eq (clauses : List SortClause) :
    orderStored clauses = orderThen (orNewest clauses) := rfl

instance (clauses : List SortClause) : Std.TransCmp (orderThen clauses) := by
  induction clauses with
  | nil => exact transCmp_on (compare : String → String → _) fun s : Stored => s.head.sourceId
  | cons c rest ih =>
    exact inferInstanceAs (Std.TransCmp (compareLex c.compareStored (orderThen rest)))

theorem isLE_orderThen_total (clauses : List SortClause) (a b : Stored) :
    ((orderThen clauses a b).isLE || (orderThen clauses b a).isLE) = true := by
  have h : orderThen clauses b a = (orderThen clauses a b).swap := Std.OrientedCmp.eq_swap
  rw [h]
  cases orderThen clauses a b <;> rfl

theorem compareStored_desc (field : SortField) (a b : Stored) :
    compareStored ⟨field, .desc⟩ a b = compareStored ⟨field, .asc⟩ b a := by
  change (compareStored ⟨field, .asc⟩ a b).swap = _
  exact Std.OrientedCmp.eq_swap.symm

section

variable {a b : Stored} (ha : a.row.damage = []) (hb : b.row.damage = [])
include ha hb

theorem compareAsc_eq_lt (field : SortField) :
    compareStored ⟨field, .asc⟩ a b = .lt ↔
      SortKey.Less (a.shown.storedKey field) (b.shown.storedKey field) := by
  cases field with
  | field f =>
    change (a.row.cell f).order (b.row.cell f) = .lt ↔ _
    rw [Ledger.cell_of_undamaged ha, Ledger.cell_of_undamaged hb]
    exact Query.order_cell_eq_lt ((Listing.kind_value ..).trans (Listing.kind_value ..).symm)
  | createdAt =>
    change Timestamp.textOrder _ _ = .lt ↔ Text.utf8 _ < Text.utf8 _
    rw [Timestamp.textOrder, compare_lt_iff_lt, Text.utf8_lt_iff]
    rfl

theorem compareAsc_eq_eq (field : SortField) :
    compareStored ⟨field, .asc⟩ a b = .eq ↔
      a.shown.storedKey field = b.shown.storedKey field := by
  cases field with
  | field f =>
    change (a.row.cell f).order (b.row.cell f) = .eq ↔ _
    rw [Ledger.cell_of_undamaged ha, Ledger.cell_of_undamaged hb]
    exact Query.order_cell_eq_eq ((Listing.kind_value ..).trans (Listing.kind_value ..).symm)
  | createdAt =>
    change Timestamp.textOrder _ _ = .eq ↔ SortKey.text _ = SortKey.text _
    rw [Timestamp.textOrder, compare_eq_iff_eq, SortKey.text.injEq, Text.utf8_inj]
    rfl

theorem compareStored_eq_lt (c : SortClause) :
    c.compareStored a b = .lt ↔ c.Before CurrentOffer.storedKey a.shown b.shown := by
  obtain ⟨field, direction⟩ := c
  cases direction with
  | asc => exact compareAsc_eq_lt ha hb field
  | desc =>
    rw [compareStored_desc]
    exact compareAsc_eq_lt hb ha field

theorem compareStored_eq_eq (c : SortClause) :
    c.compareStored a b = .eq ↔ a.shown.storedKey c.field = b.shown.storedKey c.field := by
  obtain ⟨field, direction⟩ := c
  cases direction with
  | asc => exact compareAsc_eq_eq ha hb field
  | desc =>
    rw [compareStored_desc]
    exact (compareAsc_eq_eq hb ha field).trans eq_comm

theorem orderThen_eq_lt (hida : a.row.revision.listing.sourceId = a.head.sourceId)
    (hidb : b.row.revision.listing.sourceId = b.head.sourceId) (clauses : List SortClause) :
    orderThen clauses a b = .lt ↔ Precedes CurrentOffer.storedKey clauses a.shown b.shown := by
  induction clauses with
  | nil =>
    change compare a.head.sourceId b.head.sourceId = .lt ↔
      Text.utf8 a.row.revision.listing.sourceId < Text.utf8 b.row.revision.listing.sourceId
    rw [hida, hidb, compare_lt_iff_lt, Text.utf8_lt_iff]
  | cons c rest ih =>
    change (c.compareStored a b).then (orderThen rest a b) = .lt ↔ _ ∨ _
    rw [Ordering.then_eq_lt, compareStored_eq_lt ha hb, compareStored_eq_eq ha hb, ih]

end

theorem sourceId_of_orderThen {clauses : List SortClause} {a b : Stored}
    (h : orderThen clauses a b = .eq) : a.head.sourceId = b.head.sourceId := by
  induction clauses with
  | nil =>
    change compare a.head.sourceId b.head.sourceId = .eq at h
    exact compare_eq_iff_eq.mp h
  | cons c rest ih =>
    change (c.compareStored a b).then (orderThen rest a b) = .eq at h
    exact ih (Ordering.then_eq_eq.mp h).2

theorem orderThen_of_tie {c : SortClause} {a b : Stored} (h : c.compareStored a b = .eq)
    (before after : List SortClause) :
    orderThen (before ++ c :: after) a b = orderThen (before ++ after) a b := by
  induction before with
  | nil =>
    change (c.compareStored a b).then (orderThen after a b) = _
    rw [h]
    rfl
  | cons d rest ih =>
    change (d.compareStored a b).then (orderThen (rest ++ c :: after) a b) = _
    rw [ih]
    rfl

theorem tie_of_field {c d : SortClause} (hfield : d.field = c.field) {a b : Stored}
    (h : d.compareStored a b = .eq) : c.compareStored a b = .eq := by
  obtain ⟨field, direction⟩ := c
  obtain ⟨field', direction'⟩ := d
  obtain rfl : field' = field := hfield
  have hasc : compareStored ⟨field', .asc⟩ a b = .eq := by
    cases direction' with
    | asc => exact h
    | desc => exact Ordering.swap_eq_eq.mp h
  cases direction with
  | asc => exact hasc
  | desc => exact Ordering.swap_eq_eq.mpr hasc

theorem orderThen_of_repeated {c d : SortClause} {before : List SortClause} (hd : d ∈ before)
    (hfield : d.field = c.field) (after : List SortClause) (a b : Stored) :
    orderThen (before ++ c :: after) a b = orderThen (before ++ after) a b := by
  induction before with
  | nil => cases hd
  | cons e rest ih =>
    change (e.compareStored a b).then (orderThen (rest ++ c :: after) a b) =
      (e.compareStored a b).then (orderThen (rest ++ after) a b)
    rcases List.mem_cons.mp hd with rfl | hd
    · cases h : d.compareStored a b with
      | lt | gt => rfl
      | eq => exact congrArg _ (orderThen_of_tie (tie_of_field hfield h) rest after)
    · rw [ih hd]

end SortClause
end OfferLedger
