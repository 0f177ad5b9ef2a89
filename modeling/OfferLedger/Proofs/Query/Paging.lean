import OfferLedger.Proofs.Ledger.Heads
import OfferLedger.Proofs.Query.Order

/-! # Paging through the current offers

Behind every page of a query stands one list: the active offers that the filter admits, in the order of
the clauses. Its order is strict, so a page is the same slice of it whenever it is asked for, and pages
that follow one another miss no offer and repeat none. -/
namespace OfferLedger

/-- Whether the condition of a filter is true on the columns of a listing. Without a filter every
listing is admitted. -/
def Filter.admits (filter : Option Filter) (l : Listing) : Bool :=
  filter.all fun n =>
    (Query.conditionOf n).holds (Query.paramsOf n) fun f => (Query.paramOf (l.value f)).cell

theorem Filter.admits_eq_selects {n : Filter} (hn : n.WellTyped) (hplain : ∀ v ∈ n.values, v.Plain)
    {l : Listing} (hl : ∀ f, (l.value f).Plain) : Filter.admits (some n) l = n.selects l := by
  have h := Query.eval_conditionOf (fun _ => rfl) hl hn hplain []
  rw [List.append_nil] at h
  change ((Query.conditionOf n).eval _ (Query.paramsOf n) == some (true, [])) = _
  rw [h]
  cases n.selects l <;> rfl

namespace Ledger

/-- An active offer with its latest revision, the time of its first one, and the time at which it was
last seen. -/
structure Shows (l : Ledger) (o : CurrentOffer) : Prop where
  active : l.view.isActive o.listing.sourceId = true
  latest : ∃ r, l.view.latest? o.listing.sourceId = some r ∧ r.version = o.version ∧
    r.listing = o.listing
  firstSeen : (l.history o.listing.sourceId).head?.map (·.recordedAt) = some o.createdAt
  lastSeen : (l.head? o.listing.sourceId).map (·.lastSeen) = some o.lastSeenAt

section

variable {l : Ledger} (hs : l.Sound)
include hs

theorem Sound.sourceId_active {s : Stored} (hm : s ∈ l.active) :
    s.row.revision.listing.sourceId = s.head.sourceId :=
  hs.sourceId_stored ((hs.mem_active_iff s).mp hm).2.2

theorem Sound.undamaged_active {s : Stored} (hm : s ∈ l.active) : s.row.damage = [] :=
  hs.undamaged_stored ((hs.mem_active_iff s).mp hm).2.2

theorem Sound.shows_iff (o : CurrentOffer) : l.Shows o ↔ ∃ s ∈ l.active, s.shown = o := by
  constructor
  · rintro ⟨hactive, ⟨r, hr, hv, hlisting⟩, hfirst, hlast⟩
    obtain ⟨s, hm, hid, hrow, rfl⟩ := hs.exists_stored hr
    rw [← hid] at hactive hfirst hlast
    have hh := head?_of_mem hs.nodup hm
    refine ⟨s, (hs.mem_active_iff s).mpr ⟨hm, ?_, hrow⟩, ?_⟩
    · rwa [← hs.isActive_stored hm]
    · rw [← hs.first, hh] at hfirst
      rw [hh] at hlast
      obtain ⟨version, listing, createdAt, lastSeenAt⟩ := o
      obtain rfl := hv
      obtain rfl := hlisting
      obtain rfl := Option.some.inj hfirst
      obtain rfl := Option.some.inj hlast
      rfl
  · rintro ⟨s, hm, rfl⟩
    have hid : s.shown.listing.sourceId = s.head.sourceId := hs.sourceId_active hm
    obtain ⟨hmem, hactive, hrow⟩ := (hs.mem_active_iff s).mp hm
    have hh := head?_of_mem hs.nodup hmem
    refine ⟨?_, ⟨s.row.revision, ?_, rfl, rfl⟩, ?_, ?_⟩
    · rwa [hid, hs.isActive_stored hmem]
    · rw [hid]
      exact latest?_stored hrow
    · rw [hid, ← hs.first, hh]
      rfl
    · rw [hid, hh]
      rfl

theorem Sound.mem_shown_select_iff (filter : Option Filter) (clauses : List SortClause)
    (o : CurrentOffer) : o ∈ (l.select filter clauses).map Stored.shown ↔
      l.Shows o ∧ Filter.admits filter o.listing = true := by
  have hselects : ∀ s ∈ l.active, selects filter s = Filter.admits filter s.shown.listing := by
    intro s hm
    cases filter with
    | none => rfl
    | some n =>
      have hrow : s.row.cell = fun f => (Query.paramOf (s.shown.listing.value f)).cell :=
        funext (cell_of_undamaged (hs.undamaged_active hm))
      change (Query.conditionOf n).holds (Query.paramsOf n) s.row.cell = _
      rw [hrow]
      rfl
  rw [List.mem_map, hs.shows_iff]
  constructor
  · rintro ⟨s, hm, rfl⟩
    obtain ⟨hm, hsel⟩ := (mem_select_iff ..).mp hm
    exact ⟨⟨s, hm, rfl⟩, hselects s hm ▸ hsel⟩
  · rintro ⟨⟨s, hm, rfl⟩, hadmits⟩
    exact ⟨s, (mem_select_iff ..).mpr ⟨hm, (hselects s hm).trans hadmits⟩, rfl⟩

theorem Sound.nodup_select (filter : Option Filter) (clauses : List SortClause) :
    ((l.select filter clauses).map (·.head.sourceId)).Nodup :=
  ((List.mergeSort_perm _ _).map _).nodup_iff.mpr
    (hs.nodup_shown.sublist (List.filter_sublist.map _))

theorem Sound.pairwise_select (filter : Option Filter) (clauses : List SortClause) :
    ((l.select filter clauses).map Stored.shown).Pairwise
      (SortClause.Precedes CurrentOffer.storedKey (SortClause.orNewest clauses)) := by
  have hle : (l.select filter clauses).Pairwise fun a b =>
      (SortClause.orderThen (SortClause.orNewest clauses) a b).isLE :=
    List.pairwise_mergeSort (fun _ _ _ => Std.TransCmp.isLE_trans)
      (SortClause.isLE_orderThen_total _) _
  have hne := List.pairwise_map.mp (List.nodup_iff_pairwise_ne.mp (hs.nodup_select filter clauses))
  refine List.pairwise_map.mpr ((hle.and hne).imp_of_mem fun {a b} ha hb h => ?_)
  have hm := ((mem_select_iff ..).mp ha).1
  have hm' := ((mem_select_iff ..).mp hb).1
  rw [← SortClause.orderThen_eq_lt (hs.undamaged_active hm) (hs.undamaged_active hm')
    (hs.sourceId_active hm) (hs.sourceId_active hm')]
  cases horder : SortClause.orderThen (SortClause.orNewest clauses) a b with
  | lt => rfl
  | eq => exact absurd (SortClause.sourceId_of_orderThen horder) h.2
  | gt =>
    rw [horder] at h
    cases h.1

theorem Sound.query_eq (filter : Option Filter) (clauses : List SortClause) (limit offset : Nat) :
    l.query filter clauses limit offset =
      .ok ((((l.select filter clauses).map Stored.shown).drop offset).take limit) := by
  rw [← List.map_drop, ← List.map_take]
  refine mapM_eq_ok fun s hm => Stored.read_of_undamaged (hs.undamaged_active ?_)
  exact ((mem_select_iff ..).mp (List.mem_of_mem_drop (List.mem_of_mem_take hm))).1

end

theorem query_of_repeated (l : Ledger) (filter : Option Filter) {before after : List SortClause}
    {c d : SortClause} (hd : d ∈ before) (hfield : d.field = c.field) (limit offset : Nat) :
    l.query filter (before ++ c :: after) limit offset =
      l.query filter (before ++ after) limit offset := by
  have horder : SortClause.orderStored (before ++ c :: after) =
      SortClause.orderStored (before ++ after) := by
    have hne : before ≠ [] := List.ne_nil_of_mem hd
    funext a b
    rw [SortClause.orderStored_eq, SortClause.orderStored_eq, SortClause.orNewest,
      SortClause.orNewest, if_neg (by simp), if_neg (by simp [hne])]
    exact SortClause.orderThen_of_repeated hd hfield after a b
  rw [query, query, select, select, horder]

theorem flatten_slices {α : Type} (xs : List α) (limit count : Nat) :
    ((List.range count).map fun k => (xs.drop (k * limit)).take limit).flatten =
      xs.take (count * limit) := by
  induction count with
  | zero => simp
  | succ count ih =>
    rw [List.range_succ, List.map_append, List.flatten_append, ih, Nat.add_mul, Nat.one_mul,
      List.take_add]
    simp

theorem exists_slices {α : Type} (xs : List α) {limit : Nat} (hlimit : 1 ≤ limit) :
    ∃ slices : List (List α), slices.flatten = xs ∧
      ∀ k, slices.getD k [] = (xs.drop (k * limit)).take limit := by
  have hlen : xs.length ≤ xs.length * limit := Nat.le_mul_of_pos_right _ hlimit
  refine ⟨(List.range xs.length).map fun k => (xs.drop (k * limit)).take limit, ?_, fun k => ?_⟩
  · rw [flatten_slices, List.take_of_length_le hlen]
  · rcases Nat.lt_or_ge k xs.length with hk | hk
    · simp [List.getD_eq_getElem?_getD, hk]
    · have hdrop : xs.length ≤ k * limit := hlen.trans (Nat.mul_le_mul_right _ hk)
      simp [List.getD_eq_getElem?_getD, hk, List.drop_eq_nil_of_le hdrop]

/-- What stands behind the pages of a query: a list that holds every active offer which the filter admits
once, in the strict order of the clauses and the source ids. A page is a slice of it, the pages of one size
make it up, and a clause on the field of an earlier clause makes no difference to it. -/
structure Pages (l : Ledger) (filter : Option Filter) (clauses : List SortClause)
    (offers : List CurrentOffer) : Prop where
  mem_iff : ∀ o, o ∈ offers ↔ l.Shows o ∧ Filter.admits filter o.listing = true
  selected : ∀ input n, filter = some n → Filter.parse input = .ok n → (∀ v ∈ n.values, v.Plain) →
    ∀ o, (∀ f, (o.listing.value f).Plain) → (o ∈ offers ↔ l.Shows o ∧ n.selects o.listing = true)
  once : (offers.map (·.listing.sourceId)).Nodup
  strict : ∀ key, IsStrictOrder CurrentOffer (SortClause.Precedes key (SortClause.orNewest clauses))
  ordered : offers.Pairwise
    (SortClause.Precedes CurrentOffer.storedKey (SortClause.orNewest clauses))
  inTime : (∀ o ∈ offers, o.createdAt.PlainYear) →
    offers.Pairwise (SortClause.Precedes CurrentOffer.sortKey (SortClause.orNewest clauses))
  page : ∀ limit offset, l.query filter clauses limit offset = .ok ((offers.drop offset).take limit)
  pages : ∀ limit, 1 ≤ limit → ∃ pages : List (List CurrentOffer), pages.flatten = offers ∧
    ∀ k, l.query filter clauses limit (k * limit) = .ok (pages.getD k [])
  repeated : ∀ before after c d, clauses = before ++ c :: after → d ∈ before → d.field = c.field →
    ∀ limit offset, l.query filter (before ++ after) limit offset =
      .ok ((offers.drop offset).take limit)

theorem Pages.eq_of_ordered {l : Ledger} {filter : Option Filter} {clauses : List SortClause}
    {offers other : List CurrentOffer} (h : l.Pages filter clauses offers)
    (hother : other.Pairwise
      (SortClause.Precedes CurrentOffer.storedKey (SortClause.orNewest clauses)))
    (hmem : ∀ o, o ∈ offers ↔ o ∈ other) : offers = other := by
  have := h.strict CurrentOffer.storedKey
  exact h.ordered.eq_of_mem_iff hother hmem

theorem Reachable.exists_pages {l : Ledger} (hl : l.Reachable) (filter : Option Filter)
    (clauses : List SortClause) : ∃ offers, l.Pages filter clauses offers := by
  have hs := hl.sound
  have hordered := hs.pairwise_select filter clauses
  refine ⟨(l.select filter clauses).map Stored.shown, hs.mem_shown_select_iff filter clauses, ?_, ?_,
    fun key => inferInstance, hordered, ?_, hs.query_eq filter clauses, ?_, ?_⟩
  · rintro input n rfl hn hplain o ho
    rw [hs.mem_shown_select_iff, Filter.admits_eq_selects (Filter.wellTyped_of_parse hn) hplain ho]
  · have hids : ((l.select filter clauses).map Stored.shown).map (·.listing.sourceId) =
        (l.select filter clauses).map (·.head.sourceId) := by
      rw [List.map_map]
      exact List.map_congr_left fun s hm => hs.sourceId_active ((mem_select_iff ..).mp hm).1
    rw [hids]
    exact hs.nodup_select filter clauses
  · intro hplain
    apply hordered.imp_of_mem
    intro a b ha hb h
    exact (SortClause.precedes_storedKey_iff (hplain a ha) (hplain b hb) _).mp h
  · intro limit hlimit
    obtain ⟨pages, hflatten, hpage⟩ :=
      exists_slices ((l.select filter clauses).map Stored.shown) hlimit
    refine ⟨pages, hflatten, fun k => ?_⟩
    rw [hs.query_eq, hpage]
  · rintro before after c d rfl hd hfield limit offset
    rw [← query_of_repeated l filter hd hfield, hs.query_eq]

/-- Of four offers two are alike for both clauses, and there are two pages. A fifth offer was removed, and
a sixth is in a city that the filter does not admit. -/
theorem pages_of_tied_offers :
    let listing (id city : String) : Listing := { sourceId := id, uf := "SP", city := city }
    let b := listing "b" "SANTOS"
    let a := listing "a" "SANTOS"
    let d := listing "d" "OSASCO"
    let c := listing "c" "SANTOS"
    let opened : Ledger := ⟨[⟨1, "SP", none, ⟨0⟩, none⟩], [], []⟩
    let older := (repository ⟨⟨5⟩, []⟩
      (.append [⟨b, 1, .insert⟩, ⟨a, 1, .insert⟩, ⟨d, 1, .insert⟩] 1) opened).2
    let newer := (repository ⟨⟨9000⟩, []⟩ (.append [⟨c, 1, .insert⟩,
      ⟨listing "e" "SANTOS", 1, .insert⟩, ⟨listing "f" "UBATUBA", 1, .insert⟩] 1) older).2
    let l := (repository ⟨⟨9500⟩, []⟩ (.removeMissing "SP" ["a", "b", "c", "d", "f"] 1) newer).2
    let filter : Filter := .not (.compare .city .contains (.text "BATU"))
    let clauses : List SortClause := [⟨.field .city, .desc⟩, ⟨.createdAt, .desc⟩]
    let offers : List CurrentOffer :=
      [⟨1, c, ⟨9000⟩, ⟨9000⟩⟩, ⟨1, a, ⟨5⟩, ⟨5⟩⟩, ⟨1, b, ⟨5⟩, ⟨5⟩⟩, ⟨1, d, ⟨5⟩, ⟨5⟩⟩]
    (∀ o, (∀ f, (o.listing.value f).Plain) →
        (o ∈ offers ↔ l.Shows o ∧ filter.selects o.listing = true)) ∧
      offers.Pairwise (SortClause.Precedes CurrentOffer.sortKey clauses) ∧
      ∃ pages : List (List CurrentOffer), pages.flatten = offers ∧
        (∀ k, l.query (some filter) clauses 2 (k * 2) = .ok (pages.getD k [])) ∧
        pages.getD 0 [] = offers.take 2 ∧ pages.getD 1 [] = offers.drop 2 := by
  intro listing b a d c opened older newer l filter clauses offers
  have hopened : Reachable opened := .startBatch (c := ⟨⟨0⟩, []⟩) .empty rfl
  have holder : Reachable older := hopened.call _ (show Call.Live (.append ..) by decide)
  have hnewer : Reachable newer := holder.call _ (show Call.Live (.append ..) by decide)
  have hl : Reachable l := hnewer.call _ trivial
  obtain ⟨shown, h⟩ := hl.exists_pages (some filter) clauses
  have hmem : (∀ o ∈ l.active.map Stored.shown,
        Filter.admits (some filter) o.listing = true → o ∈ offers) ∧
      ∀ o ∈ offers, o ∈ l.active.map Stored.shown ∧
        Filter.admits (some filter) o.listing = true := by
    decide +kernel
  obtain rfl : shown = offers := by
    apply h.eq_of_ordered (by decide +kernel)
    intro o
    rw [h.mem_iff, hl.sound.shows_iff, ← List.mem_map]
    exact ⟨fun ho => hmem.1 o ho.1 ho.2, hmem.2 o⟩
  have hparse : Filter.parse "not city contains 'BATU'" = .ok filter := rfl
  refine ⟨h.selected _ filter rfl hparse (by decide), h.inTime (by decide +kernel), ?_⟩
  obtain ⟨pages, hflatten, hpage⟩ := h.pages 2 (by decide)
  refine ⟨pages, hflatten, hpage, ?_, ?_⟩
  · exact Except.ok.inj ((hpage 0).symm.trans (h.page 2 0))
  · exact Except.ok.inj ((hpage 1).symm.trans (h.page 2 2))

end Ledger
end OfferLedger
