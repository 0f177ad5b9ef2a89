import OfferLedger.Proofs.Service.Form
import OfferLedger.Proofs.Settings.Basic
import OfferLedger.Service.Route

/-! # How a request for offers is answered

The form of the request is read in a fixed order, filter, sort, limit and offset, and the first text that is
wrong is answered. If none is, the answer is the page that the ledger gives for what was read. -/
namespace OfferLedger.Service

open Text (bound32 hexValue Unsigned trim utf8)

/-- What a form says under a name, where nothing there means a standard value. -/
inductive Form.Reads {α : Type} (form : Form) (name : String) (standard : α)
    (read : String → α → Prop) : α → Prop where
  | omitted : form.Omits name → Form.Reads form name standard read standard
  | given {s a} : form.Gives name s → read s a → Form.Reads form name standard read a

def Form.ReadsFilter (form : Form) : Option Filter → Prop :=
  form.Reads "filter" none fun s n => ∃ f, Filter.parse s = .ok f ∧ n = some f

def Form.ReadsSort (form : Form) : List SortClause → Prop :=
  form.Reads "sort" [] fun s clauses => SortClause.parse s = .ok clauses

def IsLimit (s : String) (n : Nat) : Prop := Unsigned bound32 (trim s.toList) n ∧ 1 ≤ n ∧ n ≤ 500

def IsOffset (s : String) (n : Nat) : Prop := Unsigned bound32 (trim s.toList) n

def Form.ReadsLimit (form : Form) (pageLimit : Nat) : Nat → Prop :=
  form.Reads "limit" pageLimit IsLimit

def Form.ReadsOffset (form : Form) : Nat → Prop := form.Reads "offset" 0 IsOffset

/-- The answer to a request for offers. Each case supposes that what is read earlier is in order. -/
structure PageAnswer (l : Ledger) (pageLimit : Nat) (form : Form) (answer : Response) : Prop where
  filter : ∀ f e, form.Gives "filter" f → Filter.parse f = .error e →
    answer = ⟨400, some (.obj [("error", .str e.message), ("offset", .nat e.offset)])⟩
  sort : ∀ filter s e, form.ReadsFilter filter → form.Gives "sort" s →
    SortClause.parse s = .error e →
    answer = ⟨400, some (.obj [("error", .str s!"invalid sort: {e.message}")])⟩
  limit : ∀ filter clauses s, form.ReadsFilter filter → form.ReadsSort clauses →
    form.Gives "limit" s → (∀ n, ¬ IsLimit s n) →
    answer = ⟨400, some (.obj [("error", .str "limit must be an integer between 1 and 500")])⟩
  offset : ∀ filter clauses limit s, form.ReadsFilter filter → form.ReadsSort clauses →
    form.ReadsLimit pageLimit limit → form.Gives "offset" s → (∀ n, ¬ IsOffset s n) →
    answer = ⟨400, some (.obj [("error", .str "offset must be a non-negative integer")])⟩
  page : ∀ filter clauses limit offset offers, form.ReadsFilter filter → form.ReadsSort clauses →
    form.ReadsLimit pageLimit limit → form.ReadsOffset offset →
    l.query filter clauses limit offset = .ok offers →
    answer = ⟨200, some (.obj [("items", .arr (offers.map (·.toJson))), ("limit", .nat limit),
      ("offset", .nat offset)])⟩ ∧ offers.length ≤ limit ∧ 1 ≤ limit ∧ limit ≤ 500

namespace PageRequest

variable {form : Form} {name s : String}

theorem filled?_eq_some_iff : filled? form name = some s ↔ form.Gives name s := by
  rw [filled?, Option.filter_eq_some_iff, Form.value?_eq_some_iff, Form.Gives]
  apply and_congr_right'
  rw [ne_eq, Text.trim_eq_nil_iff]
  simp

theorem filled?_eq_none_iff : filled? form name = none ↔ form.Omits name := by
  rw [Option.eq_none_iff_forall_ne_some]
  apply forall_congr'
  intro s
  exact not_congr filled?_eq_some_iff

def readOr {α : Type} (form : Form) (name : String) (standard : α)
    (read : String → Except Failure α) : Except Failure α :=
  match filled? form name with
  | none => .ok standard
  | some s => read s

theorem readOr_of_gives {α : Type} {standard : α} {read : String → Except Failure α}
    (h : form.Gives name s) : readOr form name standard read = read s := by
  rw [readOr, filled?_eq_some_iff.mpr h]

theorem readOr_of_reads {α : Type} {standard a : α} {means : String → α → Prop}
    {read : String → Except Failure α} (h : form.Reads name standard means a)
    (hread : ∀ s, means s a → read s = .ok a) : readOr form name standard read = .ok a := by
  rcases h with h | ⟨h, ha⟩
  · rw [readOr, filled?_eq_none_iff.mpr h]
  · rw [readOr_of_gives h, hread _ ha]

theorem readFilter_of_reads {filter : Option Filter} (h : form.ReadsFilter filter) :
    readFilter form = .ok filter := by
  apply readOr_of_reads h
  rintro s ⟨f, hf, rfl⟩
  rw [hf]

theorem readFilter_of_error {e : Filter.ReadError} (h : form.Gives "filter" s)
    (he : Filter.parse s = .error e) : readFilter form = .error (.filter e) := by
  apply (readOr_of_gives h).trans
  rw [he]

theorem readSort_of_reads {clauses : List SortClause} (h : form.ReadsSort clauses) :
    readSort form = .ok clauses := by
  apply readOr_of_reads h
  intro s hs
  rw [hs]

theorem readSort_of_error {e : SortClause.ParseError} (h : form.Gives "sort" s)
    (he : SortClause.parse s = .error e) : readSort form = .error (.sort e) := by
  apply (readOr_of_gives h).trans
  rw [he]

theorem number?_eq_some_iff {n : Nat} : number? s = some n ↔ IsOffset s n := by
  rw [IsOffset, ← Text.parseUnsigned_eq_ok_iff (by decide), number?]
  cases Text.parseUnsigned bound32 (trim s.toList) <;> simp [Except.toOption]

theorem inRange_iff (n : Nat) : (1 ≤ n && n ≤ maxPageLimit) = true ↔ 1 ≤ n ∧ n ≤ 500 := by
  rw [Bool.and_eq_true, decide_eq_true_eq, decide_eq_true_eq]
  rfl

theorem readLimit_of_reads {pageLimit limit : Nat} (h : form.ReadsLimit pageLimit limit) :
    readLimit pageLimit form = .ok limit := by
  apply readOr_of_reads h
  rintro s ⟨hn, hrange⟩
  rw [number?_eq_some_iff.mpr hn]
  exact if_pos ((inRange_iff limit).mpr hrange)

theorem readLimit_of_error (pageLimit : Nat) (h : form.Gives "limit" s) (he : ∀ n, ¬ IsLimit s n) :
    readLimit pageLimit form = .error (.badRequest limitMessage) := by
  apply (readOr_of_gives h).trans
  cases hn : number? s with
  | none => rfl
  | some n =>
    apply if_neg
    intro hrange
    exact he n ⟨number?_eq_some_iff.mp hn, (inRange_iff n).mp hrange⟩

theorem readOffset_of_reads {offset : Nat} (h : form.ReadsOffset offset) :
    readOffset form = .ok offset := by
  apply readOr_of_reads h
  intro s hn
  rw [number?_eq_some_iff.mpr hn]

theorem readOffset_of_error (h : form.Gives "offset" s) (he : ∀ n, ¬ IsOffset s n) :
    readOffset form = .error (.badRequest offsetMessage) := by
  apply (readOr_of_gives h).trans
  cases hn : number? s with
  | none => rfl
  | some n => exact absurd (number?_eq_some_iff.mp hn) (he n)

end PageRequest

theorem length_query_le {l : Ledger} {filter : Option Filter} {clauses : List SortClause}
    {limit offset : Nat} {offers : List CurrentOffer}
    (h : l.query filter clauses limit offset = .ok offers) : offers.length ≤ limit := by
  rw [length_of_mapM h]
  exact List.length_take_le ..

theorem respond_of_path (l : Ledger) (pageLimit : Nat) {target : Target}
    (h : target.path = utf8 "/offers") {form : Form}
    (hform : Form.parse (target.query.getD []) = form) :
    respond l pageLimit "GET" target =
      match (do (← PageRequest.ofForm pageLimit form).answer l : Except Failure Json) with
      | .ok body => .ok body
      | .error e => e.toResponse := by
  rw [respond, if_pos rfl, Route.ofPath?, if_pos h, ← hform]
  rfl

open PageRequest

/-- Whatever texts are given, however they are escaped and whatever the ledger holds. -/
theorem respond_offers {lookup : String → Option String} {settings : Settings}
    (hsettings : Settings.ofLookup lookup = .ok settings) {form : Form} {uri : String}
    (huri : form.Asks "/offers" uri) (l : Ledger) :
    Settings.PageLimit lookup settings.pageLimit ∧
      PageAnswer l settings.pageLimit form
        (respond l settings.pageLimit "GET" (Target.parse uri)) := by
  refine ⟨Settings.pageLimit_of_ofLookup hsettings, ?_⟩
  have hpath : utf8 "/offers" = slash :: [0x6F, 0x66, 0x66, 0x65, 0x72, 0x73] := by
    rw [Text.utf8_eq]
    rfl
  obtain ⟨hpath, hform⟩ := Target.parse_of_asks hpath (by decide) (by decide) huri
  rw [respond_of_path l settings.pageLimit hpath hform, ofForm]
  constructor
  · intro f e hf he
    rw [readFilter_of_error hf he]
    rfl
  · intro filter s e hfilter hs he
    rw [readFilter_of_reads hfilter, readSort_of_error hs he]
    rfl
  · intro filter clauses s hfilter hclauses hs he
    rw [readFilter_of_reads hfilter, readSort_of_reads hclauses, readLimit_of_error _ hs he]
    rfl
  · intro filter clauses limit s hfilter hclauses hlimit hs he
    rw [readFilter_of_reads hfilter, readSort_of_reads hclauses, readLimit_of_reads hlimit,
      readOffset_of_error hs he]
    rfl
  · intro filter clauses limit offset offers hfilter hclauses hlimit hoffset hquery
    rw [readFilter_of_reads hfilter, readSort_of_reads hclauses, readLimit_of_reads hlimit,
      readOffset_of_reads hoffset]
    have hrange : 1 ≤ limit ∧ limit ≤ 500 := by
      rcases hlimit with _ | ⟨-, -, hrange⟩
      · exact ⟨settings.one_le_pageLimit, settings.pageLimit_le⟩
      · exact hrange
    refine ⟨?_, length_query_le hquery, hrange⟩
    simp only [bind, Except.bind, answer, hquery]
    rfl

/-- A filter with blanks and an escape, and a limit that is taken back by a blank one. -/
theorem respond_offers_of_blank_limit :
    let a : Listing := { sourceId := "a", uf := "SP" }
    let l : Ledger := ⟨[⟨1, "SP", none, ⟨0⟩, none⟩], [⟨⟨1, .insert, 1, a⟩, ⟨5⟩, []⟩],
      [⟨"a", "SP", 1, true, ⟨5⟩, ⟨6⟩, 1⟩]⟩
    let o : CurrentOffer := ⟨1, a, ⟨5⟩, ⟨6⟩⟩
    respond l 7 "GET" (Target.parse "/offers?filter=uf+eq+%27SP'&limit=9&limit=+") =
      ⟨200, some (.obj [("items", .arr [o.toJson]), ("limit", .nat 7), ("offset", .nat 0)])⟩ := by
  intro a l o
  let lookup : String → Option String := fun name =>
    if name = "OFFERS_PAGE_LIMIT" then some " 7 " else none
  obtain ⟨settings, hsettings, hseven⟩ : ∃ settings, Settings.ofLookup lookup = .ok settings ∧
      settings.pageLimit = 7 := ⟨_, rfl, rfl⟩
  let form : Form := [("filter", "uf eq 'SP'"), ("limit", "9"), ("limit", " ")]
  have huri : form.Asks "/offers" "/offers?filter=uf+eq+%27SP'&limit=9&limit=+" := by
    have hplain : ∀ s ∈ ["filter", "limit", "9"], Form.Written (utf8 s) (utf8 s) := by
      intro s hs
      apply Form.written_self
      revert s
      decide +kernel
    have htext : Form.Written (utf8 "uf eq 'SP'") (utf8 "uf+eq+%27SP'") := by
      have hmeant : utf8 "uf eq 'SP'" =
          [0x75, 0x66, 0x20, 0x65, 0x71, 0x20, 0x27, 0x53, 0x50, 0x27] := by
        decide +kernel
      have hwritten : utf8 "uf+eq+%27SP'" =
          [0x75, 0x66, 0x2B, 0x65, 0x71, 0x2B, 0x25, 0x32, 0x37, 0x53, 0x50, 0x27] := by
        decide +kernel
      have hquote : Form.Written [0x27, 0x53, 0x50, 0x27] [0x25, 0x32, 0x37, 0x53, 0x50, 0x27] :=
        .escape (rfl : hexValue 0x32 = some 2) (rfl : hexValue 0x37 = some 7)
          (Form.written_self (by simp [Form.Free]))
      rw [hmeant, hwritten]
      exact .plain (by decide) (.plain (by decide) (.blank (.plain (by decide) (.plain (by decide)
        (.blank hquote)))))
    have hblank : Form.Written (utf8 " ") (utf8 "+") := by
      rw [Text.utf8_eq, Text.utf8_eq]
      exact .blank .nil
    refine .inr ⟨_, ⟨[utf8 "filter=uf+eq+%27SP'", utf8 "limit=9", utf8 "limit=+"], ?_, rfl⟩,
      by decide +kernel⟩
    exact .cons ⟨_, _, hplain _ (by decide), htext, by decide +kernel, by decide +kernel⟩
      (.cons ⟨_, _, hplain _ (by decide), hplain "9" (by decide), by decide +kernel,
        by decide +kernel⟩
      (.cons ⟨_, _, hplain _ (by decide), hblank, by decide +kernel, by decide +kernel⟩ .nil))
  have hfilter : form.ReadsFilter (some (.compare .uf .eq (.text "SP"))) :=
    .given ⟨⟨[], _, rfl, by decide⟩, by decide⟩ ⟨_, rfl, rfl⟩
  have homitted : ∀ name ∈ ["sort", "limit", "offset"], form.Omits name := by
    intro name hname
    apply PageRequest.filled?_eq_none_iff.mp
    revert name
    decide
  have hquery : l.query (some (.compare .uf .eq (.text "SP"))) [] 7 0 = .ok [o] := by
    decide +kernel
  have hanswer := (respond_offers hsettings huri l).2
  rw [hseven] at hanswer
  exact (hanswer.page _ [] 7 0 [o] hfilter (.omitted (homitted _ (by decide)))
    (.omitted (homitted _ (by decide))) (.omitted (homitted _ (by decide))) hquery).1

end OfferLedger.Service
