import OfferLedger.Proofs.Ledger.Heads
import OfferLedger.Proofs.Service.Form
import OfferLedger.Service.Route

/-! # How a request for a history is answered

The id of an offer is one segment of the path. The path is taken apart before the segment is decoded, so
nothing that comes up by decoding can be taken for a part of the path. Whichever bytes of the id are
escaped, the same id is found as long as its percent signs and slashes are. -/
namespace OfferLedger

namespace Ledger.Sound

variable {l : Ledger} (hs : l.Sound)
include hs

theorem pairwise_history (id : SourceId) :
    (l.history id).Pairwise fun row row' => row.version < row'.version :=
  hs.linked.ascending id

theorem readHistory_eq (id : SourceId) : l.readHistory id = .ok (l.history id) := by
  have hsorted : ((l.history id).mergeSort fun a b => a.version ≤ b.version) = l.history id := by
    apply List.mergeSort_of_pairwise
    apply (hs.pairwise_history id).imp
    intro a b h
    simpa using Int.le_of_lt h
  have hread : ∀ row ∈ l.history id,
      ((row.readListing 5).map fun _ => row : Except DatabaseError RevisionRow) = .ok row := by
    intro row hr
    have hsound := hs.undamaged row ((mem_history_iff ..).mp hr).1
    rw [row.readListing_of_sound 5 hsound]
    rfl
  rw [readHistory, hsorted, mapM_eq_ok hread]
  exact congrArg Except.ok (List.map_id _)

end Ledger.Sound

namespace Service

open Text (Escaped hexValue utf8)

/-- A byte that may stand for itself in the segment of an id. -/
def Route.Free (b : UInt8) : Prop := b ≠ 0x25 ∧ b ≠ slash

instance : DecidablePred Route.Free := fun _ => inferInstanceAs (Decidable (_ ∧ _))

def Route.historyPath (segment : List UInt8) : List UInt8 :=
  utf8 "/offers/" ++ segment ++ utf8 "/history"

namespace Route

theorem historyId?_eq_some_iff (path : List UInt8) (id : SourceId) :
    historyId? path = some id ↔
      ∃ segment, path = historyPath segment ∧ segment ≠ [] ∧ slash ∉ segment ∧
        Text.ofUtf8? (Text.percentDecode segment) = some id := by
  unfold historyId? historyPath
  simp only [bind, Option.bind_eq_some_iff, Text.after?_eq_some_iff, Text.before?_eq_some_iff]
  constructor
  · rintro ⟨_, rfl, segment, rfl, h⟩
    split at h
    · cases h
    · rename_i hsegment
      simp only [Bool.or_eq_true, List.isEmpty_iff, List.contains_iff_mem, not_or] at hsegment
      exact ⟨segment, (List.append_assoc ..).symm, hsegment.1, hsegment.2, h⟩
  · rintro ⟨segment, rfl, hne, hslash, h⟩
    refine ⟨_, List.append_assoc .., segment, rfl, ?_⟩
    rw [if_neg (by simp [hne, hslash])]
    exact h

theorem historyId?_of_escaped {id : SourceId} (hid : id ≠ "") {segment : List UInt8}
    (h : Escaped Free (utf8 id) segment) : historyId? (historyPath segment) = some id := by
  rw [historyId?_eq_some_iff]
  refine ⟨segment, rfl, h.ne_nil (Text.utf8_ne_nil hid), ?_, ?_⟩
  · apply h.not_mem
    · intro hfree
      exact hfree.2 rfl
    · rfl
    · decide
  · rw [h.percentDecode_eq fun _ hb => hb.1]
    exact Text.ofUtf8?_utf8 id

theorem length_historyPath (segment : List UInt8) :
    (historyPath segment).length = segment.length + 16 := by
  have hstart : (utf8 "/offers/").length = 8 := by
    rw [Text.utf8_eq]
    rfl
  have hend : (utf8 "/history").length = 8 := by
    rw [Text.utf8_eq]
    rfl
  rw [historyPath, List.length_append, List.length_append, hstart, hend]
  omega

/-- The path of a history is too long for any other path that is served. -/
theorem ofPath?_of_historyId? {path : List UInt8} {id : SourceId} (h : historyId? path = some id) :
    ofPath? path = some (.history id) := by
  obtain ⟨segment, hpath, -⟩ := (historyId?_eq_some_iff path id).mp h
  have hshort : ∀ other ∈ ["/offers", "/batches"], (utf8 other).length < 16 := by decide +kernel
  have hother : ∀ other ∈ ["/offers", "/batches"], path ≠ utf8 other := by
    intro other hmem heq
    have hlength := length_historyPath segment
    rw [← hpath, heq] at hlength
    have := hshort other hmem
    omega
  rw [ofPath?, if_neg (hother _ (by simp)), if_neg (hother _ (by simp)), h]
  rfl

end Route

/-- The answer to a request for the history of an offer: its revisions with ascending versions, or that
there are none. -/
structure HistoryAnswer (l : Ledger) (id : SourceId) (answer : Response) : Prop where
  known : (∃ row ∈ l.revisions, row.sourceId = id) → ∃ rows : List RevisionRow,
    answer = ⟨200, some (.arr (rows.map (·.toJson)))⟩ ∧
      (∀ row, row ∈ rows ↔ row ∈ l.revisions ∧ row.sourceId = id) ∧
      rows.Pairwise fun row row' => row.version < row'.version
  unknown : (∀ row ∈ l.revisions, row.sourceId ≠ id) →
    answer = ⟨404, some (.obj [("error", .str "Not Found")])⟩

theorem historyAnswer_of_path {l : Ledger} (hl : l.Reachable) (pageLimit : Nat) {target : Target}
    {id : SourceId} (h : Route.historyId? target.path = some id) :
    HistoryAnswer l id (respond l pageLimit "GET" target) := by
  have hroute := Route.ofPath?_of_historyId? h
  constructor
  · rintro ⟨row, hr, hid⟩
    have hne : l.history id ≠ [] :=
      List.ne_nil_of_mem ((Ledger.mem_history_iff ..).mpr ⟨hr, hid⟩)
    refine ⟨l.history id, ?_, Ledger.mem_history_iff l id, hl.sound.pairwise_history id⟩
    rw [respond, if_pos rfl, hroute]
    simp only [handle, hl.sound.readHistory_eq id]
    cases hrows : l.history id with
    | nil => exact absurd hrows hne
    | cons row rows => rfl
  · intro hnone
    have hnil : l.history id = [] := by
      rw [List.eq_nil_iff_forall_not_mem]
      intro row hr
      obtain ⟨hm, hid⟩ := (Ledger.mem_history_iff ..).mp hr
      exact hnone row hm hid
    rw [respond, if_pos rfl, hroute]
    simp only [handle, hl.sound.readHistory_eq id, hnil]
    rfl

theorem Route.not_mem_historyPath {b : UInt8} (hb : b = 0x23 ∨ b = 0x3F) {segment : List UInt8}
    (h : b ∉ segment) : b ∉ historyPath segment := by
  have hstart : ∀ b ∈ ([0x23, 0x3F] : List UInt8), b ∉ utf8 "/offers/" := by decide +kernel
  have hend : ∀ b ∈ ([0x23, 0x3F] : List UInt8), b ∉ utf8 "/history" := by decide +kernel
  have hsign : b ∈ ([0x23, 0x3F] : List UInt8) := by simpa using hb
  simp [historyPath, hstart b hsign, h, hend b hsign]

theorem Target.path_of_historyPath {uri : String} {segment tail : List UInt8}
    (huri : utf8 uri = Route.historyPath segment ++ tail) (htail : Behind tail)
    (hnumber : 0x23 ∉ segment) (hquestion : 0x3F ∉ segment) :
    (parse uri).path = Route.historyPath segment := by
  obtain ⟨rest, hrest⟩ : ∃ rest, Route.historyPath segment = slash :: rest := by
    have hstart : utf8 "/offers/" = slash :: [0x6F, 0x66, 0x66, 0x65, 0x72, 0x73, 0x2F] := by
      decide +kernel
    rw [Route.historyPath, hstart]
    exact ⟨_, rfl⟩
  have hnumber := Route.not_mem_historyPath (.inl rfl) hnumber
  have hquestion := Route.not_mem_historyPath (.inr rfl) hquestion
  rw [hrest] at huri hnumber hquestion ⊢
  rw [parse_eq huri hnumber hquestion htail]

/-- A path made of an id is read as that id, however it is escaped, and what is answered is the history of
that offer. No other paths are read as the path of a history but those of one segment, not empty, that
can be decoded. -/
theorem respond_history :
    (∀ (id : SourceId) (segment : List UInt8), id ≠ "" → Escaped Route.Free (utf8 id) segment →
      Route.historyId? (Route.historyPath segment) = some id ∧
      (∀ (uri : String) (tail : List UInt8), utf8 uri = Route.historyPath segment ++ tail →
        Target.Behind tail → 0x23 ∉ segment → 0x3F ∉ segment →
        (Target.parse uri).path = Route.historyPath segment) ∧
      ∀ l : Ledger, l.Reachable → ∀ (pageLimit : Nat) (target : Target),
        target.path = Route.historyPath segment →
        HistoryAnswer l id (respond l pageLimit "GET" target)) ∧
    ∀ (path : List UInt8) (id : SourceId), Route.historyId? path = some id →
      ∃ segment, path = Route.historyPath segment ∧ segment ≠ [] ∧ slash ∉ segment ∧
        Text.ofUtf8? (Text.percentDecode segment) = some id := by
  refine ⟨?_, fun path id h => (Route.historyId?_eq_some_iff path id).mp h⟩
  intro id segment hid h
  have hread := Route.historyId?_of_escaped hid h
  refine ⟨hread, ?_, ?_⟩
  · intro uri tail huri htail hnumber hquestion
    exact Target.path_of_historyPath huri htail hnumber hquestion
  · intro l hl pageLimit target htarget
    rw [← htarget] at hread
    exact historyAnswer_of_path hl pageLimit hread

/-- An id with a slash and a letter of two bytes, with digits of both cases in its escapes. -/
theorem respond_history_of_slash :
    let path := "/offers/%2f%C3%a9/history?x=/history"
    let l : Ledger := (Ledger.repository ⟨⟨5⟩, []⟩
      (.append [⟨{ sourceId := "/é", uf := "SP" }, 1, .insert⟩] 1)
      ⟨[⟨1, "SP", none, ⟨0⟩, none⟩], [], []⟩).2
    (∃ rows : List RevisionRow,
      ⟨⟨1, .insert, 1, { sourceId := "/é", uf := "SP" }⟩, ⟨5⟩, []⟩ ∈ rows ∧
      respond l 50 "GET" (Target.parse path) = ⟨200, some (.arr (rows.map (·.toJson)))⟩) ∧
    respond Ledger.empty 50 "GET" (Target.parse path) =
      ⟨404, some (.obj [("error", .str "Not Found")])⟩ := by
  intro path l
  have hescaped : Escaped Route.Free (utf8 "/é") (utf8 "%2f%C3%a9") := by
    have hid : utf8 "/é" = [0x2F, 0xC3, 0xA9] := by decide +kernel
    have hsegment : utf8 "%2f%C3%a9" = [0x25, 0x32, 0x66, 0x25, 0x43, 0x33, 0x25, 0x61, 0x39] := by
      decide +kernel
    rw [hid, hsegment]
    have hlast : Escaped Route.Free [0xA9] [0x25, 0x61, 0x39] :=
      .escape (rfl : hexValue 0x61 = some 10) (rfl : hexValue 0x39 = some 9) .nil
    have hletter : Escaped Route.Free [0xC3, 0xA9] [0x25, 0x43, 0x33, 0x25, 0x61, 0x39] :=
      .escape (rfl : hexValue 0x43 = some 12) (rfl : hexValue 0x33 = some 3) hlast
    exact .escape (rfl : hexValue 0x32 = some 2) (rfl : hexValue 0x66 = some 15) hletter
  obtain ⟨-, hpath, hanswer⟩ := respond_history.1 "/é" _ (by decide) hescaped
  have htail : Target.Behind (utf8 "?x=/history") := by
    intro b hb
    have hhead : (utf8 "?x=/history").head? = some 0x3F := by decide +kernel
    rw [hhead] at hb
    exact .inr (Option.some.inj hb).symm
  have hpath := hpath path _ (by decide +kernel) htail (by decide +kernel) (by decide +kernel)
  have hbatch : Ledger.Reachable ⟨[⟨1, "SP", none, ⟨0⟩, none⟩], [], []⟩ :=
    .startBatch (c := ⟨⟨0⟩, []⟩) .empty rfl
  have hlive : Call.Live (.append [⟨{ sourceId := "/é", uf := "SP" }, 1, .insert⟩] 1) := by decide
  have hl : l.Reachable := hbatch.call ⟨⟨5⟩, []⟩ hlive
  have hrow : ⟨⟨1, .insert, 1, { sourceId := "/é", uf := "SP" }⟩, ⟨5⟩, []⟩ ∈ l.revisions := by
    decide +kernel
  constructor
  · obtain ⟨rows, hrows, hmem, -⟩ := (hanswer l hl 50 _ hpath).known ⟨_, hrow, rfl⟩
    exact ⟨rows, (hmem _).mpr ⟨hrow, rfl⟩, hrows⟩
  · exact (hanswer _ .empty 50 _ hpath).unknown fun _ hr => absurd hr List.not_mem_nil

end Service
end OfferLedger
