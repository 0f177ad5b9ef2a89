import OfferLedger.Proofs.Store.Ledger
import OfferLedger.Proofs.Store.Memory

/-! # Stores that agree

Two stores that show the same answer a call alike and show the same afterwards. So the repository in
memory and the ledger cannot be told apart by calls. -/
namespace OfferLedger

namespace Call

/-- Replies that say the same; what is known of offers is compared as a map. -/
def SameReply : (c : Call) → c.Reply → c.Reply → Prop
  | find _, known, known' => ∀ id, Keyed.get? known id = Keyed.get? known' id
  | append .., _, _ => True
  | touch .., _, _ => True
  | removeMissing .., n, n' => n = n'

/-- The same reply, or the same conflict. -/
def SameAnswer (c : Call) : Except RepositoryError c.Reply → Except RepositoryError c.Reply → Prop
  | .ok reply, .ok reply' => c.SameReply reply reply'
  | .error e, .error e' => ∃ id version, e = .versionConflict id version ∧ e' = e
  | _, _ => False

end Call

namespace Store

variable {σ τ : Type} (S : Store σ) (T : Store τ) {s : σ} {t : τ} {c : Call}

theorem sameAnswer (hs : S.Sound s) (ht : T.Sound t) (hv : S.view s = T.view t) (hc : c.WellFormed)
    (hbs : ∀ batch ∈ c.batch?, S.HasBatch s batch) (hbt : ∀ batch ∈ c.batch?, T.HasBatch t batch) :
    c.SameAnswer (S.repository c s).1 (T.repository c t).1 ∧
      S.view (S.repository c s).2 = T.view (T.repository c t).2 := by
  have hview : ∀ {s' t'}, (S.repository c s).2 = s' → (T.repository c t).2 = t' →
      (S.view s').history = (T.view t').history → S.view s' = T.view t' := by
    rintro _ _ rfl rfl hh
    exact (S.consistent (S.call hs hc.live).1).ext (T.consistent (T.call ht hc.live).1) hh
  cases c with
  | find listings =>
    obtain ⟨known, h, hknown⟩ := S.find hs listings
    obtain ⟨known', h', hknown'⟩ := T.find ht listings
    rw [h, h']
    refine ⟨fun id => ?_, hv⟩
    rw [hknown, hknown', hv]
  | append entries batch =>
    have hb := hbs batch rfl
    have hb' := hbt batch rfl
    cases hfirst : entries.find? (fun e => ¬ (S.view s).history.Fits e) with
    | some e =>
      have hfirst' := hfirst
      rw [hv] at hfirst'
      rw [S.conflict hs hb hc hfirst, T.conflict ht hb' hc hfirst']
      exact ⟨⟨_, _, rfl, rfl⟩, hv⟩
    | none =>
      have hfits : ∀ e ∈ entries, (S.view s).history.Fits e := by
        intro e he
        have := List.find?_eq_none.mp hfirst e he
        simpa using this
      obtain ⟨s', h, hh⟩ := S.append hs hb hc hfits
      obtain ⟨t', h', hh'⟩ := T.append ht hb' hc (hv ▸ hfits)
      have hsame := hview (congrArg Prod.snd h) (congrArg Prod.snd h') (by rw [hh, hh', hv])
      rw [h, h']
      exact ⟨trivial, hsame⟩
  | touch ids batch =>
    obtain ⟨s', h, hh⟩ := S.touch hs (hbs batch rfl) ids
    obtain ⟨t', h', hh'⟩ := T.touch ht (hbt batch rfl) ids
    have hsame := hview (congrArg Prod.snd h) (congrArg Prod.snd h') (by rw [hh, hh', hv])
    rw [h, h']
    exact ⟨trivial, hsame⟩
  | removeMissing partition ids batch =>
    obtain ⟨n, s', h, hn, hh⟩ := S.removeMissing hs (hbs batch rfl) partition ids
    obtain ⟨n', t', h', hn', hh'⟩ := T.removeMissing ht (hbt batch rfl) partition ids
    have hsame := hview (congrArg Prod.snd h) (congrArg Prod.snd h') (by rw [hh, hh', hv])
    rw [h, h']
    refine ⟨?_, hsame⟩
    rw [hv, hn'] at hn
    exact (Nat.cast_inj.mp hn).symm

end Store

/-- The two stores after the same calls, made from the beginning in batches that the ledger has. The
repository in memory does not keep batches. -/
inductive Together : MemoryStore → Ledger → Prop where
  | empty : Together {} Ledger.empty
  | call {s l} (now : Timestamp) {c : Call} : Together s l → c.WellFormed →
      (∀ batch ∈ c.batch?, l.hasBatch batch = true) →
      Together (MemoryStore.repository c s).2 (Ledger.repository ⟨now, []⟩ c l).2
  | startBatch {s l l'} {c : Conditions} {partition : PartitionKey} {digest : Option String}
      {batch : BatchId} : Together s l → l.startBatch c partition digest = .ok (batch, l') →
      Together s l'
  | finishBatch {s l l'} {c : Conditions} {batch : BatchId} {listingsSeen : Nat}
      {outcome : BatchOutcome} : Together s l →
      l.finishBatch c batch listingsSeen outcome = .ok l' → Together s l'

theorem Together.reachable {s : MemoryStore} {l : Ledger} (h : Together s l) :
    s.Reachable ∧ l.Reachable := by
  induction h with
  | empty => exact ⟨.empty, .empty⟩
  | call now _ hc _ ih => exact ⟨.call _ ih.1, .call _ ih.2 hc.live⟩
  | startBatch _ h ih => exact ⟨ih.1, .startBatch ih.2 h⟩
  | finishBatch _ h ih => exact ⟨ih.1, .finishBatch ih.2 h⟩

theorem Together.view_eq {s : MemoryStore} {l : Ledger} (h : Together s l) : s.view = l.view := by
  induction h with
  | empty => rfl
  | call now h hc hb ih =>
    exact (MemoryStore.store.sameAnswer (Ledger.store now) h.reachable.1.sound h.reachable.2.sound ih hc
      (fun _ _ => trivial) hb).2
  | startBatch _ h ih =>
    obtain ⟨-, rfl⟩ := Ledger.startBatch_eq_ok h
    exact ih
  | finishBatch _ h ih =>
    obtain rfl := Ledger.finishBatch_eq_ok h
    exact ih

/-- After any calls the two stores give the same answer to the next one, and then every offer has the
same history and is active in both or in neither. -/
theorem Together.agree {s : MemoryStore} {l : Ledger} (h : Together s l) {c : Call}
    (hc : c.WellFormed) (hb : ∀ batch ∈ c.batch?, l.hasBatch batch = true) (now : Timestamp) :
    c.SameAnswer (MemoryStore.repository c s).1 (Ledger.repository ⟨now, []⟩ c l).1 ∧
      ∀ id, (MemoryStore.repository c s).2.history id =
          ((Ledger.repository ⟨now, []⟩ c l).2.history id).map (·.revision) ∧
        (MemoryStore.repository c s).2.isActive id =
          ((Ledger.repository ⟨now, []⟩ c l).2.head? id).any (·.isActive) := by
  have hview := (h.call now hc hb).view_eq
  refine ⟨?_, fun id => ⟨?_, ?_⟩⟩
  · exact (MemoryStore.store.sameAnswer (Ledger.store now) h.reachable.1.sound h.reachable.2.sound
      h.view_eq hc (fun _ _ => trivial) hb).1
  · exact congrFun (congrArg View.history hview) id
  · exact congrFun (congrArg View.isActive hview) id

/-- After an insertion of three offers, a touch and a removal: an update of the removed offer as if it were
still at its first version, offers asked for twice, and another removal. -/
theorem Together.agree_after_removal :
    let a : Listing := { sourceId := "a", uf := "SP" }
    let a' : Listing := { sourceId := "a", uf := "SP", city := "SANTOS" }
    let b : Listing := { sourceId := "b", uf := "SP" }
    let inserted : Call := .append
      [⟨a, 1, .insert⟩, ⟨b, 1, .insert⟩, ⟨{ sourceId := "c", uf := "RJ" }, 1, .insert⟩] 1
    let touched : Call := .touch ["a", "x"] 2
    let removed : Call := .removeMissing "SP" ["a"] 2
    let s := (MemoryStore.repository removed
      (MemoryStore.repository touched (MemoryStore.repository inserted {}).2).2).2
    let opened : Ledger := ⟨[⟨1, "SP", none, ⟨0⟩, none⟩, ⟨2, "SP", none, ⟨0⟩, none⟩], [], []⟩
    let l := (Ledger.repository ⟨⟨7⟩, []⟩ removed (Ledger.repository ⟨⟨6⟩, []⟩ touched
      (Ledger.repository ⟨⟨5⟩, []⟩ inserted opened).2).2).2
    let stale : Call := .append [⟨a', 2, .update⟩, ⟨b, 2, .update⟩] 2
    let asked : Call := .find [a', b, a, { sourceId := "x", uf := "SP" }, a']
    let removal : Call := .removeMissing "RJ" [] 2
    (∀ c ∈ [stale, asked, removal],
      c.SameAnswer (MemoryStore.repository c s).1 (Ledger.repository ⟨⟨8⟩, []⟩ c l).1 ∧
        ∀ id, (MemoryStore.repository c s).2.history id =
            ((Ledger.repository ⟨⟨8⟩, []⟩ c l).2.history id).map (·.revision) ∧
          (MemoryStore.repository c s).2.isActive id =
            ((Ledger.repository ⟨⟨8⟩, []⟩ c l).2.head? id).any (·.isActive)) ∧
      (MemoryStore.repository stale s).1 = .error (.versionConflict "b" 2) ∧
      (MemoryStore.repository asked s).1 =
        .ok [("a", ⟨1, true, true⟩), ("b", ⟨2, false, true⟩)] ∧
      (MemoryStore.repository removal s).1 = .ok 1 := by
  intro a a' b inserted touched removed s opened l stale asked removal
  have hopened : Together {} opened :=
    .startBatch (c := ⟨⟨0⟩, []⟩) (.startBatch (c := ⟨⟨0⟩, []⟩) .empty rfl) rfl
  have hinserted := hopened.call ⟨5⟩ (show inserted.WellFormed by decide) (by decide)
  have htouched := hinserted.call ⟨6⟩ (show touched.WellFormed by decide) (by decide +kernel)
  have h : Together s l := htouched.call ⟨7⟩ (show removed.WellFormed by decide) (by decide +kernel)
  have hwell : ∀ c ∈ [stale, asked, removal], c.WellFormed := by decide
  have hbatch : ∀ c ∈ [stale, asked, removal], ∀ batch ∈ c.batch?, l.hasBatch batch = true := by
    decide +kernel
  refine ⟨?_, by decide +kernel, by decide +kernel, by decide +kernel⟩
  intro c hc
  exact Together.agree h (hwell c hc) (hbatch c hc) ⟨8⟩

end OfferLedger
