import WhaleMas.AuditVerify

/-!
What a verification says about a log in which one event was replaced by an arbitrary one.

Up to the replaced event the loop arrives with the hash it had on the accepted log. An event
that does not fit there is named itself; one that fits, with its hash computed anew, is
found out by the next event, which still names the hash of the original.
-/

namespace WhaleMas.ForgedEvents

open WhaleMas.JsonText WhaleMas.Models WhaleMas.HashChain WhaleMas.AuditLog

/-- The hash of the event before position `k`, none for the first. -/
def hashBefore (l : List AuditEvent) (k : ℕ) : Option String :=
  (l.take k).getLast?.map AuditEvent.eventHash

/-! ### The loop at a fitting and at a misfitting event -/

lemma verifyLoop_misfit {n : ℕ} {p : Option String} {e : AuditEvent} (l : List AuditEvent)
    (h : ¬ Fits chain p e) : verifyLoop n p (e :: l) = ⟨false, n, some e.id⟩ := by
  rw [verifyLoop]
  refine if_pos ?_
  by_contra hc
  push Not at hc
  exact h hc

lemma verifyLoop_fit {n : ℕ} {p : Option String} {e : AuditEvent} (l : List AuditEvent)
    (h : Fits chain p e) : verifyLoop n p (e :: l) = verifyLoop n (some e.eventHash) l := by
  rw [verifyLoop]
  refine if_neg ?_
  push Not
  exact h

/-- Over linked events the loop goes on with the hash of the last of them. -/
lemma verifyLoop_append {n : ℕ} {p : Option String} {l : List AuditEvent}
    (m : List AuditEvent) (h : Linked chain p l) :
    verifyLoop n p (l ++ m) = verifyLoop n (lastHash chain p l) m := by
  induction l generalizing p with
  | nil => rfl
  | cons e l ih =>
    obtain ⟨he, hl⟩ := h
    rw [List.cons_append, verifyLoop_fit _ he, lastHash_cons]
    exact ih hl

lemma verifyLoop_linked {n : ℕ} {p : Option String} {l : List AuditEvent}
    (h : Linked chain p l) : verifyLoop n p l = ⟨true, n, none⟩ := by
  have := verifyLoop_append (n := n) [] h
  rwa [List.append_nil] at this

/-! ### An accepted log around one position -/

/-- The parts of an accepted log around its `k`-th event. -/
lemma linked_around {l : List AuditEvent} {k : ℕ} (hk : k < l.length)
    (hl : Linked chain none l) : Linked chain none (l.take k) ∧
      Fits chain (hashBefore l k) l[k] ∧
      Linked chain (some l[k].eventHash) (l.drop (k + 1)) := by
  have hsplit : l = l.take k ++ l[k] :: l.drop (k + 1) := by simp
  rw [hsplit, linked_append, lastHash_eq_getLast?] at hl
  exact ⟨hl.1, hl.2.1, hl.2.2⟩

lemma isPrevious_hashBefore {l : List AuditEvent} {k : ℕ} (hk : k < l.length)
    (hl : Linked chain none l) : IsPrevious (hashBefore l k) := by
  have hfits := (linked_around hk hl).2.1.1
  have hnone : IsPrevious none := fun s hs => by cases hs
  have := linked_isPrevious hnone hl l[k] (List.getElem_mem hk)
  exact (show l[k].previousHash = hashBefore l k from hfits) ▸ this

/-- The loop over the changed log, from the replaced event on. -/
lemma verify_set {l : List AuditEvent} {k : ℕ} (hk : k < l.length) (x : AuditEvent)
    (hl : Linked chain none l) : verify (l.set k x) =
      verifyLoop l.length (hashBefore l k) (x :: l.drop (k + 1)) := by
  rw [verify, List.length_set, List.set_eq_take_append_cons_drop, if_pos hk,
    verifyLoop_append _ (linked_around hk hl).1, lastHash_eq_getLast?]
  rfl

/-- After the same predecessor, events with equal contents are hashed alike. -/
lemma calculateEventHash_congr {p : Option String} {e f : AuditEvent} (h : SameContent e f) :
    calculateEventHash p (eventContent e) = calculateEventHash p (eventContent f) := by
  rw [calculateEventHash, calculateEventHash, material, material, canonicalJson_inj.mpr h]

/-- Where the hash binds what is hashed, two events that fit after the same predecessor
have one hash exactly when their contents agree. -/
lemma eventHash_eq_iff {p : Option String} {e f : AuditEvent} (hp : IsPrevious p)
    (he : Fits chain p e) (hf : Fits chain p f)
    (hinj : Set.InjOn sha256Text {material p (eventContent e), material p (eventContent f)}) :
    e.eventHash = f.eventHash ↔ SameContent e f := by
  have hhe : e.eventHash = sha256Text (material p (eventContent e)) := he.2
  have hhf : f.eventHash = sha256Text (material p (eventContent f)) := hf.2
  constructor
  · intro h
    rw [hhe, hhf] at h
    exact (material_inj hp hp (hinj (by simp) (by simp) h)).2
  · intro h
    rw [hhe, hhf]
    exact calculateEventHash_congr h

/-- **Verification points at the right event.** An event put in the place of one of an
accepted log is named if it does not name its predecessor's hash or is not hashed after it.
If it is, the log is still accepted when the contents agree or no event follows, and
otherwise the event after it is named. -/
theorem verify_replaced (l : List AuditEvent) (k : ℕ) (hk : k < l.length) (x : AuditEvent)
    (hl : (verify l).valid = true)
    (hinj : Set.InjOn sha256Text {material (hashBefore l k) (eventContent x),
      material (hashBefore l k) (eventContent l[k])}) :
    ((x.previousHash ≠ hashBefore l k ∨
        x.eventHash ≠ calculateEventHash (hashBefore l k) (eventContent x)) →
      verify (l.set k x) = ⟨false, l.length, some x.id⟩) ∧
    (x.previousHash = hashBefore l k →
      x.eventHash = calculateEventHash (hashBefore l k) (eventContent x) →
      (SameContent x l[k] ∨ k + 1 = l.length → verify (l.set k x) = ⟨true, l.length, none⟩) ∧
      ∀ h : k + 1 < l.length, ¬ SameContent x l[k] →
        verify (l.set k x) = ⟨false, l.length, some l[k + 1].id⟩) := by
  rw [verify_valid] at hl
  obtain ⟨-, hfits, hrest⟩ := linked_around hk hl
  rw [verify_set hk x hl]
  constructor
  · intro h
    refine verifyLoop_misfit _ fun hx => ?_
    exact h.elim (fun h => h hx.1) (fun h => h hx.2)
  · intro hprev hhash
    have hx : Fits chain (hashBefore l k) x := ⟨hprev, hhash⟩
    have hiff := eventHash_eq_iff (isPrevious_hashBefore hk hl) hx hfits hinj
    rw [verifyLoop_fit _ hx]
    constructor
    · rintro (hsame | hlast)
      · rw [hiff.mpr hsame]
        exact verifyLoop_linked hrest
      · rw [List.drop_of_length_le (by omega)]
        rfl
    · -- the next event still names the hash of the original
      intro hnext hsame
      rw [List.drop_eq_getElem_cons hnext] at hrest ⊢
      refine verifyLoop_misfit _ fun hy => hsame (hiff.mp ?_)
      exact Option.some.inj (hy.1.symm.trans hrest.1.1)

section Example

open WhaleMas.AuditVerify

/-- The second event of a sample log, appended again without its metadata. -/
def forgedEvent : AuditEvent :=
  newEvent (some (sampleEvent dictAB 0)) (sampleArgs Dict.empty) 8 noon

lemma forgedEvent_hash : forgedEvent.eventHash =
    "b5c93686a911e24a914f85d8abc3c3ce6b7f0c74b678c6e435b2180c688ba7be" := by
  have hkeys : sortKeys Dict.empty.toJson = Dict.empty.toJson := by
    simp [Dict.empty, Dict.toJson, sortKeys, sortValues, sortMembers]
  rw [forgedEvent, eventHash_newEvent, hkeys, Option.map_some, sampleEvent_hash.1]
  decide +kernel

lemma forgedEvent_ne : forgedEvent.eventHash ≠ (sampleEvent dictAB 1).eventHash := by
  rw [forgedEvent_hash, sampleEvent_hash.2.1]
  decide

/-- The content does not hold the hash. -/
lemma eventContent_withHash (e : AuditEvent) (hash : String) :
    eventContent { e with eventHash := hash } = eventContent e := rfl

lemma forgedEvent_injOn :
    let l := sampleLog dictAB 3
    Set.InjOn sha256Text {material (hashBefore l 1) (eventContent forgedEvent),
      material (hashBefore l 1) (eventContent (sampleEvent dictAB 1))} :=
  Set.injOn_pair.mpr fun h => absurd h forgedEvent_ne

/-- The second of three events: with its metadata keys the other way round the log is still
accepted; with other metadata and the hash it had it is named itself; with other metadata
and its hash computed anew the third event is named. -/
theorem verify_replaced_reordered_metadata :
    let l := sampleLog dictAB 3
    verify (l.set 1 (newEvent (some (sampleEvent dictAB 0)) (sampleArgs dictBA) 8 noon)) =
      ⟨true, 3, none⟩ ∧
    verify (l.set 1 { forgedEvent with eventHash := (sampleEvent dictAB 1).eventHash }) =
      ⟨false, 3, some 8⟩ ∧
    verify (l.set 1 forgedEvent) = ⟨false, 3, some 9⟩ := by
  intro l
  have hvalid : (verify l).valid = true := (verify_valid _).mpr (sampleLog_linked dictAB 3)
  have hk : 1 < l.length := by simp [l, sampleLog]
  refine ⟨?_, ?_, ?_⟩
  · set x := newEvent (some (sampleEvent dictAB 0)) (sampleArgs dictBA) 8 noon
    have hsame : SameContent x (sampleEvent dictAB 1) :=
      sameContent_newEvent (sortKeys_dictBA.trans sortKeys_dictAB.symm) _ 8
    have hinj : Set.InjOn sha256Text {material (hashBefore l 1) (eventContent x),
        material (hashBefore l 1) (eventContent (sampleEvent dictAB 1))} := by
      rw [material, material, canonicalJson_inj.mpr hsame, Set.pair_eq_singleton]
      exact Set.injOn_singleton _ _
    exact ((verify_replaced l 1 hk x hvalid hinj).2 rfl rfl).1 (.inl hsame)
  · refine (verify_replaced l 1 hk _ hvalid ?_).1 (.inr ?_)
    · rw [eventContent_withHash]
      exact forgedEvent_injOn
    · rw [eventContent_withHash]
      exact forgedEvent_ne.symm
  · exact ((verify_replaced l 1 hk forgedEvent hvalid forgedEvent_injOn).2 rfl rfl).2
      (by simp [l, sampleLog]) fun hsame => forgedEvent_ne (calculateEventHash_congr hsame)

end Example

end WhaleMas.ForgedEvents
