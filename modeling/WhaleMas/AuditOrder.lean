import WhaleMas.AuditLog

/-!
The order of a log. An event is linked to the greatest event of its case by time and
identifier, and verification walks the events in that order, while the order in which they
were appended is stored nowhere. The two agree exactly when every event was appended after
all smaller ones.
-/

namespace WhaleMas.AuditOrder

open WhaleMas.JsonText WhaleMas.Models WhaleMas.HashChain WhaleMas.AuditLog

/-! ### Logs grown by appending -/

lemma grown_isPrevious {l : List AuditEvent} (hg : Grown chain key l) :
    ∀ e ∈ l, IsPrevious e.previousHash := by
  have hhash : ∀ e ∈ l, Sha256.IsHexdigest e.eventHash := by
    intro e he
    obtain ⟨p, t, hl⟩ := List.append_of_mem he
    have hfit : e.eventHash = _ := (hg p e t hl).2
    rw [hfit]
    exact calculateEventHash_isHexdigest _ _
  intro e he s hs
  obtain ⟨p, t, hl⟩ := List.append_of_mem he
  have hprev : e.previousHash = _ := (hg p e t hl).1
  rw [hs] at hprev
  obtain ⟨m, hm, rfl⟩ := Option.map_eq_some_iff.mp hprev.symm
  exact hhash m (by rw [hl]; simp [List.argmax_mem hm])

lemma sameContent_id {e f : AuditEvent} (h : SameContent e f) : e.id = f.id := by
  obtain ⟨-, ⟨y, hy, hs⟩, -⟩ := h
  have hyf : y = .str f.id.str := by
    simpa [eventContent, List.lookup] using hy.symm
  subst hyf
  exact Uuid.str_injective hs

/-- In a grown log the hash of an event identifies the event. -/
lemma grown_hash_inj {l : List AuditEvent} (hg : Grown chain key l)
    (hid : (l.map AuditEvent.id).Nodup) (hinj : Set.InjOn sha256Text (materials l)) :
    ∀ e ∈ l, ∀ f ∈ l, chain.hash e = chain.hash f → e = f := by
  intro e he f hf h
  have hstamp : ∀ x ∈ l, x.eventHash = calculateEventHash x.previousHash (eventContent x) := by
    intro x hx
    obtain ⟨p, t, hl⟩ := List.append_of_mem hx
    have hfit := hg p x t hl
    rw [← hfit.1] at hfit
    exact hfit.2
  have hmat : material e.previousHash (eventContent e) =
      material f.previousHash (eventContent f) := by
    refine hinj ⟨e, he, rfl⟩ ⟨f, hf, rfl⟩ ?_
    exact (hstamp e he).symm.trans (h.trans (hstamp f hf))
  have hsame := (material_inj (grown_isPrevious hg e he) (grown_isPrevious hg f hf) hmat).2
  exact List.inj_on_of_nodup_map hid he hf (sameContent_id hsame)

lemma nodup_key {l : List AuditEvent} (hid : (l.map AuditEvent.id).Nodup) :
    (l.map key).Nodup := by
  have h : l.map AuditEvent.id = (l.map key).map fun k => (ofLex k).2 := by simp [key]
  rw [h] at hid
  exact hid.of_map _

/-- **Verification sees the append order**: a grown log is accepted when its events were
appended in increasing order, and, where the hash is injective, only then. -/
theorem verify_grown {l : List AuditEvent} (hg : Grown chain key l)
    (hid : (l.map AuditEvent.id).Nodup) :
    ((l.Pairwise fun e f => key e < key f) → (verify (sortByKey key l)).valid = true) ∧
    (Set.InjOn sha256Text (materials l) → (verify (sortByKey key l)).valid = true →
      l.Pairwise fun e f => key e < key f) := by
  rw [verify_valid]
  refine ⟨hg.linked, fun hinj h => ?_⟩
  exact hg.pairwise_of_linked (nodup_key hid) (grown_hash_inj hg hid hinj) h

/-! ### Sequential runs -/

/-- A call of `AuditService.append`: the setting of its service, its arguments, and the
identifier and the time drawn in it. -/
structure Call where
  chainEnabled : Bool
  args : AppendArgs
  id : Uuid
  now : Datetime

def Call.key (c : Call) : Datetime ×ₗ Uuid := toLex (c.now, c.id)

/-- The table after a run of calls on an untouched table. -/
def runAppends (calls : List Call) : List AuditEvent :=
  calls.foldl (fun table c => append c.chainEnabled c.args c.id c.now table) []

@[simp] lemma runAppends_nil : runAppends [] = [] := rfl

@[simp] lemma runAppends_snoc (calls : List Call) (c : Call) : runAppends (calls ++ [c]) =
    append c.chainEnabled c.args c.id c.now (runAppends calls) := by
  simp [runAppends]

lemma ofCase_append (on : Bool) (a : AppendArgs) (id : Uuid) (now : Datetime)
    (table : List AuditEvent) (caseId : Uuid) :
    ofCase caseId (append on a id now table) = ofCase caseId table ++
      if a.caseId = caseId then
        [newEvent (if on then latest caseId table else none) a id now]
      else [] := by
  by_cases h : a.caseId = caseId
  · subst h
    simp [append, ofCase, newEvent]
  · simp [append, ofCase, newEvent, h]

/-- The calls that append to a case. -/
def callsOf (caseId : Uuid) (calls : List Call) : List Call :=
  calls.filter fun c => c.args.caseId = caseId

lemma callsOf_snoc (caseId : Uuid) (calls : List Call) (c : Call) :
    callsOf caseId (calls ++ [c]) =
      callsOf caseId calls ++ if c.args.caseId = caseId then [c] else [] := by
  by_cases h : c.args.caseId = caseId <;> simp [callsOf, h]

lemma runAppends_ids (calls : List Call) (caseId : Uuid) :
    (ofCase caseId (runAppends calls)).map AuditEvent.id = (callsOf caseId calls).map Call.id := by
  induction calls using List.reverseRecOn with
  | nil => rfl
  | append_singleton calls c ih =>
    rw [runAppends_snoc, ofCase_append, callsOf_snoc, List.map_append, List.map_append, ih]
    split_ifs <;> simp [newEvent]

lemma runAppends_keys (calls : List Call) (caseId : Uuid) :
    (ofCase caseId (runAppends calls)).map AuditLog.key =
      (callsOf caseId calls).map Call.key := by
  induction calls using List.reverseRecOn with
  | nil => rfl
  | append_singleton calls c ih =>
    rw [runAppends_snoc, ofCase_append, callsOf_snoc, List.map_append, List.map_append, ih]
    split_ifs <;> simp [newEvent, AuditLog.key, Call.key]

lemma fits_newEvent (previous : Option AuditEvent) (a : AppendArgs) (id : Uuid)
    (now : Datetime) : Fits chain (previous.map chain.hash) (newEvent previous a id now) :=
  ⟨rfl, rfl⟩

/-- Every run with the chain enabled grows the log of each case. -/
lemma runAppends_grown {calls : List Call} (hon : ∀ c ∈ calls, c.chainEnabled = true)
    (caseId : Uuid) : Grown chain AuditLog.key (ofCase caseId (runAppends calls)) := by
  induction calls using List.reverseRecOn with
  | nil => exact grown_nil
  | append_singleton calls c ih =>
    have hih := ih fun d hd => hon d (by simp [hd])
    rw [runAppends_snoc, ofCase_append, hon c (by simp)]
    by_cases h : c.args.caseId = caseId
    · rw [if_pos h]
      exact grown_snoc.mpr ⟨hih, fits_newEvent _ _ _ _⟩
    · rw [if_neg h, List.append_nil]
      exact hih

lemma pairwise_key_iff (calls : List Call) (caseId : Uuid) :
    ((ofCase caseId (runAppends calls)).Pairwise fun e f => AuditLog.key e < AuditLog.key f) ↔
      (callsOf caseId calls).Pairwise fun c d => c.key < d.key := by
  rw [← List.pairwise_map, runAppends_keys, List.pairwise_map]

/-- **The clock decides.** After a run of appends the log of a case verifies when the calls
on it drew increasing pairs of time and identifier, and, where the hash is injective, only
then. -/
theorem verify_iff_increasing (calls : List Call) (hon : ∀ c ∈ calls, c.chainEnabled = true)
    (hid : (calls.map Call.id).Nodup) (caseId : Uuid) :
    (((callsOf caseId calls).Pairwise fun c d => c.key < d.key) →
      (verify (list caseId (runAppends calls))).valid = true) ∧
    (Set.InjOn sha256Text (materials (ofCase caseId (runAppends calls))) →
      (verify (list caseId (runAppends calls))).valid = true →
      (callsOf caseId calls).Pairwise fun c d => c.key < d.key) := by
  have hnd : ((ofCase caseId (runAppends calls)).map AuditEvent.id).Nodup := by
    rw [runAppends_ids]
    exact hid.sublist (List.filter_sublist.map _)
  rw [← pairwise_key_iff]
  exact verify_grown (runAppends_grown hon caseId) hnd

/-! ### The setting of the chain -/

lemma key_lt_of_now {c d : Call} (h : c.now < d.now) : c.key < d.key :=
  Prod.Lex.toLex_lt_toLex.mpr (.inl h)

/-- With rising times the log of a case rises in the order in which it was appended. -/
lemma pairwise_of_rising {calls : List Call} {caseId : Uuid}
    (h : (callsOf caseId calls).Pairwise fun c d => c.now < d.now) :
    (ofCase caseId (runAppends calls)).Pairwise fun e f => AuditLog.key e < AuditLog.key f :=
  (pairwise_key_iff calls caseId).mpr (h.imp key_lt_of_now)

lemma ofCase_eq_nil_iff (calls : List Call) (caseId : Uuid) :
    ofCase caseId (runAppends calls) = [] ↔ callsOf caseId calls = [] := by
  have hlength := congrArg List.length (runAppends_keys calls caseId)
  rw [List.length_map, List.length_map] at hlength
  rw [← List.length_eq_zero_iff, ← List.length_eq_zero_iff, hlength]

/-- An event continues a log exactly when it names the last event of the log. -/
lemma fits_lastHash_iff {previous : Option AuditEvent} {a : AppendArgs} {id : Uuid}
    {now : Datetime} (l : List AuditEvent) :
    Fits chain (lastHash chain none l) (newEvent previous a id now) ↔
      previous.map chain.hash = l.getLast?.map chain.hash := by
  rw [lastHash_eq_getLast?]
  exact ⟨fun h => h.1, fun h => h ▸ fits_newEvent previous a id now⟩

/-- **Only a chain that stays switched on is verified.** After a run of appends with rising
times the log of a case is accepted if and only if the chain was enabled in every append to
the case but the first. -/
theorem verify_iff_enabled (calls : List Call) (caseId : Uuid)
    (h : (callsOf caseId calls).Pairwise fun c d => c.now < d.now) :
    (verify (list caseId (runAppends calls))).valid = true ↔
      ∀ c ∈ (callsOf caseId calls).tail, c.chainEnabled = true := by
  have hlist : list caseId (runAppends calls) = ofCase caseId (runAppends calls) :=
    sortByKey_of_pairwise ((pairwise_of_rising h).imp le_of_lt)
  rw [verify_valid, hlist]
  clear hlist
  induction calls using List.reverseRecOn with
  | nil => simp [ofCase, callsOf, Linked]
  | append_singleton calls c ih =>
    rw [callsOf_snoc] at h ⊢
    rw [runAppends_snoc, ofCase_append]
    by_cases hc : c.args.caseId = caseId
    · rw [if_pos hc] at h ⊢
      have hbefore := (List.pairwise_append.mp h).1
      have hlatest : latest caseId (runAppends calls) =
          (ofCase caseId (runAppends calls)).getLast? :=
        argmax_of_pairwise (pairwise_of_rising hbefore)
      rw [if_pos hc, linked_snoc, fits_lastHash_iff]
      refine (and_congr_left' (ih hbefore)).trans ?_
      by_cases hfirst : callsOf caseId calls = []
      · -- the first event of the case names no other
        have hnone := (ofCase_eq_nil_iff calls caseId).mpr hfirst
        simp [hfirst, hlatest, hnone]
      · have hsome : ofCase caseId (runAppends calls) ≠ [] :=
          fun hnil => hfirst ((ofCase_eq_nil_iff calls caseId).mp hnil)
        rw [List.tail_append_of_ne_nil hfirst, List.forall_mem_append, List.forall_mem_singleton,
          List.getLast?_eq_some_getLast hsome]
        refine and_congr_right fun _ => ?_
        cases c.chainEnabled <;> simp [hlatest, List.getLast?_eq_some_getLast hsome]
    · rw [if_neg hc, List.append_nil] at h ⊢
      rw [if_neg hc, List.append_nil]
      exact ih h

section Example

def created : AppendArgs where
  caseId := 1
  eventType := .caseCreated
  resourceType := "case"
  operation := "create"
  resourceId := some (Uuid.str 1)
  actorId := none
  inputHash := none
  outputHash := none
  metadata := none

def updated : AppendArgs := { created with eventType := .caseUpdated, operation := "update" }

def ten : Datetime := ⟨2026, 8, 18, 10, 0, 0, 0, by decide⟩
def eleven : Datetime := ⟨2026, 8, 18, 11, 0, 0, 0, by decide⟩

/-- A creation at ten and an update at eleven. -/
theorem verify_iff_increasing_forward :
    (verify (list 1 (runAppends [⟨true, created, 5, ten⟩, ⟨true, updated, 6, eleven⟩]))).valid =
      true :=
  (verify_iff_increasing _ (by simp) (by decide) 1).1 (by decide)

/-- The clock steps back from eleven to ten between two appends to one case. -/
def clockBack : List Call := [⟨true, created, 5, eleven⟩, ⟨true, updated, 6, ten⟩]

/-- The untouched log is reported as broken at its first event. -/
theorem verify_clockBack :
    (∀ c ∈ clockBack, c.chainEnabled = true) ∧ (clockBack.map Call.id).Nodup ∧
      verify (list 1 (runAppends clockBack)) = ⟨false, 2, some 6⟩ := by
  refine ⟨by simp [clockBack], by decide, ?_⟩
  set first := newEvent none created 5 eleven
  set second := newEvent (some first) updated 6 ten
  have htable : runAppends clockBack = [first, second] := rfl
  have hsorted : list 1 [first, second] = [second, first] := by
    have hof : ofCase 1 [first, second] = [first, second] := rfl
    have hlt : ¬ AuditLog.key first ≤ AuditLog.key second := by decide
    simp [list, hof, sortByKey, List.mergeSort, List.MergeSort.Internal.splitInTwo, hlt]
  have hprev : second.previousHash ≠ none := by simp [second, newEvent]
  rw [htable, hsorted]
  simp [verify, verifyLoop, hprev]
  rfl

/-- The chain is switched on after the first of two appends. -/
theorem verify_iff_enabled_switchedOn : (verify (list 1 (runAppends
    [⟨false, created, 5, ten⟩, ⟨true, updated, 6, eleven⟩]))).valid = true :=
  (verify_iff_enabled _ 1 (by decide)).mpr (by simp [callsOf, created, updated])

/-- The chain is switched off after the first of two appends. -/
def switchedOff : List Call := [⟨true, created, 5, ten⟩, ⟨false, updated, 6, eleven⟩]

/-- The untouched log is reported as broken at its second event. -/
theorem verify_switchedOff :
    (callsOf 1 switchedOff).Pairwise (fun c d => c.now < d.now) ∧
      verify (list 1 (runAppends switchedOff)) = ⟨false, 2, some 6⟩ := by
  refine ⟨by decide, ?_⟩
  set first := newEvent none created 5 ten
  set second := newEvent none updated 6 eleven
  have htable : runAppends switchedOff = [first, second] := rfl
  have hof : ofCase 1 [first, second] = [first, second] := rfl
  have hlist : list 1 [first, second] = [first, second] := by
    refine sortByKey_of_pairwise (l := ofCase 1 [first, second]) ?_
    rw [hof]
    decide
  have hfirst : first.previousHash = none ∧
      first.eventHash = calculateEventHash none (eventContent first) := ⟨rfl, rfl⟩
  have hsecond : second.previousHash = none := rfl
  rw [htable, hlist]
  simp [verify, verifyLoop, hfirst, hsecond]
  rfl

end Example

end WhaleMas.AuditOrder
