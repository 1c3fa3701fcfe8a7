import WhaleMas.SessionRules

/-!
The requests that upload nothing: the deletion of evidence, and the creation and update of a
case. Each commits once, and its commit lets every identifier live on.
-/

namespace WhaleMas.SessionRequests

open WhaleMas.Models WhaleMas.AuditLog WhaleMas.Program WhaleMas.RelyGuarantee
open WhaleMas.Database WhaleMas.Services WhaleMas.EvidenceLife
open WhaleMas.SessionRules WhaleMas.SessionFrame

variable {ι : Type} {S : Setting ι} {i : ι}

/-! ### Deletion -/

/-- Evidence `E` was created in the case. -/
def Seen (S : Setting ι) (caseId E : Uuid) (w : World ι) : Prop :=
  w.owner E ≠ .fresh ∧ (¬ S.old E →
    ∃ e ∈ (view E w).log, e.eventType = .evidenceCreated ∧ e.caseId = some caseId)

/-- Where `marked` is false, the row of `E` has already gone. -/
def Removed (S : Setting ι) (caseId E : Uuid) (marked : Bool) (w : World ι) : Prop :=
  Seen S caseId E w ∧ (marked = false → ¬ S.old E → (view E w).rows = [])

/-- What a deletion has done: it marked the row, if there was one, and appended events. -/
def deletion (E : Uuid) (marked : Bool) (events : List AuditEvent) : Txn where
  deleted := if marked then [E] else []
  events := events

lemma Seen.made {caseId E : Uuid} {w : World ι} (h : Seen S caseId E w) (hold : ¬ S.old E) :
    (view E w).Made := by
  obtain ⟨e, he, ht, -⟩ := h.2 hold
  exact ⟨e, he, ht⟩

lemma knowledge_seen (caseId E : Uuid) : Knowledge (rules S) i (Seen S caseId E) where
  stable := by
    rintro u v ⟨ho, hs⟩ - hr -
    refine ⟨Rely.taken hr E ho, fun hold => ?_⟩
    obtain ⟨e, he, ht⟩ := hs hold
    exact ⟨e, (Rely.grows hr E).subset he, ht⟩
  quiet := by
    rintro w v hq ⟨ho, hs⟩
    exact ⟨by rwa [hq.owner], by rwa [hq.view]⟩
  draw := by
    rintro w u - hu ⟨ho, hs⟩
    have hne : E ≠ u := by
      rintro rfl
      exact ho hu
    exact ⟨by simpa [World.draw, hne] using ho, hs⟩

lemma knowledge_removed (caseId E : Uuid) (marked : Bool) :
    Knowledge (rules S) i (Removed S caseId E marked) where
  stable := by
    rintro u v ⟨hs, hgone⟩ hu hr hv
    exact ⟨(knowledge_seen caseId E).stable u v hs hu hr hv, fun hm hold =>
      Rely.gone hr E (hs.made hold) (hgone hm hold)⟩
  quiet := by
    rintro w v hq ⟨hs, hgone⟩
    exact ⟨(knowledge_seen (i := i) caseId E).quiet w v hq hs, by rwa [hq.view]⟩
  draw := by
    rintro w u hw hu ⟨hs, hgone⟩
    exact ⟨(knowledge_seen (i := i) caseId E).draw w u hw hu hs, hgone⟩

lemma mem_view_rows {u : Uuid} {r : Evidence} {w : World ι} (hr : r ∈ w.evidence)
    (hu : r.id = u) : factsOf r ∈ (view u w).rows :=
  List.mem_map_of_mem (List.mem_filter.mpr ⟨hr, by simpa using hu⟩)

/-- A committed row was created in its case. -/
lemma seen_of_row {r : Evidence} {w : World ι} (hw : Inv S w) (hr : r ∈ w.evidence) :
    Seen S r.caseId r.id w := by
  have hrow := mem_view_rows hr rfl
  have hfresh : w.owner r.id ≠ .fresh := fun h => by
    rw [(hw.blank r.id h).1] at hrow
    cases hrow
  refine ⟨hfresh, fun hold => ?_⟩
  cases ho : w.owner r.id with
  | fresh => exact absurd ho hfresh
  | old => exact absurd ((hw.old r.id).mp ho) hold
  | drawn j =>
    obtain ⟨hfull, -⟩ := (hw.life r.id j ho).of_row hrow
    obtain ⟨s, h, st, c, hl, -, -, -, hc, -⟩ := hfull.events
    exact ⟨c, by simp [hl], hc.2, hc.1⟩

/-- The session has drawn `u`, and nothing is known of it yet. -/
def Unborn (i : ι) (u : Uuid) (w : World ι) : Prop := w.owner u = .drawn i ∧ view u w = View.blank

/-- The arguments of the event of a creation. -/
def creationEvent (row : Case) (createdBy : Option String) : AppendArgs where
  caseId := row.id
  eventType := .caseCreated
  resourceType := "case"
  operation := "create"
  resourceId := some row.id.str
  actorId := createdBy
  inputHash := none
  outputHash := none
  metadata := some (caseNoMetadata row.caseNo)

lemma knowledge_unborn (u : Uuid) : Knowledge (rules S) i (Unborn i u) where
  stable := by
    rintro w v ⟨ho, hv⟩ - hr -
    refine ⟨(Rely.owner hr u).mpr ho, ?_⟩
    rw [Rely.own hr u ho (.inl (hv ▸ View.open_blank)), hv]
  quiet := by
    rintro w v hq ⟨ho, hv⟩
    exact ⟨by rwa [hq.owner], by rwa [hq.view]⟩
  draw := by
    rintro w x - hx ⟨ho, hv⟩
    exact ⟨owner_draw hx ho, hv⟩

variable [DecidableEq ι]

/-- The arguments of the event of a deletion. -/
def deletionEvent (caseId E : Uuid) (sha256 : String) : AppendArgs where
  caseId := caseId
  eventType := .evidenceDeleted
  resourceType := "evidence"
  operation := "delete"
  resourceId := some E.str
  actorId := none
  inputHash := some sha256
  outputHash := none
  metadata := none

lemma txnView_deletion {caseId E : Uuid} {sha256 : String} {marked : Bool}
    {p : Option AuditEvent} {id : Uuid} {now : Datetime} (u : Uuid) :
    txnView u (deletion E marked [newEvent p (deletionEvent caseId E sha256) id now]) =
      if u = E then ⟨[newEvent p (deletionEvent caseId E sha256) id now], [], [], []⟩
      else View.blank := by
  have hlog : evidenceLog u [newEvent p (deletionEvent caseId E sha256) id now] =
      if u = E then [newEvent p (deletionEvent caseId E sha256) id now] else [] :=
    evidenceLog_newEvent rfl rfl u
  have hcre : creations u [newEvent p (deletionEvent caseId E sha256) id now] = [] :=
    creations_other (by simp [deletionEvent]) u
  by_cases hu : u = E
  · subst hu
    simp [txnView, viewOf, deletion, hlog, hcre]
  · simp [txnView, viewOf, deletion, hlog, hcre, hu, View.blank]

lemma keeps_commit_deletion {caseId E : Uuid} {sha256 : String} {marked : Bool} {w : World ι}
    {p : Option AuditEvent} {id : Uuid} {now : Datetime} (hc : ¬ S.clean) (hw : Inv S w)
    (hat : At i (deletion E marked [newEvent p (deletionEvent caseId E sha256) id now])
      (Removed S caseId E marked) w) : Keeps (rules S) i w (w.commit i) := by
  obtain ⟨⟨htaken, hmade⟩, hgone⟩ := hat.2
  have hview : view E (w.commit i) =
      (view E w).add marked ⟨[newEvent p (deletionEvent caseId E sha256) id now], [], [], []⟩ := by
    rw [view_commit, hat.txnView, hat.txn_deleted, txnView_deletion, if_pos rfl]
    congr 1
    cases marked <;> simp [deletion]
  refine keeps_commit hw (fun u => ?_) (by simp [hat.txn_evidence, deletion]) (fun h => absurd h hc)
  by_cases hu : u = E
  · subst hu
    refine .inr ⟨htaken, fun hold => ?_, fun j _ hj => ?_, fun _ hr => ?_⟩
    · rw [hview]
      have hdrawn : ∃ j, w.owner u = .drawn j := by
        cases ho : w.owner u with
        | fresh => exact absurd ho htaken
        | old => exact absurd ((hw.old u).mp ho) hold
        | drawn j => exact ⟨j, rfl⟩
      obtain ⟨j, hj⟩ := hdrawn
      exact (hw.life u j hj).delete (hmade hold) ⟨rfl, rfl⟩ fun hm => hgone hm hold
    · have hold : ¬ S.old u := fun h => by
        rw [(hw.old u).mpr h] at hj
        cases hj
      obtain ⟨e, he, ht, -⟩ := hmade hold
      exact ⟨fun ho => ho.1 ⟨e, he, ht⟩, hc⟩
    · rw [hview]
      simp [View.add, hr]
  · refine .inl ⟨?_, ?_⟩
    · rw [hat.txn_deleted]
      cases marked <;> simp [deletion, hu]
    · rw [hat.txnView, txnView_deletion, if_neg hu]

lemma keeps_commit_creation {row : Case} {createdBy : Option String} {w : World ι}
    {p : Option AuditEvent} {id : Uuid} {now : Datetime} (hc : ¬ S.clean) (hw : Inv S w)
    (hat : At i { cases := [row], events := [newEvent p (creationEvent row createdBy) id now] }
      (Unborn i row.id) w) : Keeps (rules S) i w (w.commit i) := by
  obtain ⟨howner, hblank⟩ := hat.2
  have hlog : ∀ u, evidenceLog u [newEvent p (creationEvent row createdBy) id now] = [] :=
    evidenceLog_other (by simp [creationEvent])
  have hcre : ∀ u, creations u [newEvent p (creationEvent row createdBy) id now] =
      if u = row.id then [newEvent p (creationEvent row createdBy) id now] else [] :=
    creations_newEvent rfl
  refine keeps_commit hw (fun u => ?_) (by simp [hat.txn_evidence]) (fun h => absurd h hc)
  by_cases hu : u = row.id
  · subst hu
    have hview : view row.id (w.commit i) = ⟨[], [], [row.caseNo],
        [newEvent p (creationEvent row createdBy) id now]⟩ := by
      rw [view_commit, hat.txnView, hat.txn_deleted, hblank]
      simp [View.add, View.blank, txnView, viewOf, hlog, hcre]
    refine .inr ⟨by simp [howner], fun _ => ?_, fun j hj h => ?_, fun _ _ => ?_⟩
    · rw [hview]
      exact .case rfl
    · rw [howner] at h
      exact absurd (Owner.drawn.inj h).symm hj
    · rw [hview]
  · refine .inl ⟨by simp [hat.txn_deleted], ?_⟩
    have hne : row.id ≠ u := Ne.symm hu
    rw [hat.txnView]
    simp [txnView, viewOf, hlog, hcre, View.blank, hu, hne]

/-- The arguments of the event of an update. -/
def updateEvent (row : Case) (changes : CaseUpdate) : AppendArgs where
  caseId := row.id
  eventType := .caseUpdated
  resourceType := "case"
  operation := "update"
  resourceId := some row.id.str
  actorId := none
  inputHash := none
  outputHash := none
  metadata := some (changedFieldsMetadata changes)

lemma keeps_commit_update {updates : List (Uuid × CaseColumns)} {row : Case}
    {changes : CaseUpdate} {w : World ι} {p : Option AuditEvent} {id : Uuid} {now : Datetime}
    (hc : ¬ S.clean) (hw : Inv S w)
    (hat : At i { updates := updates, events := [newEvent p (updateEvent row changes) id now] }
      (fun _ => True) w) :
    Keeps (rules S) i w (w.commit i) := by
  refine keeps_commit hw (fun u => .inl ⟨by simp [hat.txn_deleted], ?_⟩)
    (by simp [hat.txn_evidence]) (fun h => absurd h hc)
  rw [hat.txnView]
  simp only [txnView, viewOf, evidenceLog_other (a := updateEvent row changes)
    (by simp [updateEvent]), creations_other (a := updateEvent row changes)
    (by simp [updateEvent])]
  rfl

variable [Fintype ι] {hashtext : String → ℤ}

lemma triple_getEvidence (caseId E : Uuid) :
    ETriple (machine hashtext) (rules S) i (At i {} fun _ => True)
      (call (.getEvidence caseId E))
      (fun r w => ∀ e ∈ r, e.id = E ∧ At i {} (Seen S caseId E) w) (fun _ _ => True) := by
  refine etriple_any (triple_look knowledge_true (by simp) fun w c r v hw hat hx => ?_)
  obtain ⟨rfl, rfl⟩ := Prod.mk.inj (Option.some.inj hx)
  refine ⟨rfl, _, rfl, fun e he => ?_⟩
  have hmem := List.mem_of_find?_eq_some he
  have hid := List.find?_some he
  simp only [Bool.decide_and, Bool.and_eq_true, decide_eq_true_eq] at hid
  obtain ⟨rfl, rfl⟩ := hid
  have hcom : e ∈ w.evidence := by
    simpa [World.evidenceFor, hat.txn_evidence, hat.txn_deleted] using hmem
  exact ⟨rfl, hat.1, seen_of_row hw hcom⟩

/-- A deletion takes the object away first. -/
lemma triple_deleteObject {G : World ι → Prop} {T : Txn} (hc : ¬ S.clean) (hi : ¬ S.isUpload i)
    (hG : Knowledge (rules S) i G) (hobj : ∀ w k, G w → G (w.setObject k none)) (key : String) :
    ETriple (machine hashtext) (rules S) i (At i T G) (call (.deleteObject key))
      (fun _ => At i T G) (fun _ _ => True) := by
  refine triple_exec (stable_at hG.stable) (fun _ _ _ _ _ h => absurd h hi) ?_
    fun _ _ _ _ _ _ _ => trivial
  intro w c r v hw hat _ hx
  obtain ⟨rfl, rfl⟩ := Prod.mk.inj (Option.some.inj hx)
  have hkeeps : Keeps (rules S) i w (w.setObject key none) := keeps_deleteObject hw hc
  exact ⟨hkeeps.1, hkeeps.2, ⟨hat.1, hobj w key hat.2⟩, fun _ _ => trivial⟩

/-- The row is marked, or it has gone before. -/
lemma triple_deleteEvidence (hc : ¬ S.clean) (caseId E : Uuid) :
    ETriple (machine hashtext) (rules S) i (At i {} (Seen S caseId E))
      (call (.deleteEvidence E))
      (fun _ w => ∃ marked : Bool, At i (deletion E marked [])
        (Removed S caseId E marked) w) (fun _ _ => True) := by
  refine etriple_any (triple_step (knowledge_seen caseId E) (by simp) fun w c r v hw _ hat hx => ?_)
  simp only [exec, execDeleteEvidence] at hx
  split_ifs at hx with _ hrow
  · obtain ⟨rfl, rfl⟩ := Prod.mk.inj (Option.some.inj hx)
    have hs := (knowledge_seen (i := i) caseId E).setTxn hat.2
    refine ⟨keeps_quiet hw quiet_setTxn fun h => absurd h hc, hs _, true, ?_, hs _, by simp⟩
    rw [setTxn_txn, hat.txn]
    rfl
  · obtain ⟨rfl, rfl⟩ := Prod.mk.inj (Option.some.inj hx)
    refine ⟨.refl hw, hat.2, false, hat.1, hat.2, fun _ _ => ?_⟩
    have hnone : ∀ r ∈ w.evidence, r.id ≠ E := by
      intro r hr hid
      refine hrow ⟨r, ?_, hid⟩
      simpa [World.evidenceFor, hat.txn_evidence, hat.txn_deleted] using hr
    simpa [view, viewOf] using hnone

/-- The commit that ends a request. -/
lemma triple_commit_last {G : World ι → Prop} {T : Txn} (hG : Knowledge (rules S) i G)
    (hcommit : ∀ w, Inv S w → At i T G w → Keeps (rules S) i w (w.commit i)) :
    ETriple (machine hashtext) (rules S) i (At i T G) (call .commit) (fun _ _ => True)
      (fun _ _ => True) := by
  refine etriple_any (etriple_conseq (triple_commit (H := fun _ => True) hG fun w hw hat => ?_)
    (fun _ _ h => h) (fun _ _ _ _ => trivial) fun _ _ _ h => h)
  exact ⟨hcommit w hw hat, trivial⟩

lemma triple_getEvidenceService (hc : ¬ S.clean) (self : EvidenceService) (caseId E : Uuid) :
    ETriple (machine hashtext) (rules S) i (At i {} fun _ => True) (self.getEvidence caseId E)
      (fun e w => e.id = E ∧ At i {} (Seen S caseId E) w) (fun _ _ => True) := by
  refine etriple_bind (etriple_any (triple_requireCase knowledge_true caseId
    fun h => absurd h hc)) fun _ => ?_
  refine etriple_bind (triple_getEvidence caseId E) fun r => ?_
  cases r with
  | none => exact etriple_throw fun _ _ _ => trivial
  | some e => exact etriple_pure fun w _ h => h e rfl

lemma triple_delete (hc : ¬ S.clean) (hi : ¬ S.isUpload i) (self : EvidenceService)
    (caseId E : Uuid) :
    ETriple (machine hashtext) (rules S) i (At i {} fun _ => True) (self.deleteEvidence caseId E)
      (fun _ _ => True) (fun _ _ => True) := by
  refine etriple_bind (triple_getEvidenceService hc self caseId E) fun e => ?_
  refine triple_and ?_
  rintro rfl
  refine etriple_bind (triple_deleteObject hc hi (knowledge_seen caseId e.id)
    (fun _ _ h => h) e.objectKey) fun _ => ?_
  refine etriple_bind (triple_deleteEvidence hc caseId e.id) fun _ => ?_
  refine triple_exists fun marked => ?_
  refine etriple_bind (etriple_any (triple_append (knowledge_removed caseId e.id marked)
    self.auditService (deletionEvent caseId e.id e.sha256) fun h => absurd h hc)) fun d => ?_
  refine triple_and ?_
  rintro ⟨p, id, now, rfl⟩
  exact triple_commit_last (knowledge_removed caseId e.id marked)
    fun w hw hat => keeps_commit_deletion hc hw hat

/-! ### Creation -/

lemma triple_createCase (hc : ¬ S.clean) (row : Datetime → Case) (u : Uuid)
    (hrow : ∀ now, (row now).id = u) :
    ETriple (machine hashtext) (rules S) i (At i {} (Unborn i u)) (call (.createCase row))
      (fun r w => r.id = u ∧ At i { cases := [r] } (Unborn i u) w) (fun _ _ => True) := by
  refine etriple_any (triple_step (knowledge_unborn u) (by simp) fun w c r v hw _ hat hx => ?_)
  simp only [exec, execCreateCase] at hx
  split_ifs at hx
  · obtain ⟨rfl, rfl⟩ := Prod.mk.inj (Option.some.inj hx)
    exact ⟨.refl hw, hat.2, hc, hat.2⟩
  · obtain ⟨rfl, rfl⟩ := Prod.mk.inj (Option.some.inj hx)
    have hg := (knowledge_unborn (S := S) u).setTxn hat.2
    refine ⟨keeps_setTxn hw (.inr rfl) (.inr rfl), hg _, hrow _, ?_, hg _⟩
    rw [setTxn_txn, hat.txn]
    rfl

lemma triple_create (hc : ¬ S.clean) (self : CaseService) (data : CaseCreate) :
    ETriple (machine hashtext) (rules S) i (At i {} fun _ => True) (self.createCase data)
      (fun _ _ => True) (fun _ _ => True) := by
  have hsequence : ETriple (machine hashtext) (rules S) i (At i {} fun _ => True)
      (call .nextSequenceValue) (fun n w => 1 ≤ n ∧ At i {} (fun _ => True) w)
      (fun _ _ => True) := by
    refine etriple_any (triple_step knowledge_true (by simp) fun w c r v hw _ hat hx => ?_)
    obtain ⟨rfl, rfl⟩ := Prod.mk.inj (Option.some.inj hx)
    refine ⟨Frame.quiet _ _ hw ⟨rfl, rfl, rfl, rfl, rfl, fun _ _ => rfl⟩ (.inr rfl) (.inr rfl),
      trivial, ?_, hat⟩
    exact Nat.le_add_left 1 _
  refine etriple_bind hsequence fun sequence => ?_
  refine triple_and fun hpos => ?_
  refine etriple_bind (etriple_any (triple_now knowledge_true)) fun current => ?_
  have hnot : ¬ sequence < 1 := Nat.not_lt.mpr hpos
  simp only [hnot, if_false]
  refine etriple_bind (etriple_any (triple_uuid4 (H := fun u => Unborn i u) knowledge_true
    fun w u hw hu _ => ⟨by simp [World.draw], (hw.blank u hu).1⟩)) fun u => ?_
  refine etriple_bind (triple_createCase hc _ u fun _ => rfl) fun (row : Case) => ?_
  refine triple_and ?_
  rintro rfl
  refine etriple_bind (etriple_any (triple_append (knowledge_unborn row.id) self.auditService
    (creationEvent row data.createdBy) fun h => absurd h hc)) fun e => ?_
  refine triple_and ?_
  rintro ⟨p, id, now, rfl⟩
  refine etriple_bind (triple_commit_last (knowledge_unborn row.id)
    fun w hw hat => keeps_commit_creation hc hw hat) fun _ => ?_
  exact etriple_pure fun _ _ _ => trivial

/-! ### Update -/

lemma triple_flushCase (hc : ¬ S.clean) (case : Case) (changes : CaseUpdate) :
    ETriple (machine hashtext) (rules S) i (At i {} fun _ => True) (flushCase case changes)
      (fun _ w => ∃ updates, At i { updates := updates } (fun _ => True) w)
      (fun _ _ => True) := by
  have hflush : ETriple (machine hashtext) (rules S) i (At i {} fun _ => True)
      (call (.flushCase case changes))
      (fun _ w => ∃ updates, At i { updates := updates } (fun _ => True) w)
      (fun _ _ => True) := by
    refine etriple_any (triple_step knowledge_true (by simp) fun w c r v hw _ hat hx => ?_)
    obtain ⟨-, rfl, rfl⟩ | ⟨columns, -, ⟨-, rfl, rfl⟩ | ⟨-, rfl, rfl⟩ | ⟨-, rfl, rfl⟩⟩ :=
      execFlushCase_cases hx
    · exact ⟨.refl hw, trivial, hc, trivial⟩
    · exact ⟨.refl hw, trivial, [], hat⟩
    · exact ⟨.refl hw, trivial, hc, trivial⟩
    · refine ⟨keeps_setTxn hw (.inr rfl) (.inr rfl), trivial, [(case.id, columns)], ?_, trivial⟩
      rw [setTxn_txn, hat.txn]
      rfl
  refine etriple_bind hflush fun (_ : Unit) => ?_
  refine triple_exists fun updates => ?_
  refine etriple_any (triple_step knowledge_true (by simp) fun w c r v hw _ hat hx => ?_)
  obtain ⟨rfl, ⟨row, -, rfl⟩ | ⟨-, rfl⟩⟩ := execRefreshCase_cases hx
  · exact ⟨.refl hw, trivial, updates, hat⟩
  · exact ⟨.refl hw, trivial, hc, trivial⟩

lemma triple_update (hc : ¬ S.clean) (self : CaseService) (caseId : Uuid) (data : CaseUpdate) :
    ETriple (machine hashtext) (rules S) i (At i {} fun _ => True) (self.updateCase caseId data)
      (fun _ _ => True) (fun _ _ => True) := by
  have hget : ETriple (machine hashtext) (rules S) i (At i {} fun _ => True) (self.getCase caseId)
      (fun _ => At i {} fun _ => True) (fun _ _ => True) := by
    refine etriple_bind (etriple_any (triple_getCase knowledge_true caseId
      fun h => absurd h hc)) fun r => ?_
    cases r with
    | none => exact etriple_throw fun _ _ _ => trivial
    | some c => exact etriple_pure fun _ _ h => h.1
  refine etriple_bind hget fun case => ?_
  refine etriple_bind (triple_flushCase hc case data) fun row => ?_
  refine triple_exists fun updates => ?_
  refine etriple_bind (etriple_any (triple_append knowledge_true self.auditService
    (updateEvent row data) fun h => absurd h hc)) fun e => ?_
  refine triple_and ?_
  rintro ⟨p, id, now, rfl⟩
  refine etriple_bind (triple_commit_last knowledge_true
    fun w hw hat => keeps_commit_update hc hw hat) fun _ => ?_
  exact etriple_pure fun _ _ _ => trivial

end WhaleMas.SessionRequests
