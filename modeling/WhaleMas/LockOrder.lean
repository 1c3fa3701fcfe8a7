import WhaleMas.SessionFrame

/-!
The order in which requests take what others may wait for.

A call may wait for the advisory lock of a case, or for a row that another session has changed
and not committed. Every transaction changes its rows first and takes the lock of its one case
afterwards: a call that may wait for a row is made with nothing in hand, and a call for a lock
with no other lock.
-/

namespace WhaleMas.LockOrder

open WhaleMas.Models WhaleMas.AuditLog WhaleMas.Program WhaleMas.RelyGuarantee
open WhaleMas.Database WhaleMas.Services WhaleMas.EvidenceLife WhaleMas.SessionFrame

/-! ### What a session may hold when it calls -/

/-- Nothing that others could wait for. -/
structure Settled (t : Txn) : Prop where
  locks : t.locks = []
  cases : t.cases = []
  updates : t.updates = []
  evidence : t.evidence = []
  deleted : t.deleted = []

def Unlocked (t : Txn) : Prop := t.locks = []

/-- No lock but `k`. -/
def Holds (k : ℤ) (t : Txn) : Prop := ∀ l ∈ t.locks, l = k

/-- The calls that may wait for a row. -/
def RowCall : Op → Prop
  | .createCase _ => True
  | .flushCase _ _ => True
  | .createEvidence _ => True
  | .deleteEvidence _ => True
  | _ => False

section Rules

variable {ι : Type} (hashtext : String → ℤ)

/-- A call that may wait for a row is made with nothing in hand, and one for the lock of a case
with no other lock. -/
def Demand (w : World ι) (i : ι) (o : Op) : Prop :=
  (RowCall o → Settled (w.txn i)) ∧
    ∀ caseId, o = .lockCaseChain caseId → Holds (hashtext caseId.str) (w.txn i)

/-- No two sessions have the same lock. -/
def Exclusive (w : World ι) : Prop :=
  ∀ i j, j ≠ i → ∀ k ∈ (w.txn i).locks, k ∉ (w.txn j).locks

def rules : Rules ι (World ι) Choice Op where
  inv := Exclusive
  rely := fun i w v => v.txn i = w.txn i
  demand := Demand hashtext
  policy := fun _ _ _ _ => True
  refl := fun _ _ => rfl
  trans := fun _ _ _ _ h h' => h'.trans h

variable {hashtext} {i : ι} {T H : Txn → Prop} {w v : World ι}

/-- What session `i` knows of its transaction. -/
def Own (i : ι) (T : Txn → Prop) (w : World ι) : Prop := T (w.txn i)

lemma stable_own : Stable (rules hashtext) i (Own i T) := by
  intro u v h _ hr _
  change T (v.txn i)
  rw [show v.txn i = u.txn i from hr]
  exact h

lemma Unlocked.holds {t : Txn} (h : Unlocked t) (k : ℤ) : Holds k t := by
  intro l hl
  rw [h] at hl
  cases hl

lemma settled_empty : Settled {} := ⟨rfl, rfl, rfl, rfl, rfl⟩

variable [DecidableEq ι]

lemma exclusive_of_locks (h : Exclusive w) (hothers : ∀ j, j ≠ i → v.txn j = w.txn j)
    (hlocks : ∀ k ∈ (v.txn i).locks, k ∈ (w.txn i).locks ∨ ∀ j, j ≠ i → k ∉ (w.txn j).locks) :
    Exclusive v := by
  have hfree : ∀ j, j ≠ i → ∀ k ∈ (v.txn i).locks, k ∉ (w.txn j).locks := by
    intro j hj k hk
    rcases hlocks k hk with hk | hk
    · exact h i j hj k hk
    · exact hk j hj
  refine pairwise_txn (R := fun t t' => ∀ k ∈ t.locks, k ∉ t'.locks) (txn_eq_update hothers)
    (fun j hj => ⟨hfree j hj, fun k hk hk' => hfree j hj k hk' hk⟩) h

variable [Fintype ι]

/-- A call leaves the session its locks, takes a free one, or gives all back. -/
lemma exec_locks {o : Op} {c : Choice} {r : Answer o}
    (hx : exec hashtext o i c w = some (r, v)) :
    ∀ k ∈ (v.txn i).locks, k ∈ (w.txn i).locks ∨ ∀ j, j ≠ i → k ∉ (w.txn j).locks := by
  intro k hk
  by_cases ho : ∃ caseId, o = .lockCaseChain caseId
  · obtain ⟨caseId, rfl⟩ := ho
    simp only [exec] at hx
    split_ifs at hx with hwait
    obtain ⟨-, rfl⟩ := Prod.mk.inj (Option.some.inj hx)
    push Not at hwait
    rw [setTxn_txn] at hk
    rcases List.mem_cons.mp hk with rfl | hk
    · exact .inr hwait
    · exact .inl hk
  · left
    obtain ⟨heffect, -⟩ := exec_effect hx
    cases heffect with
    | lockCaseChain caseId k => exact absurd ⟨caseId, rfl⟩ ho
    | commit =>
      rw [commit_txn] at hk
      cases hk
    | rollback | close =>
      rw [setTxn_txn] at hk
      cases hk
    | appendEvent => rwa [insertEvent_txn] at hk
    | createCase | flushCase | createEvidence | deleteEvidence => rwa [setTxn_txn] at hk
    | nothing | nextSequenceValue | putObject | deleteObject | uuid4 => exact hk

/-! ### Calls -/

/-- A call that takes the transaction from `T` to `H`. -/
lemma triple_op {o : Op} (hdemand : ∀ w, Own i T w → Demand hashtext w i o)
    (hexec : ∀ w c r v, Own i T w → exec hashtext o i c w = some (r, v) → Own i H v) :
    ETriple (machine hashtext) (rules hashtext) i (Own i T) (call o) (fun _ => Own i H)
      (fun _ w => Own i T w ∨ Own i H w) := by
  refine triple_exec stable_own (fun w _ h => hdemand w h) (fun w c r v hw h _ hx => ?_)
    fun w c e _ h _ _ => .inl h
  have hothers : ∀ j, j ≠ i → v.txn j = w.txn j := fun j hj => (exec_effect hx).1.others hj
  have hpost := hexec w c r v h hx
  refine ⟨exclusive_of_locks hw hothers (exec_locks hx), hothers, ?_, fun _ _ => .inr hpost⟩
  cases r with
  | ok a => exact hpost
  | error e => exact .inr hpost

/-- The calls that leave the transaction as it is. -/
def Plain : Op → Prop
  | .getCase _ | .nextSequenceValue | .refreshCase _ | .latest _ | .getEvidence _ _
  | .getByHash _ _ | .putObject _ _ _ | .deleteObject _ | .uuid4 | .now | .localCall _ => True
  | _ => False

lemma triple_plain {o : Op} (ho : Plain o) :
    ETriple (machine hashtext) (rules hashtext) i (Own i T) (call o) (fun _ => Own i T)
      (fun _ => Own i T) := by
  refine etriple_error (triple_op (H := T) (fun w _ => ?_) fun w c r v h hx => ?_)
    fun _ _ _ h => h.elim id id
  · cases o <;> first | exact absurd ho id | exact ⟨fun h => h.elim, by simp⟩
  · have hsame : v.txn i = w.txn i := by
      obtain ⟨heffect, -⟩ := exec_effect hx
      cases heffect <;> first | rfl | exact absurd ho id
    change T (v.txn i)
    rw [hsame]
    exact h

lemma triple_lockCaseChain (caseId : Uuid) :
    ETriple (machine hashtext) (rules hashtext) i (Own i (Holds (hashtext caseId.str)))
      (call (.lockCaseChain caseId)) (fun _ => Own i (Holds (hashtext caseId.str)))
      (fun _ _ => True) := by
  refine etriple_any (triple_op (H := Holds (hashtext caseId.str)) (fun w h => ?_)
    fun w c r v h hx => ?_)
  · exact ⟨fun h => h.elim, fun c hc => by rw [← Op.lockCaseChain.inj hc]; exact h⟩
  · simp only [exec] at hx
    split_ifs at hx
    obtain ⟨-, rfl⟩ := Prod.mk.inj (Option.some.inj hx)
    simpa [Own, Holds] using h

lemma triple_appendEvent (e : AuditEvent) (k : ℤ) :
    ETriple (machine hashtext) (rules hashtext) i (Own i (Holds k)) (call (.appendEvent e))
      (fun _ => Own i (Holds k)) (fun _ _ => True) := by
  refine etriple_any (triple_op (H := Holds k) (fun w h => ⟨fun h => h.elim, by simp⟩)
    fun w c r v h hx => ?_)
  obtain ⟨heffect, -⟩ := exec_effect hx
  cases heffect with
  | nothing => exact h
  | appendEvent => simpa [Own, Holds] using h

/-- A call for a row leaves the session with rows, and without a lock. -/
lemma triple_rowCall {o : Op} (ho : RowCall o) :
    ETriple (machine hashtext) (rules hashtext) i (Own i Settled) (call o)
      (fun _ => Own i Unlocked) (fun _ _ => True) := by
  refine etriple_any (triple_op (H := Unlocked) (fun w h => ⟨fun _ => h, ?_⟩)
    fun w c r v h hx => ?_)
  · rintro caseId rfl
    exact ho.elim
  · have hlocks : (v.txn i).locks = (w.txn i).locks := by
      obtain ⟨heffect, -⟩ := exec_effect hx
      cases heffect <;> first | rfl | exact ho.elim | rw [setTxn_txn]
    exact hlocks.trans h.locks

/-- A commit and a rollback leave nothing in hand. -/
lemma triple_end {o : Op} (ho : o = .commit ∨ o = .rollback) :
    ETriple (machine hashtext) (rules hashtext) i (Own i T) (call o) (fun _ => Own i Settled)
      (fun _ _ => True) := by
  refine etriple_any (triple_op (H := Settled) (fun w _ => ?_) fun w c r v _ hx => ?_)
  · rcases ho with rfl | rfl <;> exact ⟨fun h => h.elim, by simp⟩
  · change Settled (v.txn i)
    rcases ho with rfl | rfl <;> obtain ⟨-, rfl⟩ := Prod.mk.inj (Option.some.inj hx)
    · rw [commit_txn]
      exact settled_empty
    · rw [setTxn_txn]
      exact settled_empty

/-! ### Requests -/

lemma triple_append (self : AuditService) (a : AppendArgs) :
    ETriple (machine hashtext) (rules hashtext) i (Own i (Holds (hashtext a.caseId.str)))
      (self.append a) (fun _ => Own i (Holds (hashtext a.caseId.str))) (fun _ _ => True) :=
  triple_append_of (triple_lockCaseChain a.caseId)
    (etriple_any (triple_plain trivial)) (etriple_any (triple_plain trivial))
    (fun _ => etriple_any (triple_plain trivial)) fun _ _ _ => triple_appendEvent _ _

/-- An append without a lock. -/
lemma triple_append_first (self : AuditService) (a : AppendArgs) :
    ETriple (machine hashtext) (rules hashtext) i (Own i Unlocked) (self.append a)
      (fun _ => Own i (Holds (hashtext a.caseId.str))) (fun _ _ => True) :=
  etriple_conseq (triple_append self a) (fun _ _ h => Unlocked.holds h _) (fun _ _ _ h => h)
    fun _ _ _ h => h

lemma triple_ofExcept {α : Type} (r : Except DomainError α) :
    ETriple (machine hashtext) (rules hashtext) i (Own i T) (ofExcept r) (fun _ => Own i T)
      (fun _ _ => True) := by
  cases r with
  | ok a => exact etriple_pure fun _ _ h => h
  | error e => exact etriple_throw fun _ _ _ => trivial

lemma triple_requireCase (caseId : Uuid) :
    ETriple (machine hashtext) (rules hashtext) i (Own i T) (requireCase caseId)
      (fun _ => Own i T) (fun _ _ => True) := by
  refine etriple_bind (etriple_any (triple_plain (o := .getCase caseId) trivial)) fun r => ?_
  cases r with
  | none => exact etriple_throw fun _ _ _ => trivial
  | some c => exact etriple_pure fun _ _ h => h

lemma triple_createCase (self : CaseService) (data : CaseCreate) :
    ETriple (machine hashtext) (rules hashtext) i (Own i Settled) (self.createCase data)
      (fun _ _ => True) (fun _ _ => True) := by
  refine etriple_bind (etriple_any (triple_plain (o := .nextSequenceValue) trivial))
    fun sequence => ?_
  refine etriple_bind (etriple_any (triple_plain (o := .now) trivial)) fun current => ?_
  by_cases hsequence : sequence < 1
  · simp only [hsequence, if_true]
    exact etriple_bind (etriple_throw (Q := fun _ _ => False) fun _ _ _ => trivial)
      fun _ => fun _ _ h => h.elim
  simp only [hsequence, if_false]
  refine etriple_bind (etriple_any (triple_plain (o := .uuid4) trivial)) fun id => ?_
  refine etriple_bind (triple_rowCall trivial) fun (case : Case) => ?_
  refine etriple_bind (triple_append_first self.auditService _) fun _ => ?_
  refine etriple_bind (triple_end (.inl rfl)) fun _ => ?_
  exact etriple_pure fun _ _ _ => trivial

lemma triple_updateCase (self : CaseService) (caseId : Uuid) (data : CaseUpdate) :
    ETriple (machine hashtext) (rules hashtext) i (Own i Settled) (self.updateCase caseId data)
      (fun _ _ => True) (fun _ _ => True) := by
  have hget : ETriple (machine hashtext) (rules hashtext) i (Own i Settled) (self.getCase caseId)
      (fun _ => Own i Settled) (fun _ _ => True) := by
    refine etriple_bind (etriple_any (triple_plain (o := .getCase caseId) trivial)) fun r => ?_
    cases r with
    | none => exact etriple_throw fun _ _ _ => trivial
    | some c => exact etriple_pure fun _ _ h => h
  refine etriple_bind hget fun case => ?_
  have hflush : ETriple (machine hashtext) (rules hashtext) i (Own i Settled)
      (flushCase case data) (fun _ => Own i Unlocked) fun _ _ => True :=
    etriple_bind (triple_rowCall (o := .flushCase case data) trivial)
      fun _ => etriple_any (triple_plain trivial)
  refine etriple_bind hflush fun (row : Case) => ?_
  refine etriple_bind (triple_append_first self.auditService _) fun _ => ?_
  refine etriple_bind (triple_end (.inl rfl)) fun _ => ?_
  exact etriple_pure fun _ _ _ => trivial

lemma triple_deleteEvidence (self : EvidenceService) (caseId evidenceId : Uuid) :
    ETriple (machine hashtext) (rules hashtext) i (Own i Settled)
      (self.deleteEvidence caseId evidenceId) (fun _ _ => True) (fun _ _ => True) := by
  have hget : ETriple (machine hashtext) (rules hashtext) i (Own i Settled)
      (self.getEvidence caseId evidenceId) (fun _ => Own i Settled) (fun _ _ => True) := by
    refine etriple_bind (triple_requireCase caseId) fun _ => ?_
    refine etriple_bind (etriple_any (triple_plain (o := .getEvidence caseId evidenceId) trivial))
      fun r => ?_
    cases r with
    | none => exact etriple_throw fun _ _ _ => trivial
    | some e => exact etriple_pure fun _ _ h => h
  refine etriple_bind hget fun evidence => ?_
  refine etriple_bind (etriple_any (triple_plain (o := .deleteObject evidence.objectKey) trivial))
    fun _ => ?_
  refine etriple_bind (triple_rowCall (o := .deleteEvidence evidence.id) trivial) fun _ => ?_
  refine etriple_bind (triple_append_first self.auditService _) fun _ => ?_
  exact etriple_conseq (triple_end (.inl rfl)) (fun _ _ h => h) (fun _ _ _ _ => trivial)
    fun _ _ _ h => h

/-! ### The upload -/

lemma triple_receiveUpload (self : EvidenceService) (caseId evidenceId : Uuid)
    (upload : UploadFile) (createdBy : Option String) :
    ETriple (machine hashtext) (rules hashtext) i (Own i Settled)
      (receiveUpload self caseId evidenceId upload createdBy) (fun _ => Own i Settled)
      (fun _ _ => True) := by
  have hlocal : ∀ c, ETriple (machine hashtext) (rules hashtext) i (Own i Settled)
      (call (.localCall c)) (fun _ => Own i Settled) (fun _ _ => True) :=
    fun c => etriple_any (triple_plain trivial)
  refine etriple_bind (triple_readUpload_of hlocal upload.chunks 0 []
    fun n _ _ => triple_ofExcept _) fun ⟨size, content⟩ => ?_
  refine triple_and fun _ => ?_
  refine etriple_bind (hlocal .closeTemp) fun _ => ?_
  refine etriple_bind (triple_ofExcept _) fun _ => ?_
  refine etriple_bind (hlocal .hashFile) fun _ => ?_
  refine etriple_bind (etriple_any (triple_plain (o := .getByHash caseId _) trivial)) fun r => ?_
  have hrest : ETriple (machine hashtext) (rules hashtext) i (Own i Settled)
      (do
        let _ ← self.auditService.append
          { uploadEvent caseId evidenceId createdBy .evidenceHashed "hash" with
            outputHash := some (Hashing.sha256File content Hashing.defaultChunkSize) }
        call .commit
        return (size, content, Hashing.sha256File content Hashing.defaultChunkSize) : M _)
      (fun _ => Own i Settled) (fun _ _ => True) := by
    refine etriple_bind (etriple_conseq (triple_append_first self.auditService _)
      (fun _ _ h => Settled.locks h) (fun _ _ _ h => h) fun _ _ _ h => h) fun _ => ?_
    refine etriple_bind (triple_end (.inl rfl)) fun _ => ?_
    exact etriple_pure fun _ _ h => h
  cases r with
  | none => exact hrest
  | some e =>
    exact etriple_bind (etriple_throw (Q := fun _ _ => False) fun _ _ _ => trivial)
      fun _ => fun _ _ h => h.elim

lemma triple_recordUpload (self : EvidenceService) (caseId evidenceId : Uuid)
    (objectKey digest : String) (row : Datetime → Evidence) (createdBy : Option String) :
    ETriple (machine hashtext) (rules hashtext) i (Own i Settled)
      (recordUpload self caseId evidenceId objectKey digest row createdBy)
      (fun _ => Own i Settled) (fun _ _ => True) := by
  refine etriple_bind (triple_rowCall (o := .createEvidence row) trivial) fun evidence => ?_
  refine etriple_bind (triple_append_first self.auditService _) fun _ => ?_
  -- the second event goes to the case that is locked already
  refine etriple_bind (triple_append self.auditService
    { uploadEvent caseId evidenceId createdBy .evidenceCreated "create" with
      outputHash := some digest }) fun _ => ?_
  refine etriple_bind (triple_end (.inl rfl)) fun _ => ?_
  exact etriple_pure fun _ _ h => h

lemma triple_storeUpload (self : EvidenceService) (caseId evidenceId : Uuid)
    (upload : UploadFile) (sourceType : EvidenceSourceType) (createdBy : Option String)
    (parentEvidenceId : Option Uuid) (cleanedName extension : String) :
    ETriple (machine hashtext) (rules hashtext) i (Own i Settled)
      (storeUpload self caseId evidenceId upload sourceType createdBy parentEvidenceId
        cleanedName extension) (fun _ => Own i Settled) (fun _ _ => True) := by
  have hwithin : ∀ {α : Type} {l : Locals} {p : M α} {Q : α → World ι → Prop},
      ETriple (machine hashtext) (rules hashtext) i (Own i Settled) p Q (fun _ _ => True) →
      ETriple (machine hashtext) (rules hashtext) i (Own i Settled) (within l p) Q
        (fun _ _ => True) := fun hp => triple_within hp fun _ _ _ _ => trivial
  refine etriple_bind (hwithin (etriple_any (triple_plain trivial))) fun _ => ?_
  refine etriple_bind (hwithin (triple_receiveUpload self caseId evidenceId upload createdBy))
    fun ⟨size, content, digest⟩ => ?_
  refine etriple_bind (hwithin (etriple_any (triple_plain trivial))) fun _ => ?_
  exact hwithin (triple_recordUpload self caseId evidenceId _ _ _ _)

lemma triple_handleUpload (self : EvidenceService) (caseId evidenceId : Uuid)
    (createdBy : Option String) (outcome : Except (Exn × Locals) Evidence) :
    ETriple (machine hashtext) (rules hashtext) i (fun _ => True)
      (handleUpload self caseId evidenceId createdBy outcome) (fun _ _ => True)
      (fun _ _ => True) := by
  refine triple_handleUpload_of (P := fun _ _ => True) (fun _ _ _ _ => trivial)
    (fun x l reason y _ _ _ => ?_) (fun _ _ _ _ _ _ => trivial) outcome
  refine etriple_bind (triple_conseq (triple_end (T := fun _ => True) (.inr rfl))
    (fun _ _ _ => trivial) fun _ _ _ h => h) fun _ => ?_
  refine etriple_bind (triple_compensateStorage_of (P := Own i Settled) (Q := Own i Settled)
    (F := fun _ => Own i Settled) (fun _ _ _ h => h) (fun key _ _ => triple_plain trivial)
    (fun _ _ _ _ h => h) fun _ _ _ _ _ => trivial) fun _ => ?_
  refine etriple_bind (triple_recordFailure_of (Q := fun _ => True)
    (etriple_conseq (triple_append_first self.auditService _) (fun _ _ h => Settled.locks h)
      (fun _ _ _ h => h) fun _ _ _ h => h)
    (fun _ => ?_) (fun e _ => ?_) fun _ _ _ _ _ => trivial) fun _ => ?_
  · exact etriple_conseq (triple_end (.inl rfl)) (fun _ _ h => h) (fun _ _ _ _ => trivial)
      fun _ _ _ h => h
  · exact etriple_conseq (triple_end (T := fun _ => True) (.inr rfl)) (fun _ _ _ => trivial)
      (fun _ _ _ _ => trivial) fun _ _ _ h => h
  · exact etriple_throw fun _ _ _ => trivial

lemma triple_uploadEvidence (self : EvidenceService) (caseId : Uuid) (upload : UploadFile)
    (sourceType : EvidenceSourceType) (createdBy : Option String)
    (parentEvidenceId : Option Uuid) :
    ETriple (machine hashtext) (rules hashtext) i (Own i Settled)
      (self.uploadEvidence caseId upload sourceType createdBy parentEvidenceId)
      (fun _ _ => True) (fun _ _ => True) := by
  have hanything : ∀ o, Plain o → ETriple (machine hashtext) (rules hashtext) i (fun _ => True)
      (call o) (fun _ _ => True) (fun _ _ => True) := fun o ho =>
    etriple_conseq (triple_plain (T := fun _ => True) ho) (fun _ _ _ => trivial)
      (fun _ _ _ _ => trivial) fun _ _ _ _ => trivial
  refine etriple_bind (triple_requireCase caseId) fun _ => ?_
  refine etriple_bind (triple_ofExcept _) fun ⟨cleanedName, extension⟩ => ?_
  refine etriple_bind (etriple_any (triple_plain (o := .uuid4) trivial)) fun evidenceId => ?_
  refine etriple_bind (etriple_conseq (triple_append_first self.auditService _)
    (fun _ _ h => Settled.locks h) (fun _ _ _ h => h) fun _ _ _ h => h) fun _ => ?_
  refine etriple_bind (triple_end (.inl rfl)) fun _ => ?_
  refine etriple_bind (Q := fun _ _ => True) (etriple_lift (triple_conseq
    (triple_storeUpload self caseId evidenceId upload sourceType createdBy parentEvidenceId
      cleanedName extension) (fun _ _ h => h) fun _ _ _ _ => trivial)) fun outcome => ?_
  refine triple_conseq (triple_withFinally (Q := fun _ _ => True)
    (triple_conseq (triple_handleUpload self caseId evidenceId createdBy outcome)
      (fun _ _ h => h) fun _ _ _ _ => trivial)
    fun r => triple_cleanUpload_of (hanything _ trivial) (hanything _ trivial) _)
    (fun _ _ h => h) fun r _ _ _ => ?_
  cases r <;> trivial

/-- A request keeps the order of its calls, and leaves nothing behind. -/
lemma triple_handle (app : App) (request : Request) :
    Triple (machine hashtext) (rules hashtext) i (Own i Settled) (app.handle request)
      (fun _ w => w.txn i = {}) := by
  have hsession : ∀ {α : Type} {p : M α} {f : α → Result},
      ETriple (machine hashtext) (rules hashtext) i (Own i Settled) p (fun _ _ => True)
        (fun _ _ => True) →
      Triple (machine hashtext) (rules hashtext) i (Own i Settled) (withSession (f <$> p))
        (fun _ w => w.txn i = {}) := by
    intro α p f hp
    refine triple_withSession (Q := fun _ _ => True) (triple_conseq (etriple_map
      (H := fun _ _ => True) hp fun _ _ _ _ => trivial) (fun _ _ h => h)
      fun _ _ _ _ => trivial) (fun _ => stable_const) (fun w => ?_) fun _ w hw _ => ?_
    · exact ⟨fun h => h.elim, by simp⟩
    · refine ⟨exclusive_of_locks hw (fun j hj => setTxn_txn_of_ne hj) (fun k hk => ?_),
        fun j hj => setTxn_txn_of_ne hj, setTxn_txn⟩
      rw [setTxn_txn] at hk
      cases hk
  cases request with
  | upload caseId upload sourceType createdBy parentEvidenceId =>
    exact hsession (triple_uploadEvidence app.evidenceService caseId upload sourceType createdBy
      parentEvidenceId)
  | delete caseId evidenceId =>
    exact hsession (triple_deleteEvidence app.evidenceService caseId evidenceId)
  | createCase data => exact hsession (triple_createCase app.caseService data)
  | updateCase caseId data => exact hsession (triple_updateCase app.caseService caseId data)

/-! ### Every run -/

/-- The discipline of the sessions, in one configuration. -/
structure Disciplined {α : Type} (hashtext : String → ℤ) (σ : Conf ι (World ι) Op Answer α) :
    Prop where
  exclusive : Exclusive σ.world
  demand : ∀ i o k, σ.prog i = .op o k → Demand hashtext σ.world i o
  done : ∀ i a, σ.prog i = .ret a → σ.world.txn i = {}

/-- The sessions of a run of requests are disciplined. -/
lemma disciplined_of_reach {app : App} {requests : ι → Request} {w : World ι}
    (hw : ∀ i, w.txn i = {}) {policy : World ι → ι → Op → Choice → Prop}
    {σ : Conf ι (World ι) Op Answer (Except Exn Result)}
    (hσ : Reach (machine hashtext) policy ⟨w, fun i => app.handle (requests i)⟩ σ) :
    Disciplined hashtext σ := by
  have hinv : (rules hashtext).inv w := fun i j _ k hk => by simp [hw] at hk
  have hsafe := safe_reach (R := rules hashtext) (Q := fun i _ w => w.txn i = {})
    (fun i _ => stable_own (T := fun t => t = {})) hinv
    (fun i => triple_handle app (requests i) w hinv (by rw [Own, hw]; exact settled_empty))
    (hσ.mono fun _ _ _ _ _ => trivial)
  refine ⟨hsafe.1, fun i o k hi => demand_of_safe hsafe.1 hsafe.2 hi, fun i a hi => ?_⟩
  exact post_of_safe hsafe.2 hi

end Rules

end WhaleMas.LockOrder
