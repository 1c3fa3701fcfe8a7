import WhaleMas.ConcurrentUploads
import WhaleMas.DuplicateRules

/-!
Uploads that report a duplicate. An upload does so when it finds its content in its case, and
for every `IntegrityError`. Where the parent that it names is there when it inserts its row,
only a row with its content in its case is left to raise one.
-/

namespace WhaleMas.DuplicateReports

open WhaleMas.Models WhaleMas.AuditLog WhaleMas.Program WhaleMas.RelyGuarantee
open WhaleMas.Database WhaleMas.Hashing WhaleMas.Services WhaleMas.SessionFrame
open WhaleMas.SessionRuns WhaleMas.UploadStates WhaleMas.ConcurrentUploads
open WhaleMas.FileValidation WhaleMas.DuplicateRules

variable {ι : Type} [DecidableEq ι] [Fintype ι] {hashtext : String → ℤ} {S : Subject ι} {i : ι}
  {G : World ι → Prop} {caseId E : Uuid}

/-! ### Receiving a file -/

lemma triple_ofExcept {α : Type} {x : Except DomainError α}
    (h : ∀ d, x = .error d → d.code ≠ "DUPLICATE_EVIDENCE") :
    ETriple (machine hashtext) (rules S) i G (ofExcept x) (fun _ => G)
      (fun e w => Fine S i e ∧ G w) := by
  cases x with
  | ok a => exact etriple_pure fun _ _ hg => hg
  | error d => exact etriple_throw fun _ _ hg => ⟨fun _ => h d rfl, hg⟩

lemma validateSize_code {v : FileValidator} {size : ℕ} {d : DomainError}
    (h : v.validateSize size = .error d) : d.code ≠ "DUPLICATE_EVIDENCE" := by
  unfold FileValidator.validateSize at h
  split_ifs at h <;> obtain rfl := Except.error.inj h <;> decide

lemma validateMetadata_code {u : UnicodeText.Unicode} {allowed : List String}
    {filename contentType : Option String} {d : DomainError}
    (h : validateMetadata u allowed filename contentType = .error d) :
    d.code ≠ "DUPLICATE_EVIDENCE" := by
  unfold validateMetadata at h
  dsimp only at h
  split_ifs at h <;> obtain rfl := Except.error.inj h <;> decide

lemma triple_readUpload (hG : Lasting i G) (v : FileValidator) (chunks : List (List UInt8)) :
    ETriple (machine hashtext) (rules S) i G (readUpload v chunks 0 [])
      (fun p w => p.2 = chunks.flatten ∧ G w) (fun e w => Fine S i e ∧ G w) :=
  etriple_conseq (triple_readUpload_of (fun _ => triple_quiet hG trivial) chunks 0 []
    fun _ _ _ => triple_ofExcept fun _ => validateSize_code) (fun _ _ h => h)
    (fun _ _ _ h => ⟨congrArg Prod.snd h.1, h.2⟩) fun _ _ _ h => h

/-- The file is received, and its content is not found in the case. -/
lemma triple_receiveUpload (self : EvidenceService) (upload : UploadFile)
    (createdBy : Option String)
    (hsubject : i = S.session →
      caseId = S.caseId ∧ Sha256.hexdigest upload.chunks.flatten = S.digest) :
    ETriple (machine hashtext) (rules S) i (Ready i caseId E)
      (receiveUpload self caseId E upload createdBy)
      (fun p w => p.2.2 = Sha256.hexdigest upload.chunks.flatten ∧ Ready i caseId E w)
      (fun e w => Fine S i e ∧ Ready i caseId E w) := by
  have hG : Lasting i (Ready i caseId E) := lasting_ready caseId E
  refine etriple_bind (triple_readUpload hG self.validator upload.chunks) fun p => ?_
  obtain ⟨size, content⟩ := p
  refine triple_and fun hcontent => ?_
  subst hcontent
  refine etriple_bind (triple_quiet hG trivial) fun _ => ?_
  refine etriple_bind (triple_ofExcept fun _ => validateSize_code) fun _ => ?_
  refine etriple_bind (triple_quiet hG trivial) fun _ => ?_
  refine etriple_bind (triple_getByHash hG (fun _ h => h.1) fun hi => ?_) fun r => ?_
  · rw [sha256File_default]
    exact hsubject hi
  refine triple_and fun hnone => ?_
  cases r with
  | some r => exact etriple_throw fun _ _ hg => ⟨fun hi => absurd (hnone hi) (by simp), hg⟩
  | none =>
    refine etriple_bind (triple_append hG self.auditService _ fun _ _ hg => hg.2.1) fun _ => ?_
    refine etriple_bind (triple_quiet hG trivial) fun _ => ?_
    exact etriple_pure fun _ _ hg => ⟨sha256File_default _, hg⟩

/-! ### Recording a row -/

lemma triple_recordUpload (self : EvidenceService) {objectKey digest : String}
    {row : Datetime → Evidence} (createdBy : Option String)
    (hrow : ∀ now, Fresh caseId E digest (row now))
    (hsubject : i = S.session → caseId = S.caseId ∧ digest = S.digest) :
    ETriple (machine hashtext) (rules S) i (Ready i caseId E)
      (recordUpload self caseId E objectKey digest row createdBy) (fun _ => CaseThere caseId)
      (fun e w => Fine S i e ∧ CaseThere caseId w) := by
  have hG : Lasting i (CaseThere caseId) := lasting_caseThere caseId
  refine etriple_bind (triple_createEvidence hrow hsubject) fun evidence => ?_
  refine etriple_bind (triple_append hG self.auditService _ fun _ _ hg => hg) fun _ => ?_
  refine etriple_bind (triple_append hG self.auditService _ fun _ _ hg => hg) fun _ => ?_
  refine etriple_bind (triple_quiet hG trivial) fun _ => ?_
  exact etriple_pure fun _ _ hg => hg

lemma triple_storeUpload (self : EvidenceService) (upload : UploadFile)
    (sourceType : EvidenceSourceType) (createdBy : Option String) (parentEvidenceId : Option Uuid)
    (cleanedName extension : String)
    (hsubject : i = S.session →
      caseId = S.caseId ∧ Sha256.hexdigest upload.chunks.flatten = S.digest) :
    ETriple (machine hashtext) (rules S) i (Ready i caseId E)
      (storeUpload self caseId E upload sourceType createdBy parentEvidenceId cleanedName extension)
      (fun _ => CaseThere caseId) (fun x w => Fine S i x.1 ∧ CaseThere caseId w) := by
  have hG : Lasting i (Ready i caseId E) := lasting_ready caseId E
  have hearly : ∀ e w, Fine S i e ∧ Ready i caseId E w → Fine S i e ∧ CaseThere caseId w :=
    fun _ _ h => ⟨h.1, h.2.2.1⟩
  refine etriple_bind (triple_within (triple_quiet hG trivial) fun e w _ => hearly e w)
    fun _ => ?_
  refine etriple_bind (triple_within (triple_receiveUpload self upload createdBy hsubject)
    fun e w _ => hearly e w) fun p => ?_
  obtain ⟨size, content, digest⟩ := p
  refine triple_and fun hdigest => ?_
  subst hdigest
  refine etriple_bind (triple_within (triple_quiet hG trivial) fun e w _ => hearly e w)
    fun _ => ?_
  exact triple_within (triple_recordUpload self createdBy
    (fun _ => ⟨⟨cleanedName, rfl⟩, rfl, rfl, rfl⟩) hsubject) fun _ _ _ h => h

/-! ### Handling exceptions -/

lemma triple_compensateStorage (hG : Lasting i G) (objectKey : Option String) (stored : Bool) :
    ETriple (machine hashtext) (rules S) i G (compensateStorage objectKey stored) (fun _ => G)
      (fun e w => Fine S i e ∧ G w) := by
  exact triple_compensateStorage_of (fun _ _ _ h => h) (fun _ _ _ => triple_quiet hG trivial)
    (fun _ _ _ _ h => h.2) fun _ _ _ _ h => h

lemma triple_recordFailure (self : EvidenceService) (actorId : Option String) (reason : String) :
    ETriple (machine hashtext) (rules S) i (CaseThere caseId)
      (recordFailure self caseId E actorId reason) (fun _ => CaseThere caseId)
      (fun e w => Fine S i e ∧ CaseThere caseId w) := by
  have hG : Lasting i (CaseThere caseId) := lasting_caseThere caseId
  exact triple_recordFailure_of (triple_append hG self.auditService _ fun _ _ hg => hg)
    (fun _ => triple_quiet hG trivial) (fun e _ => triple_and fun _ => triple_quiet hG trivial)
    fun _ _ _ _ h => h

/-- The handlers raise `final`, unless they themselves are interrupted. -/
lemma triple_handler (self : EvidenceService) (createdBy : Option String) (l : Locals)
    (reason : String) {final : Exn} (hfinal : Fine S i final) :
    ETriple (machine hashtext) (rules S) i (CaseThere caseId)
      (do
        call .rollback
        compensateStorage l.objectKey l.stored
        recordFailure self caseId E createdBy reason
        throw final : M Evidence)
      (fun _ _ => True) (fun e _ => Fine S i e) := by
  have hG : Lasting i (CaseThere caseId) := lasting_caseThere caseId
  have hfine : ∀ e (w : World ι), Owned w → Fine S i e ∧ CaseThere caseId w → Fine S i e :=
    fun _ _ _ h => h.1
  refine etriple_bind (etriple_error (triple_quiet hG trivial) hfine) fun _ => ?_
  refine etriple_bind (etriple_error (triple_compensateStorage hG _ _) hfine) fun _ => ?_
  refine etriple_bind (etriple_error (triple_recordFailure self createdBy reason) hfine) fun _ => ?_
  exact etriple_throw fun _ _ _ => hfinal

lemma triple_handleUpload (self : EvidenceService) (createdBy : Option String)
    (outcome : Except (Exn × Locals) Evidence) :
    ETriple (machine hashtext) (rules S) i
      (orElse (fun _ => CaseThere caseId) (fun x w => Fine S i x.1 ∧ CaseThere caseId w) outcome)
      (handleUpload self caseId E createdBy outcome) (fun _ _ => True) (fun e _ => Fine S i e) := by
  refine triple_handleUpload_of (fun _ _ _ _ => trivial) ?_ (fun _ _ _ _ _ h => h.1) outcome
  intro x l reason y _ hself _
  refine triple_and fun hx => triple_handler self createdBy l reason ?_
  by_cases hi : x = .integrity
  · -- no constraint has failed in the upload that is watched
    exact fun h => (hi ▸ hx h : Plain .integrity).elim
  · rw [hself hi]
    exact hx

lemma triple_cleanUpload (hG : Lasting i G) (tempPath : Bool) :
    ETriple (machine hashtext) (rules S) i G (cleanUpload tempPath) (fun _ => G)
      (fun e w => Fine S i e ∧ G w) :=
  triple_cleanUpload_of (triple_quiet hG trivial) (triple_quiet hG trivial) tempPath

/-! ### Requests -/

/-- Session `i` has not begun. -/
def Unbegun (i : ι) (w : World ι) : Prop := w.txn i = {} ∧ Unused i w

omit [DecidableEq ι] [Fintype ι] in
lemma stable_unbegun : Stable (rules S) i (Unbegun i) := by
  rintro w v ⟨htxn, hunused⟩ - hr -
  have hr' : Rely i w v := hr
  exact ⟨hr'.txn.trans htxn, hr'.unused hunused⟩

lemma triple_requireCase (caseId : Uuid) :
    ETriple (machine hashtext) (rules S) i (Unbegun i) (requireCase caseId)
      (fun _ w => Blank i w ∧ CaseThere caseId w) (fun e _ => Fine S i e) := by
  have hget : ETriple (machine hashtext) (rules S) i (Unbegun i) (call (.getCase caseId))
      (fun r w => Blank i w ∧ (r ≠ none → CaseThere caseId w)) (fun e _ => Fine S i e) := by
    refine triple_exec stable_unbegun (fun _ _ _ _ h => nomatch h) (fun w c r v hw hi hc hx => ?_)
      fun w c e _ _ hc hf hi => (hc.1 hi).1 e (.inl hf)
    obtain ⟨rfl, rfl⟩ := Prod.mk.inj (Option.some.inj hx)
    refine ⟨hw, fun j _ => Rely.refl j _, ⟨⟨by rw [hi.1], hi.2⟩, fun hne => ?_⟩,
      fun e hf hi => (hc.1 hi).1 e (.inr hf)⟩
    obtain ⟨k, hk⟩ := Option.ne_none_iff_exists'.mp hne
    have hid : k.id = caseId := by simpa using List.find?_some hk
    have hmem := List.mem_of_find?_eq_some hk
    rw [World.casesFor, hi.1, List.append_nil] at hmem
    obtain ⟨k', hk', rfl⟩ := List.mem_map.mp hmem
    exact ⟨k', hk', hid⟩
  refine etriple_bind hget fun r => ?_
  cases r with
  | none => exact etriple_throw fun _ _ _ _ => by simp [Plain, notFoundError]
  | some k => exact etriple_pure fun _ _ h => ⟨h.1, h.2 (by simp)⟩

lemma triple_uploadEvidence {u : UnicodeText.Unicode} {extensions : List String}
    {maxSizeBytes : ℕ} (self : EvidenceService)
    (hvalidator : self.validator = fileValidator u extensions maxSizeBytes) (upload : UploadFile)
    (sourceType : EvidenceSourceType) (createdBy : Option String) (parentEvidenceId : Option Uuid)
    (hsubject : i = S.session →
      caseId = S.caseId ∧ Sha256.hexdigest upload.chunks.flatten = S.digest) :
    ETriple (machine hashtext) (rules S) i (Unbegun i)
      (self.uploadEvidence caseId upload sourceType createdBy parentEvidenceId)
      (fun _ _ => True) (fun e _ => Fine S i e) := by
  have hfine : ∀ (K : World ι → Prop) e w, Owned w → Fine S i e ∧ K w → Fine S i e :=
    fun _ _ _ _ h => h.1
  have hblank : Lasting i fun w => Blank i w ∧ CaseThere caseId w :=
    lasting_blank.and (lasting_caseThere caseId)
  refine etriple_bind (triple_requireCase caseId) fun _ => ?_
  refine etriple_bind (etriple_error (triple_ofExcept fun d hd => ?_) (hfine _)) fun p => ?_
  · rw [hvalidator, fileValidator_validateMetadata] at hd
    exact validateMetadata_code hd
  obtain ⟨cleanedName, extension⟩ := p
  refine etriple_bind (etriple_error (triple_answer (o := .uuid4)
    (Q := fun E => Ready i caseId E) hblank trivial fun w c E v _ _ hx hg => ?_) (hfine _))
    fun (E : Uuid) => ?_
  · simp only [exec] at hx
    split_ifs at hx
    obtain ⟨hE, rfl⟩ := Prod.mk.inj (Option.some.inj hx)
    obtain rfl := Except.ok.inj hE
    exact ⟨hg.1, hg.2, by simp [World.draw]⟩
  have hready : Lasting i (Ready i caseId E) := lasting_ready caseId E
  refine etriple_bind (etriple_error (triple_append hready self.auditService _
    fun _ _ hg => hg.2.1) (hfine _)) fun _ => ?_
  refine etriple_bind (etriple_error (triple_quiet hready trivial) (hfine _)) fun _ => ?_
  refine etriple_bind (etriple_lift (triple_storeUpload self upload sourceType createdBy
    parentEvidenceId cleanedName extension hsubject)) fun outcome => ?_
  refine triple_withFinally (triple_handleUpload self createdBy outcome) fun r => ?_
  cases r with
  | ok _ => exact etriple_error (triple_cleanUpload lasting_const _) (hfine _)
  | error e => exact etriple_error (triple_cleanUpload lasting_const _) (hfine _)

/-! ### Requests that upload nothing -/

/-- A call of a session that is not watched. -/
lemma triple_free {o : Op} (hi : i ≠ S.session) (ho : ∀ row, o ≠ .createEvidence row) :
    ETriple (machine hashtext) (rules S) i (fun _ => True) (call o) (fun _ _ => True)
      (fun _ _ => True) :=
  etriple_any (triple_op lasting_const ho (fun _ _ _ _ _ _ _ _ => trivial)
    fun h => absurd h hi)

lemma triple_append_free (hi : i ≠ S.session) (self : AuditService) (a : AppendArgs) :
    ETriple (machine hashtext) (rules S) i (fun _ => True) (self.append a) (fun _ _ => True)
      (fun _ _ => True) :=
  etriple_any (triple_append lasting_const self a fun h => absurd h hi)

lemma triple_delete (hi : i ≠ S.session) (self : EvidenceService) (caseId E : Uuid) :
    ETriple (machine hashtext) (rules S) i (fun _ => True) (self.deleteEvidence caseId E)
      (fun _ _ => True) (fun _ _ => True) := by
  have hget : ETriple (machine hashtext) (rules S) i (fun _ => True) (self.getEvidence caseId E)
      (fun _ _ => True) (fun _ _ => True) := by
    refine etriple_bind (etriple_bind (triple_free hi (by simp)) fun r => ?_) fun _ =>
      etriple_bind (triple_free hi (by simp)) fun r => ?_
    · cases r with
      | none => exact etriple_throw fun _ _ h => h
      | some _ => exact etriple_pure fun _ _ h => h
    · cases r with
      | none => exact etriple_throw fun _ _ h => h
      | some _ => exact etriple_pure fun _ _ h => h
  refine etriple_bind hget fun e => ?_
  refine etriple_bind (triple_free hi (by simp)) fun _ => ?_
  refine etriple_bind (triple_free hi (by simp)) fun _ => ?_
  exact etriple_bind (triple_append_free hi self.auditService _) fun _ => triple_free hi (by simp)

lemma triple_create (hi : i ≠ S.session) (self : CaseService) (data : CaseCreate) :
    ETriple (machine hashtext) (rules S) i (fun _ => True) (self.createCase data)
      (fun _ _ => True) (fun _ _ => True) := by
  refine etriple_bind (triple_free hi (by simp)) fun sequence => ?_
  refine etriple_bind (triple_free hi (by simp)) fun current => ?_
  split_ifs
  · exact etriple_bind (Q := fun _ _ => False) (etriple_throw fun _ _ h => h)
      fun _ _ _ h => h.elim
  · refine etriple_bind (triple_free hi (by simp)) fun id => ?_
    refine etriple_bind (triple_free hi (by simp)) fun case => ?_
    refine etriple_bind (triple_append_free hi self.auditService _) fun _ => ?_
    refine etriple_bind (triple_free hi (by simp)) fun _ => ?_
    exact etriple_pure fun _ _ h => h

lemma triple_update (hi : i ≠ S.session) (self : CaseService) (caseId : Uuid)
    (data : CaseUpdate) :
    ETriple (machine hashtext) (rules S) i (fun _ => True) (self.updateCase caseId data)
      (fun _ _ => True) (fun _ _ => True) := by
  have hget : ETriple (machine hashtext) (rules S) i (fun _ => True) (self.getCase caseId)
      (fun _ _ => True) (fun _ _ => True) := by
    refine etriple_bind (triple_free hi (by simp)) fun r => ?_
    cases r with
    | none => exact etriple_throw fun _ _ h => h
    | some _ => exact etriple_pure fun _ _ h => h
  have hflush : ∀ case, ETriple (machine hashtext) (rules S) i (fun _ => True)
      (flushCase case data) (fun _ _ => True) (fun _ _ => True) := fun case =>
    etriple_bind (triple_free hi (by simp)) fun _ => triple_free hi (by simp)
  refine etriple_bind hget fun case => ?_
  refine etriple_bind (hflush case) fun row => ?_
  refine etriple_bind (triple_append_free hi self.auditService _) fun _ => ?_
  refine etriple_bind (triple_free hi (by simp)) fun _ => ?_
  exact etriple_pure fun _ _ h => h

/-! ### Every run -/

/-- The upload that is watched does not end with a report of a duplicate. -/
def Ended (S : Subject ι) (i : ι) (r : Except Exn Result) : Prop := ∀ e, r = .error e → Fine S i e

lemma triple_session {α : Type} {f : α → Result} {p : M α} {P : World ι → Prop}
    (hp : ETriple (machine hashtext) (rules S) i P p (fun _ _ => True) fun e _ => Fine S i e) :
    Triple (machine hashtext) (rules S) i P (withSession (f <$> p)) (fun r _ => Ended S i r) := by
  have hmap : ETriple (machine hashtext) (rules S) i P (f <$> p) (fun _ _ => True)
      fun e _ => Fine S i e := etriple_map hp fun _ _ _ h => h
  refine triple_bind hmap fun r => ?_
  have hclose : Triple (machine hashtext) (rules S) i (fun _ => Ended S i r) (Prog.call .close)
      (orElse (fun _ _ => Ended S i r) fun e _ => Fine S i e ∧ Ended S i r) :=
    triple_quiet (o := .close) lasting_const trivial
  refine triple_bind (triple_conseq hclose (fun w _ h e he => ?_) fun _ _ _ h => h) fun a => ?_
  · subst he
    exact h
  · cases a with
    | ok _ => exact triple_ret fun _ _ h => h
    | error _ => exact triple_ret fun _ _ h => h.2

/-- A session that is not watched. -/
lemma triple_session_free {α : Type} {f : α → Result} {p : M α} (hi : i ≠ S.session)
    (hp : ETriple (machine hashtext) (rules S) i (fun _ => True) p (fun _ _ => True)
      fun _ _ => True) :
    Triple (machine hashtext) (rules S) i (Unbegun i) (withSession (f <$> p))
      (fun r _ => Ended S i r) :=
  triple_session (etriple_conseq hp (fun _ _ _ => trivial) (fun _ _ _ h => h)
    fun _ _ _ _ h => absurd h hi)

/-- The request of the session that is watched is the upload, with its case and its file. -/
structure Watches (S : Subject ι) (requests : ι → Request) : Prop where
  upload : ∃ upload sourceType createdBy parentEvidenceId,
    requests S.session = .upload S.caseId upload sourceType createdBy parentEvidenceId ∧
    Sha256.hexdigest upload.chunks.flatten = S.digest

omit [DecidableEq ι] [Fintype ι] in
lemma Watches.ne {requests : ι → Request} (h : Watches S requests)
    (hr : isUpload (requests i) = false) : i ≠ S.session := by
  rintro rfl
  obtain ⟨_, _, _, _, hwatched, -⟩ := h.upload
  rw [hwatched] at hr
  cases hr

lemma triple_handle {app : App} {u : UnicodeText.Unicode} {extensions : List String}
    {maxSizeBytes : ℕ} {requests : ι → Request} (h : Watches S requests)
    (hvalidator : app.evidenceService.validator = fileValidator u extensions maxSizeBytes)
    (i : ι) : Triple (machine hashtext) (rules S) i (Unbegun i) (app.handle (requests i))
      (fun r _ => Ended S i r) := by
  obtain ⟨watched, _, _, _, hwatched, hdigest⟩ := h.upload
  cases hr : requests i with
  | upload caseId upload sourceType createdBy parentEvidenceId =>
    refine triple_session (triple_uploadEvidence app.evidenceService hvalidator upload sourceType
      createdBy parentEvidenceId fun hi => ?_)
    rw [← hi, hr] at hwatched
    obtain ⟨rfl, rfl, -⟩ := Request.upload.inj hwatched
    exact ⟨rfl, hdigest⟩
  | delete caseId evidenceId =>
    have hi : i ≠ S.session := h.ne (hr ▸ rfl)
    exact triple_session_free hi (triple_delete hi app.evidenceService caseId evidenceId)
  | createCase data =>
    have hi : i ≠ S.session := h.ne (hr ▸ rfl)
    exact triple_session_free hi (triple_create hi app.caseService data)
  | updateCase caseId data =>
    have hi : i ≠ S.session := h.ne (hr ▸ rfl)
    exact triple_session_free hi (triple_update hi app.caseService caseId data)

omit [DecidableEq ι] [Fintype ι] in
lemma owned_of_opening {w : World ι} (h : Opening w) : Owned w where
  committed := by
    rintro r hr u (rfl | ⟨c, n, hkey⟩) hfresh
    · have hrow := SessionRequests.mem_view_rows hr rfl
      rw [(h.blank r.id hfresh).1] at hrow
      cases hrow
    · exact h.keyed r hr c u n hfresh hkey
  inserted := fun i r hr => by simp [h.txn i] at hr

/-- **A reported duplicate is one**, in every run in which the row that the upload inserts finds
the parent it names: if the upload raises `DUPLICATE_EVIDENCE`, then at one of its calls the
case held another committed row with the digest of the uploaded bytes. -/
theorem duplicate_reported {app : App} {u : UnicodeText.Unicode} {extensions : List String}
    {maxSizeBytes : ℕ}
    (hvalidator : app.evidenceService.validator = fileValidator u extensions maxSizeBytes)
    {requests : ι → Request} {i : ι} {caseId : Uuid} {upload : UploadFile}
    {sourceType : EvidenceSourceType} {createdBy : Option String} {parentEvidenceId : Option Uuid}
    (hi : requests i = .upload caseId upload sourceType createdBy parentEvidenceId)
    {w₀ : World ι} (hw : Opening w₀) {σ : Conf ι (World ι) Op Answer (Except Exn Result)}
    (hσ : Reach (machine hashtext) (Regular i) ⟨w₀, fun j => app.handle (requests j)⟩ σ)
    {e : DomainError} (he : σ.prog i = .ret (.error (.domain e)))
    (hcode : e.code = "DUPLICATE_EVIDENCE") :
    ∃ σ', Reach (machine hashtext) (Regular i) ⟨w₀, fun j => app.handle (requests j)⟩ σ' ∧
      Reach (machine hashtext) (Regular i) σ' σ ∧ (∃ o k, σ'.prog i = .op o k ∧ Checks o) ∧
      Subject.Held ⟨i, caseId, Sha256.hexdigest upload.chunks.flatten⟩ σ'.world := by
  set S : Subject ι := ⟨i, caseId, Sha256.hexdigest upload.chunks.flatten⟩
  rcases hσ.kept_or_broken (fun w j o => j = i → Checks o → ¬ S.Held w) with
    hkept | ⟨σ', j, o, k, h₀, h', hj, hbroken⟩
  · -- the upload has found no row with its content, and has not reported one
    have hwatches : Watches S requests := ⟨upload, sourceType, createdBy, parentEvidenceId, hi, rfl⟩
    have howned : (rules S).inv w₀ := owned_of_opening hw
    have hunused : ∀ j, Unused j w₀ := fun j r _ u _ => hw.undrawn u j
    obtain ⟨-, hsafe⟩ := safe_reach (R := rules S) (Q := fun j r _ => Ended S j r)
      (fun _ _ => stable_const) howned
      (fun j => triple_handle hwatches hvalidator j w₀ howned ⟨hw.txn j, hunused j⟩) hkept
    exact absurd hcode (post_of_safe hsafe he _ rfl rfl)
  · push Not at hbroken
    obtain ⟨rfl, hchecks, hheld⟩ := hbroken
    exact ⟨σ', h₀, h', ⟨o, k, hj, hchecks⟩, hheld⟩

section Example

def plainApp : App :=
  ⟨⟨⟨true⟩⟩, ⟨⟨true⟩, fileValidator UnicodeText.ascii defaultExtensions 1024⟩⟩

/-- The same file is uploaded twice. -/
def sameFile (_ : Fin 2) : Request := .upload 2 textUpload .other none none

def twice : Conf (Fin 2) (World (Fin 2)) Op Answer (Except Exn Result) :=
  ⟨oneCase, fun i => plainApp.handle (sameFile i)⟩

/-- The second upload comes after the first one. -/
def oneAfterOther : List (Fin 2 × Choice) := calls 0 100 37 ++ calls 1 200 25

def reported : Prog Op Answer (Except Exn Result) → Option DomainError
  | .ret (.error (.domain e)) => some e
  | _ => none

lemma oneAfterOther_reported : (runUnder (machine fun _ => 0)
    (fun w j o c => c.fault = .none ∧ ParentThere w j o c) twice oneAfterOther).map
      (fun σ => reported (σ.prog 1)) = some (some duplicateError) := by
  decide +kernel

lemma ret_of_reported {p : Prog Op Answer (Except Exn Result)} {e : DomainError}
    (h : reported p = some e) : p = .ret (.error (.domain e)) := by
  unfold reported at h
  split at h
  · rw [Option.some.inj h]
  · cases h

/-- The second upload finds the row of the first one. -/
theorem duplicate_reported_twice : ∃ σ, runUnder (machine fun _ => 0)
    (fun w j o c => c.fault = .none ∧ ParentThere w j o c) twice oneAfterOther = some σ ∧
    σ.prog 1 = .ret (.error (.domain duplicateError)) ∧
    ∃ σ', Reach (machine fun _ => 0) (Regular 1) twice σ' ∧
      Reach (machine fun _ => 0) (Regular 1) σ' σ ∧
      Subject.Held ⟨1, 2, Sha256.hexdigest textUpload.chunks.flatten⟩ σ'.world := by
  obtain ⟨σ, hσ, he⟩ := Option.map_eq_some_iff.mp oneAfterOther_reported
  have hret := ret_of_reported he
  have hreach : Reach (machine fun _ => 0) (Regular 1) twice σ := by
    refine (reach_of_runUnder .refl hσ).mono fun w j o c hc _ => ⟨fun e hf => ?_, hc.2⟩
    rw [hc.1] at hf
    rcases hf with hf | hf <;> cases hf
  have hvalidator : plainApp.evidenceService.validator =
      fileValidator UnicodeText.ascii defaultExtensions 1024 := rfl
  have hrequest : sameFile 1 = .upload 2 textUpload .other none none := rfl
  have hcode : duplicateError.code = "DUPLICATE_EVIDENCE" := rfl
  obtain ⟨σ', h₀, h', -, hheld⟩ :=
    duplicate_reported hvalidator hrequest ready_oneCase.opening hreach hret hcode
  exact ⟨σ, hσ, hret, σ', h₀, h', hheld⟩

/-- A file is uploaded under a parent that is not there. -/
def noParent : Conf (Fin 2) (World (Fin 2)) Op Answer (Except Exn Result) :=
  ⟨oneCase, fun _ => plainApp.handle (.upload 2 textUpload .other none (some 7))⟩

lemma noParent_reported : (runUnder (machine fun _ => 0)
    (fun w _ _ c => c.fault = .none ∧ w.evidence = []) noParent (calls 0 100 34)).map
      (fun σ => (σ.world.evidence.isEmpty, reported (σ.prog 0))) =
        some (true, some duplicateError) := by
  decide

/-- No call fails by itself, no row is ever committed, and a duplicate is reported. -/
theorem noParent_not_duplicate : ∃ σ, Reach (machine fun _ => 0)
    (fun w _ _ c => c.fault = .none ∧ w.evidence = []) noParent σ ∧ σ.world.evidence = [] ∧
    σ.prog 0 = .ret (.error (.domain duplicateError)) := by
  obtain ⟨σ, hσ, he⟩ := Option.map_eq_some_iff.mp noParent_reported
  obtain ⟨hempty, hreported⟩ := Prod.mk.inj he
  exact ⟨σ, reach_of_runUnder .refl hσ, List.isEmpty_iff.mp hempty, ret_of_reported hreported⟩

end Example

end WhaleMas.DuplicateReports
