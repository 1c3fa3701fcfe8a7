import WhaleMas.Numbering
import WhaleMas.SessionRequests

/-!
How the requests to the services end: with a result, with a refusal that the request may meet,
or with what a call raised by itself. A case that is returned is committed with its number.
-/

namespace WhaleMas.RequestEnds

open WhaleMas.Models WhaleMas.AuditLog WhaleMas.Program WhaleMas.RelyGuarantee
open WhaleMas.Beside WhaleMas.Database WhaleMas.Services WhaleMas.SessionFrame
open WhaleMas.Numbering
open WhaleMas.SessionRequests (creationEvent updateEvent)

/-! ### Refusals -/

def caseNotFound : DomainError := notFoundError "CASE_NOT_FOUND" "Case not found"

def evidenceNotFound : DomainError := notFoundError "EVIDENCE_NOT_FOUND" "Evidence not found"

def duplicateEvidence : DomainError :=
  conflictError "DUPLICATE_EVIDENCE" "Duplicate evidence in this case"

/-- The calls of the object storage. -/
def Storing : Op → Prop
  | .putObject _ _ _ | .deleteObject _ => True
  | _ => False

variable {ι : Type} [DecidableEq ι] [Fintype ι] {hashtext : String → ℤ} {w₀ : World ι}
  {fails : ι → Op → Exn → Prop} {i : ι} {caseId : Uuid} {E : Exn → Prop}

/-- Nothing in particular holds any more. -/
abbrev Anything : World ι × Drawn ι → Prop := fun _ => True

omit [DecidableEq ι] [Fintype ι] in
lemma lasting_anything : Lasting (Anything : World ι × Drawn ι → Prop) := fun _ _ _ _ => trivial

omit [DecidableEq ι] [Fintype ι] in
lemma stable_idle : Stable (rules w₀ fails) i (Idle i) := by
  intro u v h _ hr _
  rw [Idle, Rely.txn hr]
  exact h

lemma triple_ofExcept {α : Type} {G : World ι × Drawn ι → Prop} {x : Except DomainError α}
    (h : ∀ d, x = .error d → E (.domain d)) :
    ETriple (numbers hashtext) (rules w₀ fails) i G (ofExcept x) (fun a w => x = .ok a ∧ G w)
      (Failed E G) := by
  cases x with
  | ok a => exact etriple_pure fun _ _ hg => ⟨rfl, hg⟩
  | error d => exact etriple_throw fun _ _ hg => ⟨h d rfl, hg⟩

section Calls

variable (hdb : ∀ o, ¬ Storing o → ∀ e, fails i o e → E e)

include hdb

/-- A plain call of the database keeps what lasts. -/
lemma triple_db {o : Op} {G : World ι × Drawn ι → Prop} (hG : Lasting G) (ho : Plain o)
    (hs : ¬ Storing o) :
    ETriple (numbers hashtext) (rules w₀ fails) i G (call o) (fun _ => G) (Failed E G) :=
  triple_plain hG ho (hdb o hs)

lemma triple_audit (self : AuditService) (a : AppendArgs) (ha : a.caseId = caseId) :
    ETriple (numbers hashtext) (rules w₀ fails) i (There caseId) (self.append a)
      (fun _ => There caseId) (Failed E (There caseId)) :=
  triple_append_there self a ha fun o ho => hdb o fun h => by cases o <;> first | exact ho | exact h

/-! ### Cases -/

/-- A case that is found is committed. -/
lemma triple_getCase (caseId : Uuid) :
    ETriple (numbers hashtext) (rules w₀ fails) i (Idle i) (call (.getCase caseId))
      (fun r w => Idle i w ∧ ∀ c, r = some c → c.id = caseId ∧ Stored c w)
      (Failed E Anything) := by
  refine triple_op stable_idle lasting_anything (fun _ _ => trivial)
    (fun w _ _ => no_demand (by simp) w) (hdb _ not_false) ?_
  intro w c r v hw hidle hp hx _
  obtain ⟨rfl, hv⟩ := Prod.mk.inj (Option.some.inj hx)
  change Idle i v ∧ _
  refine ⟨?_, fun k hk => ?_⟩
  · rw [Idle, ← hv]
    exact hidle
  · have hmem := List.mem_of_find?_eq_some hk
    have hid := List.find?_some hk
    rw [World.casesFor, hidle, List.append_nil] at hmem
    obtain ⟨d, hd, rfl⟩ := List.mem_map.mp hmem
    refine ⟨by simpa using hid, d, hv ▸ hd, ?_⟩
    exact ⟨(same_update _ d).1.symm, (same_update _ d).2.symm⟩

lemma triple_requireCase (hmissing : E (.domain caseNotFound)) :
    ETriple (numbers hashtext) (rules w₀ fails) i (Idle i) (requireCase caseId)
      (fun _ => There caseId) (Failed E Anything) := by
  refine etriple_bind (triple_getCase hdb caseId) fun r => ?_
  cases r with
  | none => exact etriple_throw fun _ _ _ => ⟨hmissing, trivial⟩
  | some c => exact etriple_pure fun _ _ h => ⟨c, h.2 c rfl⟩

/-! ### Uploads -/

/-- What an upload may be refused with. -/
structure Refuses (E : Exn → Prop) (service : EvidenceService) (upload : UploadFile) : Prop where
  missing : E (.domain caseNotFound)
  metadata : ∀ d, service.validator.validateMetadata upload.filename upload.contentType =
    .error d → E (.domain d)
  size : ∀ n d, service.validator.validateSize n = .error d → E (.domain d)
  duplicate : E (.domain duplicateEvidence)

/-- An exception in the `try` block of an upload. -/
def Caught (E : Exn → Prop) (e : Exn) : Prop := E e ∨ e = .integrity

lemma triple_receiveUpload {self : EvidenceService} {upload : UploadFile}
    (hrefuses : Refuses E self upload) (evidenceId : Uuid) (createdBy : Option String) :
    ETriple (numbers hashtext) (rules w₀ fails) i (There caseId)
      (receiveUpload self caseId evidenceId upload createdBy) (fun _ => There caseId)
      (Failed E (There caseId)) := by
  have hcheck : ∀ n, ETriple (numbers hashtext) (rules w₀ fails) i (There caseId)
      (ofExcept (self.validator.validateSize n)) (fun _ => There caseId)
      (Failed E (There caseId)) :=
    fun n => etriple_conseq (triple_ofExcept (hrefuses.size n)) (fun _ _ h => h)
      (fun _ _ _ h => h.2) fun _ _ _ h => h
  have hlasts := lasting_there (ι := ι) caseId
  refine etriple_bind (triple_readUpload_of (fun c => triple_db hdb hlasts trivial not_false)
    upload.chunks 0 [] fun n _ _ => hcheck n) fun p => ?_
  refine triple_and fun hp => ?_
  obtain ⟨size, content⟩ := p
  refine etriple_bind (triple_db hdb hlasts trivial not_false) fun _ => ?_
  refine etriple_bind (hcheck size) fun _ => ?_
  refine etriple_bind (triple_db hdb hlasts trivial not_false) fun _ => ?_
  refine etriple_bind (triple_db hdb hlasts trivial not_false) fun (r : Option Evidence) => ?_
  split_ifs
  · refine etriple_bind (Q := fun _ _ => False) (etriple_throw fun w _ h => ?_)
      fun _ w _ h => h.elim
    exact ⟨hrefuses.duplicate, h⟩
  · refine etriple_bind (triple_audit hdb self.auditService _ rfl) fun _ => ?_
    refine etriple_bind (triple_db hdb hlasts trivial not_false) fun _ => ?_
    exact etriple_pure fun _ _ h => h

lemma triple_recordUpload (self : EvidenceService) (evidenceId : Uuid) (objectKey digest : String)
    (row : Datetime → Evidence) (createdBy : Option String) :
    ETriple (numbers hashtext) (rules w₀ fails) i (There caseId)
      (recordUpload self caseId evidenceId objectKey digest row createdBy)
      (fun _ => There caseId) (Failed (Caught E) (There caseId)) := by
  have hlasts := lasting_there (ι := ι) caseId
  have hcaught : ∀ e (w : World ι × Drawn ι), (rules w₀ fails).inv w →
      Failed E (There caseId) e w → Failed (Caught E) (There caseId) e w :=
    fun _ _ _ h => ⟨.inl h.1, h.2⟩
  have hinsert : ETriple (numbers hashtext) (rules w₀ fails) i (There caseId)
      (call (.createEvidence row)) (fun _ => There caseId)
      (Failed (Caught E) (There caseId)) := by
    refine triple_op hlasts.stable hlasts (fun _ h => h) (fun w _ _ => no_demand (by simp) w)
      (fun e h => .inl (hdb (.createEvidence row) not_false e h)) ?_
    intro w c r v _ hg _ hx hstays
    have hv := hlasts w v hstays hg
    simp only [exec, execCreateEvidence] at hx
    split_ifs at hx <;> obtain ⟨rfl, -⟩ := Prod.mk.inj (Option.some.inj hx)
    · exact ⟨.inr rfl, hv⟩
    · exact hv
  refine etriple_bind hinsert fun (r : Evidence) => ?_
  refine etriple_error ?_ hcaught
  refine etriple_bind (triple_audit hdb self.auditService _ rfl) fun _ => ?_
  refine etriple_bind (triple_audit hdb self.auditService _ rfl) fun _ => ?_
  refine etriple_bind (triple_db hdb hlasts trivial not_false) fun _ => ?_
  exact etriple_pure fun _ _ h => h

/-- How the `try` block of an upload ends. -/
def Tried (E : Exn → Prop) (caseId : Uuid) (outcome : Except (Exn × Locals) Evidence)
    (w : World ι × Drawn ι) : Prop :=
  There caseId w ∧ ∀ p, outcome = .error p → Caught E p.1

lemma triple_storeUpload {self : EvidenceService} {upload : UploadFile}
    (hrefuses : Refuses E self upload)
    (hput : ∀ key data contentType e, fails i (.putObject key data contentType) e → E e)
    (evidenceId : Uuid) (sourceType : EvidenceSourceType) (createdBy : Option String)
    (parentEvidenceId : Option Uuid) (cleanedName extension : String) :
    Triple (numbers hashtext) (rules w₀ fails) i (There caseId)
      (storeUpload self caseId evidenceId upload sourceType createdBy parentEvidenceId cleanedName
        extension).run (Tried E caseId) := by
  have hlasts := lasting_there (ι := ι) caseId
  have htried : ∀ {l : Locals} e (w : World ι × Drawn ι), (rules w₀ fails).inv w →
      Failed E (There caseId) e w → Tried E caseId (.error (e, l)) w := by
    rintro l e w - ⟨he, hw⟩
    refine ⟨hw, fun p hp => ?_⟩
    obtain rfl := Except.error.inj hp
    exact .inl he
  have hends : ETriple (numbers hashtext) (rules w₀ fails) i (There caseId)
      (storeUpload self caseId evidenceId upload sourceType createdBy parentEvidenceId cleanedName
        extension) (fun _ => There caseId) (fun p => Tried E caseId (.error p)) := by
    refine etriple_bind (triple_within (triple_db hdb hlasts trivial not_false) htried)
      fun _ => ?_
    refine etriple_bind (triple_within (triple_receiveUpload hdb hrefuses evidenceId createdBy)
      htried) fun p => ?_
    obtain ⟨size, content, digest⟩ := p
    refine etriple_bind (triple_within (triple_plain hlasts trivial fun e he => hput _ _ _ e he)
      htried) fun _ => ?_
    refine triple_within (triple_recordUpload hdb self _ _ _ _ createdBy) ?_
    rintro e w - ⟨he, hw⟩
    refine ⟨hw, fun p hp => ?_⟩
    obtain rfl := Except.error.inj hp
    exact he
  refine triple_conseq hends (fun _ _ h => h) fun r w _ h => ?_
  cases r with
  | ok r => exact ⟨h, fun p hp => by cases hp⟩
  | error p => exact h

/-- The handlers raise what they caught, or the conflict for a constraint that has failed. -/
lemma triple_handleUpload (self : EvidenceService) (evidenceId : Uuid)
    (createdBy : Option String) (hduplicate : E (.domain duplicateEvidence))
    (hcancel : ∀ key e, e.isException = false → fails i (.deleteObject key) e → E e)
    (outcome : Except (Exn × Locals) Evidence) :
    ETriple (numbers hashtext) (rules w₀ fails) i (Tried E caseId outcome)
      (handleUpload self caseId evidenceId createdBy outcome) (fun _ => Anything)
      (Failed E Anything) := by
  have hlasts := lasting_there (ι := ι) caseId
  refine triple_handleUpload_of (P := Tried E caseId) (fun _ _ _ _ => trivial) ?_ ?_ outcome
  · intro x l reason y _ hother hintegrity
    have hy : Caught E x → E y := by
      rintro (hx | hx)
      · by_cases hi : x = .integrity
        · rw [hintegrity hi]
          exact hduplicate
        · rw [hother hi]
          exact hx
      · rw [hintegrity hx]
        exact hduplicate
    have hraise : ∀ e (w : World ι × Drawn ι), (rules w₀ fails).inv w →
        Failed E (There caseId) e w → Failed E Anything e w := fun _ _ _ h => ⟨h.1, trivial⟩
    refine triple_conseq (P := fun w => E y ∧ There caseId w) (triple_and fun hEy => ?_)
      (fun w _ h => ⟨hy (h.2 _ rfl), h.1⟩) fun _ _ _ h => h
    refine etriple_bind (etriple_error (triple_db hdb hlasts trivial not_false) hraise)
      fun _ => ?_
    refine etriple_bind (triple_compensateStorage_of (Q := There caseId)
      (F := Failed (fun e => e.isException = false → E e) (There caseId))
      (fun _ _ _ h => h) (fun key _ _ => triple_plain hlasts trivial
        fun e he hexception => hcancel key e hexception he)
      (fun _ _ _ _ h => h.2) fun _ _ _ he h => ⟨h.1 he, trivial⟩) fun _ => ?_
    refine etriple_bind (triple_recordFailure_of (Q := There caseId) (K := fun _ => There caseId)
      (F := Failed E (There caseId)) (triple_audit hdb self.auditService _ rfl)
      (fun _ => triple_db hdb hlasts trivial not_false) (fun e _ => ?_)
      fun _ _ _ _ h => ⟨h.1, trivial⟩) fun _ => ?_
    · exact etriple_conseq (triple_db hdb hlasts trivial not_false) (fun _ _ h => h.2)
        (fun _ _ _ h => h) hraise
    · exact etriple_throw fun _ _ _ => ⟨hEy, trivial⟩
  · rintro x l w - hexception ⟨-, hcaught⟩
    rcases hcaught _ rfl with h | h
    · exact ⟨h, trivial⟩
    · obtain rfl : x = .integrity := h
      cases hexception

lemma triple_uploadEvidence {self : EvidenceService} {upload : UploadFile}
    (hrefuses : Refuses E self upload)
    (hput : ∀ key data contentType e, fails i (.putObject key data contentType) e → E e)
    (hcancel : ∀ key e, e.isException = false → fails i (.deleteObject key) e → E e)
    (sourceType : EvidenceSourceType) (createdBy : Option String)
    (parentEvidenceId : Option Uuid) :
    ETriple (numbers hashtext) (rules w₀ fails) i (Idle i)
      (self.uploadEvidence caseId upload sourceType createdBy parentEvidenceId)
      (fun _ => Anything) (Failed E Anything) := by
  have hlasts := lasting_there (ι := ι) caseId
  have hraise : ∀ e (w : World ι × Drawn ι), (rules w₀ fails).inv w →
      Failed E (There caseId) e w → Failed E Anything e w := fun _ _ _ h => ⟨h.1, trivial⟩
  refine etriple_bind (triple_requireCase hdb hrefuses.missing) fun _ => ?_
  refine etriple_bind (etriple_conseq (triple_ofExcept hrefuses.metadata) (fun _ _ h => h)
    (fun _ _ _ h => h.2) hraise) fun p => ?_
  obtain ⟨cleanedName, extension⟩ := p
  refine etriple_bind (etriple_error (triple_db hdb hlasts trivial not_false) hraise)
    fun (evidenceId : Uuid) => ?_
  refine etriple_bind (etriple_error (triple_audit hdb self.auditService _ rfl) hraise)
    fun _ => ?_
  refine etriple_bind (etriple_error (triple_db hdb hlasts trivial not_false) hraise)
    fun _ => ?_
  refine etriple_bind (Q := Tried E caseId) (etriple_lift (triple_storeUpload hdb hrefuses hput
    evidenceId sourceType createdBy parentEvidenceId cleanedName extension)) fun outcome => ?_
  refine triple_withFinally (triple_handleUpload hdb self evidenceId createdBy
    hrefuses.duplicate hcancel outcome) fun r => ?_
  have hclean : ETriple (numbers hashtext) (rules w₀ fails) i Anything
      (cleanUpload (tempPathOf outcome)) (fun _ => Anything) (Failed E Anything) :=
    triple_cleanUpload_of (triple_db hdb lasting_anything trivial not_false)
      (triple_db hdb lasting_anything trivial not_false) _
  cases r with
  | ok r => exact hclean
  | error e =>
    refine triple_conseq (P := fun w => E e ∧ Anything w) (triple_and fun he => ?_)
      (fun _ _ h => h) fun _ _ _ h => h
    exact etriple_conseq hclean (fun _ _ _ => trivial) (fun _ _ _ _ => ⟨he, trivial⟩)
      fun _ _ _ h => h

/-! ### Deletions -/

/-- What a request for a row may be refused with. -/
structure Misses (E : Exn → Prop) : Prop where
  noCase : E (.domain caseNotFound)
  noEvidence : E (.domain evidenceNotFound)

lemma triple_getEvidence (self : EvidenceService) (evidenceId : Uuid) (hmisses : Misses E) :
    ETriple (numbers hashtext) (rules w₀ fails) i (Idle i) (self.getEvidence caseId evidenceId)
      (fun _ => There caseId) (Failed E Anything) := by
  have hlasts := lasting_there (ι := ι) caseId
  refine etriple_bind (triple_requireCase hdb hmisses.noCase) fun _ => ?_
  refine etriple_bind (etriple_error (triple_db hdb hlasts trivial not_false)
    fun _ _ _ h => ⟨h.1, trivial⟩) fun (r : Option Evidence) => ?_
  cases r with
  | none => exact etriple_throw fun _ _ _ => ⟨hmisses.noEvidence, trivial⟩
  | some r => exact etriple_pure fun _ _ h => h

lemma triple_deleteEvidence (self : EvidenceService) (evidenceId : Uuid) (hmisses : Misses E)
    (hdelete : ∀ key e, fails i (.deleteObject key) e → E e) :
    ETriple (numbers hashtext) (rules w₀ fails) i (Idle i)
      (self.deleteEvidence caseId evidenceId) (fun _ => Anything) (Failed E Anything) := by
  have hlasts := lasting_there (ι := ι) caseId
  refine etriple_bind (triple_getEvidence hdb self evidenceId hmisses) fun e => ?_
  refine etriple_conseq (E := Failed E (There caseId)) (Q := fun _ => There caseId) ?_
    (fun _ _ h => h) (fun _ _ _ _ => trivial) fun _ _ _ h => ⟨h.1, trivial⟩
  refine etriple_bind (triple_plain hlasts trivial (hdelete e.objectKey)) fun _ => ?_
  refine etriple_bind (triple_db hdb hlasts trivial not_false) fun _ => ?_
  refine etriple_bind (triple_audit hdb self.auditService _ rfl) fun _ => ?_
  exact triple_db hdb hlasts trivial not_false

/-! ### Updates -/

/-- The flush and the refresh give the row of the case, unless a null would be set. -/
lemma triple_flushCase {case : Case} {changes : CaseUpdate}
    (hnull : changes.name = some none ∨ changes.status = some none → E .integrity) :
    ETriple (numbers hashtext) (rules w₀ fails) i (fun w => Idle i w ∧ Stored case w)
      (flushCase case changes) Stored (Failed E Anything) := by
  have hstable : Stable (rules w₀ fails) i fun w => Idle i w ∧ Stored case w :=
    stable_idle.and (lasting_stored case).stable
  have hflush : ETriple (numbers hashtext) (rules w₀ fails) i (fun w => Idle i w ∧ Stored case w)
      (call (.flushCase case changes)) (fun _ w => Idle i w ∧ Stored case w)
      (Failed E Anything) := by
    refine triple_op hstable lasting_anything (fun _ _ => trivial)
      (fun w _ _ => no_demand (by simp) w) (hdb (.flushCase case changes) not_false) ?_
    rintro w c r ⟨v, g⟩ hw ⟨hidle, hcase⟩ hp hx hstays
    have hnone : (w.1.txn i).cases = [] := hidle
    obtain ⟨hcolumns, rfl, -⟩ | ⟨columns, -, ⟨-, rfl, rfl⟩ | ⟨hmissing, -, -⟩ | ⟨-, rfl, rfl⟩⟩ :=
      execFlushCase_cases hx
    · refine ⟨hnull ?_, trivial⟩
      unfold CaseUpdate.columns at hcolumns
      split_ifs at hcolumns with h
      exact h
    · exact ⟨hnone, hstays case hcase⟩
    · obtain ⟨k, hk, hid⟩ := There.sees (i := i) ⟨case, rfl, hcase⟩
      exact absurd hid (hmissing k hk)
    · refine ⟨?_, hstays case hcase⟩
      change ((World.setTxn _ _ _).txn i).cases = []
      simp [hnone]
  refine etriple_bind hflush fun (_ : Unit) => ?_
  refine triple_op hstable lasting_anything (fun _ _ => trivial)
    (fun w _ _ => no_demand (by simp) w) (hdb (.refreshCase case.id) not_false) ?_
  rintro w c r ⟨v, g⟩ hw ⟨hidle, hcase⟩ hp hx hstays
  obtain ⟨rfl, ⟨row, hrow, rfl⟩ | ⟨hmissing, -⟩⟩ := execRefreshCase_cases hx
  · have hnone : (w.1.txn i).cases = [] := hidle
    have hmem := List.mem_of_find?_eq_some hrow
    rw [World.casesFor, hnone, List.append_nil] at hmem
    obtain ⟨d, hd, rfl⟩ := List.mem_map.mp hmem
    exact ⟨d, hd, (same_update _ d).1.symm, (same_update _ d).2.symm⟩
  · obtain ⟨k, hk, hid⟩ := There.sees (i := i) ⟨case, rfl, hcase⟩
    exact absurd hid (hmissing k hk)

lemma triple_updateCase (self : CaseService) {changes : CaseUpdate}
    (hmissing : E (.domain caseNotFound))
    (hnull : changes.name = some none ∨ changes.status = some none → E .integrity) :
    ETriple (numbers hashtext) (rules w₀ fails) i (Idle i) (self.updateCase caseId changes)
      Stored (Failed E Anything) := by
  have hget : ETriple (numbers hashtext) (rules w₀ fails) i (Idle i) (self.getCase caseId)
      (fun case w => Idle i w ∧ Stored case w) (Failed E Anything) := by
    refine etriple_bind (triple_getCase hdb caseId) fun r => ?_
    cases r with
    | none => exact etriple_throw fun _ _ _ => ⟨hmissing, trivial⟩
    | some c => exact etriple_pure fun _ _ h => ⟨h.1, (h.2 c rfl).2⟩
  refine etriple_bind hget fun case => ?_
  refine etriple_bind (triple_flushCase hdb hnull) fun row => ?_
  have hlasts := lasting_stored (ι := ι) row
  have haudit : ETriple (numbers hashtext) (rules w₀ fails) i (Stored row)
      (self.auditService.append (updateEvent row changes)) (fun _ => Stored row)
      (Failed E (Stored row)) := triple_append hlasts.stable hlasts (fun _ h => h) _ _
    (fun o w c r v ho hw hg hp => (keeps_step hw (no_demand
      (fun row h => by subst h; exact ho) w) hp).2.2 row hg)
    (fun w hg => There.sees ⟨row, rfl, hg⟩)
    fun o ho => hdb o fun h => by cases o <;> first | exact ho | exact h
  refine etriple_conseq (E := Failed E (Stored row)) (Q := Stored) ?_
    (fun _ _ h => h) (fun _ _ _ h => h) fun _ _ _ h => ⟨h.1, trivial⟩
  refine etriple_bind haudit fun _ => ?_
  refine etriple_bind (triple_db hdb hlasts trivial not_false) fun _ => ?_
  exact etriple_pure fun _ _ h => h

/-! ### Creations -/

/-- The session drew the value, and no committed case has it. -/
def Drew (i : ι) (n : ℕ) (w : World ι × Drawn ι) : Prop :=
  Idle i w ∧ 1 ≤ n ∧ w.2 n = some i ∧ ∀ c ∈ w.1.cases, ¬ HasNumber n c

/-- A row with the identifier and the number is the session's own. -/
def Ready (i : ι) (n : ℕ) (u : Uuid) (w : World ι × Drawn ι) : Prop :=
  Idle i w ∧ ∀ row : Case, row.id = u → HasNumber n row → Mine i row w

omit [DecidableEq ι] [Fintype ι] hdb in
lemma stable_drew (n : ℕ) : Stable (rules w₀ fails) i (Drew i n) := by
  intro w v ⟨hidle, hpos, hn, hfree⟩ hw hr hv
  refine ⟨stable_idle w v hidle hw hr hv, hpos, (Rely.drew hr n).mpr hn, fun d hd hno => ?_⟩
  rcases Rely.new hr d hd with ⟨c, hc, hcd⟩ | ⟨-, hother⟩
  · exact hfree c hc (hno.same ⟨hcd.1.symm, hcd.2.symm⟩)
  · exact hother n hno hn

omit [DecidableEq ι] [Fintype ι] hdb in
lemma stable_ready (n : ℕ) (u : Uuid) : Stable (rules w₀ fails) i (Ready i n u) :=
  fun w v h hw hr hv => ⟨stable_idle w v h.1 hw hr hv, fun row hid hno => (h.2 row hid hno).rely hr⟩

lemma triple_nextSequenceValue :
    ETriple (numbers hashtext) (rules w₀ fails) i (Idle i) (call .nextSequenceValue) (Drew i)
      (Failed E Anything) := by
  refine triple_op stable_idle lasting_anything (fun _ _ => trivial)
    (fun w _ _ => no_demand (by simp) w) (hdb _ not_false) ?_
  rintro w c r ⟨v, g⟩ hw hidle hp hx -
  obtain ⟨-, hg⟩ := perform_recording hp
  obtain ⟨rfl, rfl⟩ := Prod.mk.inj (Option.some.inj hx)
  refine ⟨hidle, Nat.le_add_left 1 _, ?_, fun k hk hno => ?_⟩
  · change g = Function.update w.2 (w.1.sequence + 1) (some i) at hg
    simp [hg]
  · exact absurd (hw.later k hk _ hno) (by simp)

lemma triple_now (n : ℕ) :
    ETriple (numbers hashtext) (rules w₀ fails) i (Drew i n) (call .now) (fun _ => Drew i n)
      (Failed E Anything) := by
  refine triple_op (stable_drew n) lasting_anything (fun _ _ => trivial)
    (fun w _ _ => no_demand (by simp) w) (hdb _ not_false) ?_
  rintro w c r ⟨v, g⟩ hw hdrew hp hx -
  obtain ⟨-, hg⟩ := perform_recording hp
  obtain ⟨rfl, rfl⟩ := Prod.mk.inj (Option.some.inj hx)
  obtain rfl : g = w.2 := hg
  exact hdrew

lemma triple_uuid4 (n : ℕ) :
    ETriple (numbers hashtext) (rules w₀ fails) i (Drew i n) (call .uuid4) (Ready i n)
      (Failed E Anything) := by
  refine triple_op (stable_drew n) lasting_anything (fun _ _ => trivial)
    (fun w _ _ => no_demand (by simp) w) (hdb _ not_false) ?_
  rintro w c r ⟨v, g⟩ hw ⟨hidle, -, hn, hfree⟩ hp hx -
  obtain ⟨-, hg⟩ := perform_recording hp
  simp only [exec] at hx
  split_ifs at hx with hfresh
  obtain ⟨rfl, rfl⟩ := Prod.mk.inj (Option.some.inj hx)
  obtain rfl : g = w.2 := hg
  refine ⟨hidle, ?_⟩
  rintro row hid hno
  refine ⟨by simp [World.draw, hid], ⟨n, hn, hno⟩, fun k hk => ⟨fun he => ?_, fun he => ?_⟩⟩
  · exact hw.ids k hk (by rw [he, hid, hfresh])
  · obtain ⟨t, ht⟩ := hno
    exact hfree k hk ⟨t, he.trans ht⟩

omit hdb in
/-- The insert of a case of one's own neither fails nor waits. -/
lemma insert_goes {w : World ι × Drawn ι} {row : Case} (hw : Inv w₀ w) (hidle : Idle i w)
    (hm : Mine i row w) : execCreateCase row i w.1 =
      some (.ok row, w.1.setTxn i { w.1.txn i with cases := (w.1.txn i).cases ++ [row] }) := by
  have hfree : ¬ ∃ c ∈ w.1.casesFor i, c.id = row.id ∨ c.caseNo = row.caseNo := by
    rintro ⟨c, hc, hclash⟩
    rw [World.casesFor, hidle, List.append_nil] at hc
    obtain ⟨d, hd, rfl⟩ := List.mem_map.mp hc
    obtain ⟨hid, hno⟩ := (hm.free d hd).same (same_update (w.1.txn i).updates d) ⟨rfl, rfl⟩
    exact hclash.elim hid hno
  have halone : ¬ ∃ j, j ≠ i ∧ ∃ c ∈ (w.1.txn j).cases, c.id = row.id ∨ c.caseNo = row.caseNo := by
    rintro ⟨j, hj, c, hc, hclash⟩
    obtain ⟨hid, hno⟩ := (hw.pending j c hc).apart hm hj
    exact hclash.elim hid hno
  rw [execCreateCase, if_neg hfree, if_neg halone]

/-- The session has inserted the row. -/
def Inserted (i : ι) (row : Case) (w : World ι × Drawn ι) : Prop := (w.1.txn i).cases = [row]

omit [DecidableEq ι] [Fintype ι] hdb in
lemma stable_inserted (row : Case) : Stable (rules w₀ fails) i (Inserted i row) := by
  intro u v h _ hr _
  rw [Inserted, Rely.txn hr]
  exact h

lemma triple_createCaseRow {n : ℕ} {u : Uuid} {row : Datetime → Case}
    (hid : ∀ now, (row now).id = u) (hno : ∀ now, HasNumber n (row now)) :
    ETriple (numbers hashtext) (rules w₀ fails) i (Ready i n u) (call (.createCase row))
      (fun case => Inserted i case) (Failed E Anything) := by
  refine triple_op (stable_ready n u) lasting_anything (fun _ _ => trivial) ?_
    (hdb (.createCase row) not_false) ?_
  · rintro w - ⟨hidle, hmine⟩ row' h
    obtain rfl := Op.createCase.inj h
    exact ⟨hidle, fun now => hmine _ (hid now) (hno now)⟩
  · rintro w c r ⟨v, g⟩ hw ⟨hidle, hmine⟩ hp hx -
    have hgoes := insert_goes hw hidle (hmine _ (hid c.now) (hno c.now))
    obtain ⟨rfl, rfl⟩ := Prod.mk.inj (Option.some.inj (hgoes.symm.trans hx))
    have hnone : (w.1.txn i).cases = [] := hidle
    change ((w.1.setTxn i _).txn i).cases = _
    simp [hnone]

lemma triple_createCase (self : CaseService) (data : CaseCreate) :
    ETriple (numbers hashtext) (rules w₀ fails) i (Idle i) (self.createCase data)
      Stored (Failed E Anything) := by
  refine etriple_bind (triple_nextSequenceValue hdb) fun (n : ℕ) => ?_
  refine etriple_bind (triple_now hdb n) fun (current : Datetime) => ?_
  have hrest : ∀ p : M Case, (1 ≤ n → ETriple (numbers hashtext) (rules w₀ fails) i (Drew i n) p
      Stored (Failed E Anything)) → ETriple (numbers hashtext) (rules w₀ fails) i (Drew i n) p
      Stored (Failed E Anything) :=
    fun p h w hw hd => h hd.2.1 w hw hd
  refine hrest _ fun hpos => ?_
  have hnot : ¬ n < 1 := Nat.not_lt.mpr hpos
  simp only [hnot, if_false]
  refine etriple_bind (triple_uuid4 hdb n) fun (u : Uuid) => ?_
  refine etriple_bind (triple_createCaseRow hdb (fun _ => rfl) fun _ => ⟨current, rfl⟩)
    fun (row : Case) => ?_
  have haudit : ETriple (numbers hashtext) (rules w₀ fails) i (Inserted i row)
      (self.auditService.append (creationEvent row data.createdBy)) (fun _ => Inserted i row)
      (Failed E Anything) := by
    refine triple_append (stable_inserted row) lasting_anything (fun _ _ => trivial) _ _
      (fun o w c r v ho hw hg hp => ?_) (fun w hg => ?_)
      fun o ho => hdb o fun h => by cases o <;> first | exact ho | exact h
    · have hcases : (v.1.txn i).cases = (w.1.txn i).cases := by
        obtain ⟨heffect, -⟩ := perform_numbers hp
        obtain ⟨v, g⟩ := v
        cases heffect with
        | nothing | uuid4 => rfl
        | appendEvent event => simp
        | lockCaseChain caseId k => simp
        | _ => exact ho.elim
      exact hcases.trans hg
    · refine ⟨updateCase (w.1.txn i).updates row, ?_, (same_update _ row).1⟩
      have hcases : (w.1.txn i).cases = [row] := hg
      exact List.mem_map_of_mem (List.mem_append_right _ (by simp [hcases]))
  refine etriple_bind haudit fun _ => ?_
  refine etriple_bind (Q := fun _ => Stored row) ?_ fun _ => etriple_pure fun _ _ h => h
  refine triple_op (stable_inserted row) lasting_anything (fun _ _ => trivial)
    (fun w _ _ => no_demand (by simp) w) (hdb .commit not_false) ?_
  rintro w c r ⟨v, g⟩ - hrow hp hx -
  obtain ⟨rfl, rfl⟩ := Prod.mk.inj (Option.some.inj hx)
  have hmem : row ∈ (w.1.txn i).cases := by
    have hcases : (w.1.txn i).cases = [row] := hrow
    simp [hcases]
  exact stored_commit (.inr hmem)

/-! ### Requests -/

omit [DecidableEq ι] [Fintype ι] hdb in
/-- What a request may end with besides its result. -/
def Covers (E : Exn → Prop) (app : App) (fails : ι → Op → Exn → Prop) (i : ι) : Request → Prop
  | .upload _ upload _ _ _ => Refuses E app.evidenceService upload ∧
      (∀ key data contentType e, fails i (.putObject key data contentType) e → E e) ∧
      ∀ key e, e.isException = false → fails i (.deleteObject key) e → E e
  | .delete _ _ => Misses E ∧ ∀ key e, fails i (.deleteObject key) e → E e
  | .createCase _ => True
  | .updateCase _ changes => E (.domain caseNotFound) ∧
      (changes.name = some none ∨ changes.status = some none → E .integrity)

/-- How a request ends. -/
structure Ended (E : Exn → Prop) (r : Except Exn Result) (w : World ι × Drawn ι) : Prop where
  raised : ∀ e, r = .error e → E e
  stored : ∀ c, r = .ok (.case c) → Stored c w

omit hdb in
/-- The session is closed in the end. -/
lemma triple_session {α : Type} {p : M α} {f : α → Result} {Q : α → World ι × Drawn ι → Prop}
    (hp : ETriple (numbers hashtext) (rules w₀ fails) i (Idle i) p Q (Failed E Anything))
    (hQ : ∀ a w, Q a w → ∀ c, f a = .case c → Stored c w) :
    Triple (numbers hashtext) (rules w₀ fails) i (Idle i) (withSession (f <$> p))
      (Ended E) := by
  refine triple_bind (Q := Ended E) (triple_conseq (etriple_map (H := fun b w =>
    ∀ c, b = Result.case c → Stored c w) hp fun a w _ h => hQ a w h) (fun _ _ h => h) ?_)
    fun r => ?_
  · intro r w _ h
    cases r with
    | ok b => exact ⟨fun e he => (by cases he), fun c hc => h c (Except.ok.inj hc)⟩
    | error x => exact ⟨fun e he => Except.error.inj he ▸ h.1, fun c hc => by cases hc⟩
  · have hlasts : Lasting (Ended E r : World ι × Drawn ι → Prop) :=
      fun _ _ hstays h => ⟨h.raised, fun c hc => hstays c (h.stored c hc)⟩
    refine triple_bind (Q := fun _ => Ended E r) (triple_call hlasts.stable
      (fun w _ _ => no_demand (by simp) w) fun w c a v hw h _ hp => ?_)
      fun _ => triple_ret fun _ _ h => h
    obtain ⟨hv, hrely, hstays⟩ := keeps_step hw (no_demand (by simp) w) hp
    exact ⟨hv, hrely, hlasts w v hstays h⟩

/-- **How requests end**: with a result, with a refusal, or with what a call raised; and a case
that is returned is committed. -/
theorem triple_handle {app : App} {request : Request} (hcovers : Covers E app fails i request) :
    Triple (numbers hashtext) (rules w₀ fails) i (Idle i) (app.handle request) (Ended E) := by
  cases request with
  | upload caseId upload sourceType createdBy parentEvidenceId =>
    obtain ⟨hrefuses, hput, hcancel⟩ := hcovers
    exact triple_session (triple_uploadEvidence hdb hrefuses hput hcancel sourceType createdBy
      parentEvidenceId) fun _ _ _ _ h => by cases h
  | delete caseId evidenceId =>
    obtain ⟨hmisses, hdelete⟩ := hcovers
    exact triple_session (triple_deleteEvidence hdb app.evidenceService evidenceId hmisses hdelete)
      fun _ _ _ _ h => by cases h
  | createCase data =>
    refine triple_session (triple_createCase hdb app.caseService data) fun a w h c hc => ?_
    obtain rfl := Result.case.inj hc
    exact h
  | updateCase caseId changes =>
    obtain ⟨hmissing, hnull⟩ := hcovers
    refine triple_session (triple_updateCase hdb app.caseService hmissing hnull)
      fun a w h c hc => ?_
    obtain rfl := Result.case.inj hc
    exact h

end Calls

end WhaleMas.RequestEnds
