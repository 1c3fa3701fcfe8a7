import WhaleMas.Database
import WhaleMas.Hashing

/-!
The services behind the requests: the audit log, cases and evidence. Each is a program over
the calls of the database and the storage.
-/

namespace WhaleMas.Services

open WhaleMas.JsonText WhaleMas.Models WhaleMas.AuditLog WhaleMas.Program WhaleMas.Database
open WhaleMas.Hashing

/-! ### Audit -/

structure AuditService where
  chainEnabled : Bool

def AuditService.append (self : AuditService) (a : AppendArgs) : M AuditEvent := do
  call (.lockCaseChain a.caseId)
  let previous ← if self.chainEnabled then call (.latest a.caseId) else pure none
  let id ← call .uuid4
  let now ← call .now
  call (.appendEvent (newEvent previous a id now))

/-! ### Cases -/

structure CaseCreate where
  name : String
  description : Option String
  createdBy : Option String
  validName : 1 ≤ name.length ∧ name.length ≤ 255
  validCreatedBy : ∀ s ∈ createdBy, s.length ≤ 128

/-- `format_case_no` for the current year. -/
def formatCaseNo (sequenceValue : ℕ) (current : Datetime) : String :=
  "CASE-" ++ toString current.year ++ "-" ++ String.ofList (zpad 6 sequenceValue)

def caseNoMetadata (caseNo : String) : Dict := ⟨[("case_no", .str caseNo)], by simp [WF, WFMembers]⟩

/-- The keys that were set, sorted. -/
def changedFields (u : CaseUpdate) : List String :=
  (if u.description.isSome then ["description"] else []) ++
    (if u.name.isSome then ["name"] else []) ++ (if u.status.isSome then ["status"] else [])

def changedFieldsMetadata (u : CaseUpdate) : Dict :=
  ⟨[("changed_fields", .arr ((changedFields u).map .str))], by
    have h : ∀ l : List String, WFItems (l.map .str) := by
      intro l
      induction l with
      | nil => trivial
      | cons s l ih => exact ⟨trivial, ih⟩
    exact ⟨by simp, h _, trivial⟩⟩

structure CaseService where
  auditService : AuditService

def CaseService.createCase (self : CaseService) (data : CaseCreate) : M Case := do
  let sequence ← call .nextSequenceValue
  let current ← call .now
  if sequence < 1 then throw (.other "ValueError")
  let id ← call .uuid4
  let case ← call (.createCase fun now => {
    id := id
    caseNo := formatCaseNo sequence current
    name := data.name
    description := data.description
    status := .created
    createdBy := data.createdBy
    createdAt := now
    updatedAt := now })
  let _ ← self.auditService.append {
    caseId := case.id
    eventType := .caseCreated
    resourceType := "case"
    operation := "create"
    resourceId := some case.id.str
    actorId := data.createdBy
    inputHash := none
    outputHash := none
    metadata := some (caseNoMetadata case.caseNo) }
  call .commit
  return case

def CaseService.getCase (_ : CaseService) (caseId : Uuid) : M Case := do
  match ← call (.getCase caseId) with
  | none => raise (notFoundError "CASE_NOT_FOUND" "Case not found")
  | some case => return case

/-- `CaseRepository.flush`, after the fields have been set. -/
def flushCase (case : Case) (changes : CaseUpdate) : M Case := do
  call (.flushCase case changes)
  call (.refreshCase case.id)

def CaseService.updateCase (self : CaseService) (caseId : Uuid) (data : CaseUpdate) :
    M Case := do
  let case ← self.getCase caseId
  let case ← flushCase case data
  let _ ← self.auditService.append {
    caseId := case.id
    eventType := .caseUpdated
    resourceType := "case"
    operation := "update"
    resourceId := some case.id.str
    actorId := none
    inputHash := none
    outputHash := none
    metadata := some (changedFieldsMetadata data) }
  call .commit
  return case

/-! ### Evidence -/

/-- What of the validator an upload uses. -/
structure FileValidator where
  validateMetadata : Option String → Option String → Except DomainError (String × String)
  maxSizeBytes : ℕ

def FileValidator.validateSize (v : FileValidator) (size : ℕ) : Except DomainError Unit :=
  if size = 0 then .error (evidenceValidationError "EVIDENCE_EMPTY" "Evidence file is empty")
  else if v.maxSizeBytes < size then
    .error (evidenceValidationError "EVIDENCE_TOO_LARGE" "Evidence file is too large")
  else .ok ()

/-- An uploaded file, as the pieces its reads give. -/
structure UploadFile where
  filename : Option String
  contentType : Option String
  chunks : List (List UInt8)
  valid : ∀ c ∈ chunks, c ≠ [] ∧ c.length ≤ 1024 * 1024

def documentTypeByExtension : List (String × DocumentType) := [
  (".eml", .email), (".pdf", .pdf), (".xls", .excel), (".xlsx", .excel), (".csv", .csv),
  (".doc", .word), (".docx", .word), (".jpg", .image), (".jpeg", .image), (".png", .image),
  (".txt", .text)]

def objectKeyOf (caseId evidenceId : Uuid) (name : String) : String :=
  "cases/" ++ caseId.str ++ "/evidence/" ++ evidenceId.str ++ "/" ++ name

/-- Python's `s or default`. -/
def orDefault (s : Option String) (default : String) : String :=
  match s with
  | some s => if s = "" then default else s
  | none => default

def startedMetadata (filename : String) (sourceType : EvidenceSourceType) : Dict :=
  ⟨[("filename", .str filename), ("source_type", .str sourceType.value)], by
    simp [WF, WFMembers]⟩

def storedMetadata (objectKey : String) : Dict :=
  ⟨[("object_key", .str objectKey)], by simp [WF, WFMembers]⟩

def failedMetadata (reason : String) : Dict := ⟨[("reason", .str reason)], by simp [WF, WFMembers]⟩

structure EvidenceService where
  auditService : AuditService
  validator : FileValidator

def ofExcept {α : Type} : Except DomainError α → M α
  | .ok a => pure a
  | .error e => raise e

def requireCase (caseId : Uuid) : M Unit := do
  if (← call (.getCase caseId)).isNone then
    raise (notFoundError "CASE_NOT_FOUND" "Case not found")

/-- The local variables that the exception handlers of an upload look at. -/
structure Locals where
  tempPath : Bool
  objectKey : Option String
  stored : Bool

/-- A part of a `try` block, with the variables an exception in it finds. -/
def within {α : Type} (l : Locals) (p : M α) : ExceptT (Exn × Locals) (Prog Op Answer) α :=
  ExceptT.mk do
    match ← p.run with
    | .ok a => return .ok a
    | .error e => return .error (e, l)

/-- The loop that reads an upload into a temporary file: its size and its content. -/
def readUpload (v : FileValidator) : List (List UInt8) → ℕ → List UInt8 → M (ℕ × List UInt8)
  | [], size, content => do
    call (.localCall .readUpload)
    return (size, content)
  | chunk :: chunks, size, content => do
    call (.localCall .readUpload)
    let size := size + chunk.length
    if v.maxSizeBytes < size then ofExcept (v.validateSize size)
    call (.localCall (.writeTemp chunk))
    readUpload v chunks size (content ++ chunk)

/-- The arguments of an event of an upload. -/
def uploadEvent (caseId evidenceId : Uuid) (actorId : Option String)
    (eventType : AuditEventType) (operation : String) : AppendArgs where
  caseId := caseId
  eventType := eventType
  resourceType := "evidence"
  operation := operation
  resourceId := some evidenceId.str
  actorId := actorId
  inputHash := none
  outputHash := none
  metadata := none

/-- The `try` block of an upload up to the key: receive, hash, and record the hash. -/
def receiveUpload (self : EvidenceService) (caseId evidenceId : Uuid) (upload : UploadFile)
    (createdBy : Option String) : M (ℕ × List UInt8 × String) := do
  let (size, content) ← readUpload self.validator upload.chunks 0 []
  call (.localCall .closeTemp)
  ofExcept (self.validator.validateSize size)
  call (.localCall .hashFile)
  let digest := sha256File content defaultChunkSize
  if (← call (.getByHash caseId digest)).isSome then
    raise (conflictError "DUPLICATE_EVIDENCE" "Duplicate evidence in this case")
  let _ ← self.auditService.append
    { uploadEvent caseId evidenceId createdBy .evidenceHashed "hash" with
      outputHash := some digest }
  call .commit
  return (size, content, digest)

/-- The `try` block of an upload after the object was stored: the row and its events. -/
def recordUpload (self : EvidenceService) (caseId evidenceId : Uuid) (objectKey digest : String)
    (row : Datetime → Evidence) (createdBy : Option String) : M Evidence := do
  let evidence ← call (.createEvidence row)
  let _ ← self.auditService.append
    { uploadEvent caseId evidenceId createdBy .evidenceStored "store" with
      metadata := some (storedMetadata objectKey) }
  let _ ← self.auditService.append
    { uploadEvent caseId evidenceId createdBy .evidenceCreated "create" with
      outputHash := some digest }
  call .commit
  return evidence

/-- The row of an upload. -/
def evidenceRow (caseId evidenceId : Uuid) (upload : UploadFile) (sourceType : EvidenceSourceType)
    (createdBy : Option String) (parentEvidenceId : Option Uuid) (cleanedName extension : String)
    (size : ℕ) (digest : String) (now : Datetime) : Evidence where
  id := evidenceId
  caseId := caseId
  originalFilename := orDefault upload.filename cleanedName
  storedFilename := cleanedName
  objectKey := objectKeyOf caseId evidenceId cleanedName
  mimeType := orDefault upload.contentType "application/octet-stream"
  fileExtension := extension
  fileSize := size
  sha256 := digest
  sourceType := sourceType
  documentType := (documentTypeByExtension.lookup extension).getD .unknown
  parentEvidenceId := parentEvidenceId
  metadataJson := Dict.empty
  createdBy := createdBy
  createdAt := now

def storeUpload (self : EvidenceService) (caseId evidenceId : Uuid) (upload : UploadFile)
    (sourceType : EvidenceSourceType) (createdBy : Option String)
    (parentEvidenceId : Option Uuid) (cleanedName extension : String) :
    ExceptT (Exn × Locals) (Prog Op Answer) Evidence := do
  within ⟨false, none, false⟩ (call (.localCall .openTemp))
  let (size, content, digest) ← within ⟨true, none, false⟩
    (receiveUpload self caseId evidenceId upload createdBy)
  let objectKey := objectKeyOf caseId evidenceId cleanedName
  within ⟨true, some objectKey, false⟩ (call (.putObject objectKey content
    (orDefault upload.contentType "application/octet-stream")))
  within ⟨true, some objectKey, true⟩ (recordUpload self caseId evidenceId objectKey digest
    (evidenceRow caseId evidenceId upload sourceType createdBy parentEvidenceId cleanedName
      extension size digest) createdBy)

def compensateStorage (objectKey : Option String) (stored : Bool) : M Unit :=
  match objectKey, stored with
  | some objectKey, true =>
    -- a failed compensation is logged; a cancellation goes through
    tryCatch (call (.deleteObject objectKey)) fun e => if e.isException then pure () else throw e
  | _, _ => pure ()

def recordFailure (self : EvidenceService) (caseId evidenceId : Uuid) (actorId : Option String)
    (reason : String) : M Unit :=
  tryCatch
    (do
      let _ ← self.auditService.append
        { uploadEvent caseId evidenceId actorId .evidenceUploadFailed "upload" with
          metadata := some (failedMetadata reason) }
      call .commit)
    fun e => if e.isSQLAlchemyError then call .rollback else throw e

/-- The exception handlers of an upload. -/
def handleUpload (self : EvidenceService) (caseId evidenceId : Uuid) (createdBy : Option String) :
    Except (Exn × Locals) Evidence → M Evidence
  | .ok evidence => pure evidence
  | .error (e, l) => do
    if e = .integrity then
      call .rollback
      compensateStorage l.objectKey l.stored
      recordFailure self caseId evidenceId createdBy "duplicate evidence"
      raise (conflictError "DUPLICATE_EVIDENCE" "Duplicate evidence in this case")
    else if e.isException then
      call .rollback
      compensateStorage l.objectKey l.stored
      recordFailure self caseId evidenceId createdBy e.typeName
      throw e
    else throw e

/-- The `finally` block of an upload. -/
def cleanUpload (tempPath : Bool) : M Unit := do
  call (.localCall .closeUpload)
  if tempPath then call (.localCall .unlinkTemp)

def tempPathOf : Except (Exn × Locals) Evidence → Bool
  | .ok _ => true
  | .error (_, l) => l.tempPath

def EvidenceService.uploadEvidence (self : EvidenceService) (caseId : Uuid) (upload : UploadFile)
    (sourceType : EvidenceSourceType) (createdBy : Option String)
    (parentEvidenceId : Option Uuid) : M Evidence := do
  requireCase caseId
  let (cleanedName, extension) ←
    ofExcept (self.validator.validateMetadata upload.filename upload.contentType)
  let evidenceId ← call .uuid4
  let _ ← self.auditService.append
    { uploadEvent caseId evidenceId createdBy .evidenceUploadStarted "upload" with
      metadata := some (startedMetadata cleanedName sourceType) }
  call .commit
  let outcome ← ExceptT.lift (storeUpload self caseId evidenceId upload sourceType createdBy
    parentEvidenceId cleanedName extension).run
  withFinally (handleUpload self caseId evidenceId createdBy outcome)
    (cleanUpload (tempPathOf outcome))

def EvidenceService.getEvidence (_ : EvidenceService) (caseId evidenceId : Uuid) : M Evidence := do
  requireCase caseId
  match ← call (.getEvidence caseId evidenceId) with
  | none => raise (notFoundError "EVIDENCE_NOT_FOUND" "Evidence not found")
  | some evidence => return evidence

def EvidenceService.deleteEvidence (self : EvidenceService) (caseId evidenceId : Uuid) :
    M Unit := do
  let evidence ← self.getEvidence caseId evidenceId
  call (.deleteObject evidence.objectKey)
  call (.deleteEvidence evidence.id)
  let _ ← self.auditService.append {
    caseId := caseId
    eventType := .evidenceDeleted
    resourceType := "evidence"
    operation := "delete"
    resourceId := some evidenceId.str
    actorId := none
    inputHash := some evidence.sha256
    outputHash := none
    metadata := none }
  call .commit

/-! ### Requests -/

inductive Request
  | upload (caseId : Uuid) (upload : UploadFile) (sourceType : EvidenceSourceType)
      (createdBy : Option String) (parentEvidenceId : Option Uuid)
  | delete (caseId evidenceId : Uuid)
  | createCase (data : CaseCreate)
  | updateCase (caseId : Uuid) (data : CaseUpdate)

/-- What a request returns. -/
inductive Result
  | evidence (e : Evidence)
  | case (c : Case)
  | deleted

structure App where
  caseService : CaseService
  evidenceService : EvidenceService

/-- The program of a request, in a session of its own. -/
def App.handle (self : App) : Request → Prog Op Answer (Except Exn Result)
  | .upload caseId upload sourceType createdBy parentEvidenceId => withSession
    (.evidence <$> self.evidenceService.uploadEvidence caseId upload sourceType createdBy
      parentEvidenceId)
  | .delete caseId evidenceId => withSession
    ((fun _ => .deleted) <$> self.evidenceService.deleteEvidence caseId evidenceId)
  | .createCase data => withSession (.case <$> self.caseService.createCase data)
  | .updateCase caseId data => withSession (.case <$> self.caseService.updateCase caseId data)

end WhaleMas.Services
