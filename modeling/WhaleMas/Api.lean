import WhaleMas.Beside
import WhaleMas.CasePaging
import WhaleMas.Services
import WhaleMas.WorkflowService

/-!
The HTTP interface: which requests are valid, what each endpoint calls, and how its result or
its exception becomes a response.

Beside the calls of the services there are queries for lists of rows, and the calls of the
graph, whose threads are kept in a store of their own.
-/

namespace WhaleMas.Api

open WhaleMas.JsonText WhaleMas.Models WhaleMas.HashChain WhaleMas.AuditLog WhaleMas.Program
open WhaleMas.RelyGuarantee WhaleMas.Beside WhaleMas.Database WhaleMas.Services
open WhaleMas.StateGraph WhaleMas.CaseGraph WhaleMas.WorkflowService

/-! ### Queries and threads -/

/-- The threads with a checkpoint. -/
abbrev Threads : Type := Uuid → Option Thread

inductive Query
  | listCases (offset limit : ℕ)
  | listEvidence (caseId : Uuid)
  | listAudit (caseId : Uuid)
  | getState (threadId : Uuid)
  | invoke (threadId : Uuid) (initial : CaseState)
  | resume (threadId : Uuid) (decision : Decision)

@[reducible] def Query.Result : Query → Type
  | .listCases _ _ => List Case
  | .listEvidence _ => List Evidence
  | .listAudit _ => List AuditEvent
  | .getState _ => Option Thread
  | _ => Unit

abbrev Reply (q : Query) : Type := Except Exn q.Result

/-- What a query finds without the program asking: an order among rows of one time, and how far
an invocation comes before it fails. -/
structure Draw where
  rank : Uuid → ℕ
  nodes : ℕ

/-- `ORDER BY created_at DESC`, with ties in the order of `rank`. -/
def latestFirst {α : Type} (createdAt : α → Datetime) (id : α → Uuid) (rank : Uuid → ℕ) (a : α) :
    Datetimeᵒᵈ ×ₗ ℕ :=
  toLex (OrderDual.toDual (createdAt a), rank (id a))

/-- What a failed invocation raises. -/
def exnOf : Failure NodeError → Exn
  | .node (.keyError _) => .other "KeyError"
  | .node (.valueError _) => .other "ValueError"
  | .recursion => .other "GraphRecursionError"

/-- The threads after an invocation of at most `nodes` nodes, and what it raises. -/
def Query.run (engine : Engine) (nodes : ℕ) (threads : Threads) : Query → Threads × Option Exn
  | .invoke threadId initial =>
    let after := StateGraph.invoke buildCaseWorkflow engine.leave nodes initial
    (Function.update threads threadId (some after.1), after.2.map exnOf)
  | .resume threadId decision =>
    match threads threadId with
    | none => (threads, some (.other "EmptyInputError"))
    | some thread =>
      let after := resumeWith buildCaseWorkflow engine.leave nodes thread decision
      (Function.update threads threadId (some after.1), after.2.map exnOf)
  | _ => (threads, none)

/-- What a query finds. -/
def Query.look {ι : Type} (rank : Uuid → ℕ) (i : ι) (w : World ι × Threads) :
    (q : Query) → q.Result
  | .listCases offset limit => CasePaging.listCases
      (sortByKey (latestFirst Case.createdAt Case.id rank) (w.1.casesFor i)) offset limit
  | .listEvidence caseId => sortByKey (latestFirst Evidence.createdAt Evidence.id rank)
      ((w.1.evidenceFor i).filter fun r => r.caseId = caseId)
  | .listAudit caseId => AuditLog.list caseId (w.1.auditFor i)
  | .getState threadId => w.2 threadId
  | .invoke _ _ => ()
  | .resume _ _ => ()

/-- A query raises by itself or as its choice says; an invocation may have come part of its
way by then. -/
def execQuery {ι : Type} (engine : Engine) (q : Query) (i : ι) (c : Choice × Draw)
    (w : World ι × Threads) : Option (Reply q × Threads) :=
  match c.1.fault with
  | .none =>
    let after := q.run engine engine.limit w.2
    some (match after.2 with
      | none => .ok (q.look c.2.rank i w)
      | some e => .error e, after.1)
  | .before e => some (.error e, w.2)
  | .after e => some (.error e, (q.run engine c.2.nodes w.2).1)

/-- The calls of the endpoints. -/
abbrev ApiOp : Type := Op ⊕ Query

abbrev ApiAnswer : ApiOp → Type := Sum.elim Answer Reply

section Server

variable {ι : Type} [DecidableEq ι] [Fintype ι]

def server (hashtext : String → ℤ) (engine : Engine) :
    Machine ι (World ι × Threads) (Choice × Draw) ApiOp ApiAnswer :=
  beside (machine hashtext) (execQuery engine)

end Server

/-- Programs of endpoints. -/
abbrev ApiM := ExceptT Exn (Prog ApiOp ApiAnswer)

def lift {α : Type} (p : M α) : ApiM α := ExceptT.mk (inner p.run)

def ask (q : Query) : ApiM q.Result := ExceptT.mk (Prog.call (.inr q : ApiOp))

/-! ### Services -/

def CaseService.listCases (_ : CaseService) (offset limit : ℕ) : ApiM (List Case) :=
  ask (.listCases offset limit)

def EvidenceService.listEvidence (_ : EvidenceService) (caseId : Uuid) :
    ApiM (List Evidence) := do
  lift (requireCase caseId)
  ask (.listEvidence caseId)

def AuditService.list (_ : AuditService) (caseId : Uuid) : ApiM (List AuditEvent) :=
  ask (.listAudit caseId)

def AuditService.verify (_ : AuditService) (caseId : Uuid) : ApiM AuditVerifyResponse := do
  let events ← ask (.listAudit caseId)
  return AuditLog.verify events

def ofService {α : Type} : Except ServiceError α → ApiM α
  | .ok a => pure a
  | .error (.domain e) => throw (.domain e)
  | .error (.keyError _) => throw (.other "KeyError")
  | .error (.graph e) => throw (exnOf e)

/-- `_to_response` of a snapshot, which has no values for a thread without a checkpoint. -/
def snapshotResponse (threadId : Uuid) : Option Thread → ApiM WorkflowResponse
  | none => throw (.other "KeyError")
  | some snapshot => ofService (toResponse threadId snapshot)

/-- `WorkflowService.start` -/
def startWorkflow (caseId : Uuid) (data : WorkflowStart) : ApiM WorkflowResponse := do
  match ← lift (call (.getCase caseId)) with
  | none => throw (.domain (notFoundError "CASE_NOT_FOUND" "Case not found"))
  | some case =>
    let evidence ← ask (.listEvidence caseId)
    let threadId ← lift (call .uuid4)
    ask (.invoke threadId (initialState case evidence data))
    snapshotResponse threadId (← ask (.getState threadId))

def workflowNotFound : Exn :=
  .domain (notFoundError "WORKFLOW_NOT_FOUND" "Workflow thread not found")

/-- `WorkflowService.get` -/
def getWorkflow (threadId : Uuid) : ApiM WorkflowResponse := do
  match ← ask (.getState threadId) with
  | none => throw workflowNotFound
  | some snapshot => snapshotResponse threadId (some snapshot)

/-- `WorkflowService.resume` -/
def resumeWorkflow (threadId : Uuid) (data : WorkflowResume) : ApiM WorkflowResponse := do
  match ← ask (.getState threadId) with
  | none => throw workflowNotFound
  | some snapshot =>
    match snapshot.interrupt with
    | none => throw (.domain
        (conflictError "WORKFLOW_NOT_WAITING" "Workflow is not waiting for review"))
    | some interruptValue =>
      let decision := data.resolvedDecision
      if decision ∉ allowed interruptValue.type then
        throw (.domain (conflictError "INVALID_WORKFLOW_DECISION"
          ("Decision " ++ decision.value ++ " is not valid for " ++ interruptValue.type)))
      let now ← lift (call .now)
      let evidenceCount ←
        if decision = .evidenceReady then do
          let caseId ← ofService (field "case_id" snapshot.values.caseId)
          let evidence ← ask (.listEvidence caseId)
          pure (some evidence.length)
        else pure none
      ask (.resume threadId {
        action := decision
        comment := data.comment
        reviewer := data.reviewer
        reviewedAt := now.isoformat
        evidenceCount := evidenceCount })
      snapshotResponse threadId (← ask (.getState threadId))

/-! ### Endpoints -/

/-- A valid request to an endpoint. -/
inductive Endpoint
  | createCase (data : CaseCreate)
  | listCases (offset limit : ℕ)
  | getCase (caseId : Uuid)
  | updateCase (caseId : Uuid) (data : CaseUpdate)
  | uploadEvidence (caseId : Uuid) (file : UploadFile) (sourceType : EvidenceSourceType)
      (createdBy : Option String) (parentEvidenceId : Option Uuid)
  | listEvidence (caseId : Uuid)
  | getEvidence (caseId evidenceId : Uuid)
  | deleteEvidence (caseId evidenceId : Uuid)
  | listAudit (caseId : Uuid)
  | verifyAudit (caseId : Uuid)
  | startWorkflow (caseId : Uuid) (data : WorkflowStart)
  | getWorkflow (threadId : Uuid)
  | resumeWorkflow (threadId : Uuid) (data : WorkflowResume)

/-- What an endpoint returns. -/
inductive Payload
  | case (c : Case)
  | cases (l : List Case)
  | evidence (e : Evidence)
  | evidences (l : List Evidence)
  | events (l : List AuditEvent)
  | verification (v : AuditVerifyResponse)
  | workflow (r : WorkflowResponse)
  | noContent

/-- The status of a response that is no error. -/
def Endpoint.statusCode : Endpoint → ℕ
  | .createCase _ => 201
  | .uploadEvidence .. => 201
  | .deleteEvidence .. => 204
  | .startWorkflow .. => 201
  | _ => 200

def Payload.ofResult : Services.Result → Payload
  | .evidence e => .evidence e
  | .case c => .case c
  | .deleted => .noContent

/-- The session of a request that goes beyond the services. -/
def withSession {α : Type} (p : ApiM α) : Prog ApiOp ApiAnswer (Except Exn α) := do
  let r ← p.run
  let _ ← Prog.call (.inl .close : ApiOp)
  return r

/-- The request that an endpoint hands to the services as a whole. -/
def Endpoint.request : Endpoint → Option Services.Request
  | .createCase data => some (.createCase data)
  | .updateCase caseId data => some (.updateCase caseId data)
  | .uploadEvidence caseId file sourceType createdBy parentEvidenceId =>
    some (.upload caseId file sourceType createdBy parentEvidenceId)
  | .deleteEvidence caseId evidenceId => some (.delete caseId evidenceId)
  | _ => none

def getCase (app : App) (caseId : Uuid) : ApiM Case := lift (app.caseService.getCase caseId)

/-- The endpoints that only read, and those of the workflows. -/
def look (app : App) : Endpoint → ApiM Payload
  | .listCases offset limit => .cases <$> CaseService.listCases app.caseService offset limit
  | .getCase caseId => .case <$> getCase app caseId
  | .listEvidence caseId => .evidences <$> EvidenceService.listEvidence app.evidenceService caseId
  | .getEvidence caseId evidenceId =>
    .evidence <$> lift (app.evidenceService.getEvidence caseId evidenceId)
  | .listAudit caseId => do
    let _ ← getCase app caseId
    .events <$> AuditService.list app.caseService.auditService caseId
  | .verifyAudit caseId => do
    let _ ← getCase app caseId
    .verification <$> AuditService.verify app.caseService.auditService caseId
  | .startWorkflow caseId data => .workflow <$> startWorkflow caseId data
  | .getWorkflow threadId => .workflow <$> getWorkflow threadId
  | .resumeWorkflow threadId data => .workflow <$> resumeWorkflow threadId data
  | _ => pure .noContent

/-- The program of an endpoint, in a session of its own. -/
def serve (app : App) (endpoint : Endpoint) : Prog ApiOp ApiAnswer (Except Exn Payload) :=
  match endpoint.request with
  | some request => Except.map Payload.ofResult <$> inner (app.handle request)
  | none => withSession (look app endpoint)

/-! ### Validation of requests -/

/-- A request as it arrives, with the values of its path, its query and its body. -/
inductive RawRequest
  /-- A value that is missing, or is not of its type. -/
  | malformed
  | createCase (name : String) (description createdBy : Option String)
  | listCases (offset limit : Option ℤ)
  | getCase (caseId : Uuid)
  | updateCase (caseId : Uuid) (name description : Option (Option String))
      (status : Option (Option CaseStatus))
  | uploadEvidence (caseId : Uuid) (file : UploadFile) (sourceType : Option EvidenceSourceType)
      (createdBy : Option String) (parentEvidenceId : Option Uuid)
  | listEvidence (caseId : Uuid)
  | getEvidence (caseId evidenceId : Uuid)
  | deleteEvidence (caseId evidenceId : Uuid)
  | listAudit (caseId : Uuid)
  | verifyAudit (caseId : Uuid)
  | startWorkflow (caseId : Uuid) (analysisScope : Option String)
  | getWorkflow (threadId : Uuid)
  | resumeWorkflow (threadId : Uuid) (decision : Option ReviewAction) (approved : Option Bool)
      (comment reviewer : Option String)

/-- A value of a type whose values carry a check, if the check succeeds. -/
def checked {α : Type} (p : Prop) [Decidable p] (make : p → α) : Option α :=
  if h : p then some (make h) else none

/-- The endpoint of a request, unless its validation fails. -/
def RawRequest.parse : RawRequest → Option Endpoint
  | .malformed => none
  | .createCase name description createdBy =>
    checked ((1 ≤ name.length ∧ name.length ≤ 255) ∧ ∀ s ∈ createdBy, s.length ≤ 128) fun h =>
      .createCase ⟨name, description, createdBy, h.1, h.2⟩
  | .listCases offset limit =>
    checked (0 ≤ offset.getD 0 ∧ 1 ≤ limit.getD 100 ∧ limit.getD 100 ≤ 500) fun _ =>
      .listCases (offset.getD 0).toNat (limit.getD 100).toNat
  | .getCase caseId => some (.getCase caseId)
  | .updateCase caseId name description status =>
    checked (∀ s ∈ name.bind id, 1 ≤ s.length ∧ s.length ≤ 255) fun h =>
      .updateCase caseId ⟨name, description, status, fun s hs => h s (by simp [hs])⟩
  | .uploadEvidence caseId file sourceType createdBy parentEvidenceId =>
    some (.uploadEvidence caseId file (sourceType.getD .other) createdBy parentEvidenceId)
  | .listEvidence caseId => some (.listEvidence caseId)
  | .getEvidence caseId evidenceId => some (.getEvidence caseId evidenceId)
  | .deleteEvidence caseId evidenceId => some (.deleteEvidence caseId evidenceId)
  | .listAudit caseId => some (.listAudit caseId)
  | .verifyAudit caseId => some (.verifyAudit caseId)
  | .startWorkflow caseId analysisScope =>
    let scope := analysisScope.getD "case_overview"
    checked (1 ≤ scope.length ∧ scope.length ≤ 128) fun h => .startWorkflow caseId ⟨scope, h⟩
  | .getWorkflow threadId => some (.getWorkflow threadId)
  | .resumeWorkflow threadId decision approved comment reviewer =>
    checked ((decision.isSome ∨ approved.isSome) ∧ (∀ s ∈ comment, s.length ≤ 1000) ∧
        ∀ s ∈ reviewer, s.length ≤ 128) fun h =>
      .resumeWorkflow threadId ⟨decision, approved, comment, reviewer, h.1, h.2.1, h.2.2⟩

/-! ### Responses -/

structure ErrorDetail where
  code : String
  message : String
  requestId : String

inductive Body
  | payload (p : Payload)
  | error (detail : ErrorDetail)

structure Response where
  statusCode : ℕ
  body : Body
  /-- The header `X-Request-ID`. -/
  requestId : Option String

def domainErrorHandler (requestId : String) (exc : DomainError) : Response :=
  ⟨exc.statusCode, .error ⟨exc.code, exc.message, requestId⟩, none⟩

def unexpectedErrorHandler (requestId : String) : Response :=
  ⟨500, .error ⟨"INTERNAL_ERROR", "Internal server error", requestId⟩, none⟩

def validationErrorHandler (requestId : String) : Response :=
  ⟨422, .error ⟨"REQUEST_VALIDATION_ERROR", "Request validation failed", requestId⟩, none⟩

/-- What becomes of an exception that no handler below the middleware takes: a cancelled
request is not answered. -/
def unexpected (requestId : String) (exc : Exn) : Option Response :=
  if exc.isException then some (unexpectedErrorHandler requestId) else none

/-- The response to what an endpoint returns or raises. The middleware names the request in
every response but the one for an unexpected exception, which passes it by. -/
def conclude (endpoint : Endpoint) (requestId : String) : Except Exn Payload → Option Response
  | .ok payload => some ⟨endpoint.statusCode, .payload payload, some requestId⟩
  | .error (.domain e) => some { domainErrorHandler requestId e with requestId := some requestId }
  | .error e => unexpected requestId e

/-- A request with the header `X-Request-ID` it may have. -/
structure Incoming where
  requestId : Option String
  request : RawRequest

/-- `request_context`, and what it calls. The default for the header is drawn whether or not
it is needed. -/
def respond (app : App) (incoming : Incoming) : Prog ApiOp ApiAnswer (Option Response) := do
  match ← Prog.call (.inl .uuid4 : ApiOp) with
  | .error e => return unexpected "unknown" e
  | .ok u =>
    let requestId := incoming.requestId.getD u.str
    match incoming.request.parse with
    | none => return some { validationErrorHandler requestId with requestId := some requestId }
    | some endpoint =>
      let r ← serve app endpoint
      return conclude endpoint requestId r

end WhaleMas.Api
