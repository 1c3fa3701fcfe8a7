import WhaleMas.CaseGraph

/-!
The service in front of the graph: starting a thread for a case, and resuming it with a
decision that is checked against the pending interrupt first.
-/

namespace WhaleMas.WorkflowService

open WhaleMas.Models WhaleMas.StateGraph WhaleMas.CaseGraph

/-! ### Requests and responses -/

structure WorkflowStart where
  analysisScope : String
  valid : 1 ≤ analysisScope.length ∧ analysisScope.length ≤ 128

structure WorkflowResume where
  decision : Option ReviewAction
  approved : Option Bool
  comment : Option String
  reviewer : Option String
  validDecision : decision.isSome ∨ approved.isSome
  validComment : ∀ s ∈ comment, s.length ≤ 1000
  validReviewer : ∀ s ∈ reviewer, s.length ≤ 128

def WorkflowResume.resolvedDecision (data : WorkflowResume) : ReviewAction :=
  match data.decision with
  | some decision => decision
  | none => if data.approved = some true then .approve else .cancel

structure WorkflowStateResponse where
  caseName : String
  evidenceCount : ℕ
  analysisScope : String
  summary : String
  reviewApproved : Option Bool
  reviewDecision : Option ReviewAction
  reviewComment : Option String
  reviewer : Option String
  reviewedAt : Option String
  reviewRound : ℕ
  maxReviewRounds : ℕ
  reviewHistory : List ReviewRecord
  result : Option String
  deriving DecidableEq

structure WorkflowResponse where
  threadId : Uuid
  caseId : Uuid
  status : WorkflowStatus
  nextNodes : List String
  interrupt : Option Interrupt
  state : WorkflowStateResponse
  deriving DecidableEq

inductive ServiceError
  | domain (e : DomainError)
  | keyError (key : String)
  | graph (e : Failure NodeError)

/-- What LangGraph decides: how many nodes one invocation may run, and what is left of a thread
when an invocation ends with an exception. -/
structure Engine where
  limit : ℕ
  /-- The default limit of LangGraph is not below this. -/
  enough : 25 ≤ limit
  leave : Leave Node CaseState CaseStateUpdate Interrupt Decision NodeError
  orderly : Orderly buildCaseWorkflow leave

/-- An engine that keeps what a failed task has written, and its resume value. -/
def langGraph : Engine where
  limit := 25
  enough := le_rfl
  leave := keepWrites buildCaseWorkflow
  orderly := orderly_keepWrites _

/-! ### The service -/

def field {α : Type} (key : String) : Option α → Except ServiceError α
  | some a => .ok a
  | none => .error (.keyError key)

@[simp] lemma field_some {α : Type} (key : String) (a : α) : field key (some a) = .ok a := rfl

def toResponse (threadId : Uuid) (snapshot : Thread) : Except ServiceError WorkflowResponse := do
  let state := snapshot.values
  return {
    threadId := threadId
    caseId := ← field "case_id" state.caseId
    status := ← field "status" state.status
    nextNodes := snapshot.next.toList.map Node.name
    interrupt := snapshot.interrupt
    state := {
      caseName := ← field "case_name" state.caseName
      evidenceCount := ← field "evidence_count" state.evidenceCount
      analysisScope := ← field "analysis_scope" state.analysisScope
      summary := ← field "summary" state.summary
      reviewApproved := ← field "review_approved" state.reviewApproved
      reviewDecision := state.reviewDecision.getD none
      reviewComment := ← field "review_comment" state.reviewComment
      reviewer := state.reviewer.getD none
      reviewedAt := state.reviewedAt.getD none
      reviewRound := state.reviewRound.getD 1
      maxReviewRounds := state.maxReviewRounds.getD 3
      reviewHistory := state.reviewHistory.getD []
      result := ← field "result" state.result } }

def initialState (case : Case) (evidence : List Evidence) (data : WorkflowStart) :
    CaseState where
  caseId := some case.id
  caseName := some case.name
  evidenceCount := some evidence.length
  analysisScope := some data.analysisScope
  status := some .preparing
  summary := some ""
  reviewApproved := some none
  reviewDecision := some none
  reviewComment := some none
  reviewer := some none
  reviewedAt := some none
  reviewRound := some 1
  maxReviewRounds := some 3
  reviewHistory := some []
  result := some none

/-- Respond with the state a thread is left in, unless its invocation raised. -/
def respond (threadId : Uuid) (after : Thread × Option (Failure NodeError)) :
    Except ServiceError WorkflowResponse :=
  match after.2 with
  | some e => .error (.graph e)
  | none => toResponse threadId after.1

/-- `WorkflowService.start` on the case and the evidence its repositories give. -/
def start (engine : Engine) (case : Option Case) (evidence : List Evidence)
    (data : WorkflowStart) (threadId : Uuid) :
    Option Thread × Except ServiceError WorkflowResponse :=
  match case with
  | none => (none, .error (.domain (notFoundError "CASE_NOT_FOUND" "Case not found")))
  | some case =>
    let after := invoke buildCaseWorkflow engine.leave engine.limit
      (initialState case evidence data)
    (some after.1, respond threadId after)

/-- A request to resume a thread, with the time and the evidence it meets. -/
structure Request where
  data : WorkflowResume
  now : Datetime
  evidence : Uuid → List Evidence

/-- The decisions that answer an interrupt of a type. -/
def allowed (interruptType : String) : List ReviewAction :=
  if interruptType = "CASE_ANALYSIS_REVIEW" then
    [.approve, .reanalyze, .requestEvidence, .cancel]
  else [.evidenceReady]

/-- The first part of `resume`: check the decision against the snapshot of the thread and
make the payload. -/
def validate (snapshot : Thread) (q : Request) : Except ServiceError Decision :=
  match snapshot.interrupt with
  | none =>
    .error (.domain (conflictError "WORKFLOW_NOT_WAITING" "Workflow is not waiting for review"))
  | some interruptValue =>
    let decision := q.data.resolvedDecision
    if decision ∉ allowed interruptValue.type then
      .error (.domain (conflictError "INVALID_WORKFLOW_DECISION"
        ("Decision " ++ decision.value ++ " is not valid for " ++ interruptValue.type)))
    else do
      let evidenceCount ←
        if decision = .evidenceReady then do
          let caseId ← field "case_id" snapshot.values.caseId
          pure (some (q.evidence caseId).length)
        else pure none
      return {
        action := decision
        comment := q.data.comment
        reviewer := q.data.reviewer
        reviewedAt := q.now.isoformat
        evidenceCount := evidenceCount }

/-- The second part of `resume`: hand the decision to the thread as it now is. -/
def act (engine : Engine) (thread : Thread) (decision : Decision) :
    Thread × Option (Failure NodeError) :=
  resumeWith buildCaseWorkflow engine.leave engine.limit thread decision

/-- `WorkflowService.resume` run alone. -/
def resume (engine : Engine) (threadId : Uuid) (thread : Option Thread) (q : Request) :
    Option Thread × Except ServiceError WorkflowResponse :=
  match thread with
  | none =>
    (none, .error (.domain (notFoundError "WORKFLOW_NOT_FOUND" "Workflow thread not found")))
  | some snapshot =>
    match validate snapshot q with
    | .error e => (thread, .error e)
    | .ok decision =>
      let after := act engine snapshot decision
      (some after.1, respond threadId after)

end WhaleMas.WorkflowService
