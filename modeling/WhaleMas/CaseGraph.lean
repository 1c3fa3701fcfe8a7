import WhaleMas.Models
import WhaleMas.StateGraph

/-!
The graph of a case: prepare a summary, wait for a human review, and follow the decision.

The state is a dictionary. A field is `none` when its key is absent; reading an absent key
without a default raises.
-/

namespace WhaleMas.CaseGraph

open WhaleMas.Models WhaleMas.StateGraph

/-! ### The state -/

inductive WorkflowStatus
  | preparing | reanalyzing | waitingReview | waitingEvidence | completed | rejected | cancelled
  deriving DecidableEq

inductive ReviewAction
  | approve | reanalyze | requestEvidence | cancel | evidenceReady
  deriving DecidableEq

def ReviewAction.value : ReviewAction → String
  | .approve => "APPROVE"
  | .reanalyze => "REANALYZE"
  | .requestEvidence => "REQUEST_EVIDENCE"
  | .cancel => "CANCEL"
  | .evidenceReady => "EVIDENCE_READY"

structure ReviewRecord where
  action : ReviewAction
  comment : Option String
  reviewer : Option String
  reviewedAt : String
  round : ℕ
  deriving DecidableEq

structure CaseState where
  /-- The identifier, kept here in place of its text. -/
  caseId : Option Uuid
  caseName : Option String
  evidenceCount : Option ℕ
  analysisScope : Option String
  status : Option WorkflowStatus
  summary : Option String
  reviewApproved : Option (Option Bool)
  reviewDecision : Option (Option ReviewAction)
  reviewComment : Option (Option String)
  reviewer : Option (Option String)
  reviewedAt : Option (Option String)
  reviewRound : Option ℕ
  maxReviewRounds : Option ℕ
  reviewHistory : Option (List ReviewRecord)
  result : Option (Option String)

/-- The keys a node sets. -/
structure CaseStateUpdate where
  status : Option WorkflowStatus := none
  summary : Option String := none
  evidenceCount : Option ℕ := none
  reviewApproved : Option (Option Bool) := none
  reviewDecision : Option ReviewAction := none
  reviewComment : Option (Option String) := none
  reviewer : Option (Option String) := none
  reviewedAt : Option String := none
  reviewRound : Option ℕ := none
  reviewHistory : Option (List ReviewRecord) := none
  result : Option String := none

/-- The new value of a key, if it is set. -/
def set {α : Type} (old new : Option α) : Option α :=
  match new with
  | some a => some a
  | none => old

@[simp] lemma set_some {α : Type} (old : Option α) (a : α) : set old (some a) = some a := rfl
@[simp] lemma set_none {α : Type} (old : Option α) : set old none = old := rfl

/-- The keys set replace the old ones; the history is added to. -/
def merge (s : CaseState) (u : CaseStateUpdate) : CaseState where
  caseId := s.caseId
  caseName := s.caseName
  evidenceCount := set s.evidenceCount u.evidenceCount
  analysisScope := s.analysisScope
  status := set s.status u.status
  summary := set s.summary u.summary
  reviewApproved := set s.reviewApproved u.reviewApproved
  reviewDecision := set s.reviewDecision (u.reviewDecision.map some)
  reviewComment := set s.reviewComment u.reviewComment
  reviewer := set s.reviewer u.reviewer
  reviewedAt := set s.reviewedAt (u.reviewedAt.map some)
  reviewRound := set s.reviewRound u.reviewRound
  maxReviewRounds := s.maxReviewRounds
  reviewHistory := set s.reviewHistory
    (u.reviewHistory.map fun records => s.reviewHistory.getD [] ++ records)
  result := set s.result (u.result.map some)

/-! ### Pauses -/

inductive Interrupt
  | caseAnalysisReview (question : String) (caseId : Uuid) (summary : String)
      (reviewRound maxReviewRounds : ℕ) (allowedActions : List ReviewAction)
  | evidenceRequired (question : String) (caseId : Uuid) (reviewRound : ℕ)
      (allowedActions : List ReviewAction)
  deriving DecidableEq

def Interrupt.type : Interrupt → String
  | .caseAnalysisReview .. => "CASE_ANALYSIS_REVIEW"
  | .evidenceRequired .. => "EVIDENCE_REQUIRED"

/-- The decision a paused node is resumed with. -/
structure Decision where
  action : ReviewAction
  comment : Option String
  reviewer : Option String
  reviewedAt : String
  evidenceCount : Option ℕ

inductive NodeError
  | keyError (key : String)
  | valueError (message : String)
  deriving DecidableEq

abbrev NodeM := Outcome Interrupt NodeError

def getKey {α : Type} (key : String) : Option α → NodeM α
  | some a => .done a
  | none => .raised (.keyError key)

@[simp] lemma getKey_some {α : Type} (key : String) (a : α) : getKey key (some a) = .done a := rfl
@[simp] lemma getKey_none {α : Type} (key : String) :
    getKey key (none : Option α) = .raised (.keyError key) := rfl

/-! ### Texts -/

def prepareSummary (caseName : String) (round evidenceCount : ℕ) (analysisScope : String) :
    String :=
  "案件“" ++ caseName ++ "”已完成第 " ++ toString round ++ " 轮最小预研判准备，" ++
    "当前纳入 " ++ toString evidenceCount ++ " 份证据，范围为 " ++ analysisScope ++ "。"

def reanalyzeSummary (caseName : String) (nextRound evidenceCount : ℕ) : String :=
  "案件“" ++ caseName ++ "”已根据复核意见进入第 " ++ toString nextRound ++ " 轮重新研判；" ++
    "当前仍纳入 " ++ toString evidenceCount ++ " 份证据。"

def approvedResult (round : ℕ) : String :=
  "案件第 " ++ toString round ++ " 轮预研判已通过人工复核。"

def evidenceResult : String := "流程等待补充证据，材料上传完成后可继续。"

def limitResult (maxReviewRounds : ℕ) : String :=
  "案件已达到最大重研次数（" ++ toString maxReviewRounds ++ " 轮），流程自动终止。"

def cancelledResult : String := "案件研判流程已由人工复核明确终止。"

/-! ### Nodes -/

def prepareCase (state : CaseState) : NodeM CaseStateUpdate := do
  let caseName ← getKey "case_name" state.caseName
  let evidenceCount ← getKey "evidence_count" state.evidenceCount
  let analysisScope ← getKey "analysis_scope" state.analysisScope
  let summary := prepareSummary caseName (state.reviewRound.getD 1) evidenceCount analysisScope
  return { status := some .waitingReview, summary := some summary }

def requestHumanReview (resume : Option Decision) (state : CaseState) :
    NodeM CaseStateUpdate := do
  let caseId ← getKey "case_id" state.caseId
  let summary ← getKey "summary" state.summary
  let decision ← interrupt resume (.caseAnalysisReview "是否批准该案件预研判结果并完成流程？" caseId
    summary (state.reviewRound.getD 1) (state.maxReviewRounds.getD 3)
    [.approve, .reanalyze, .requestEvidence, .cancel])
  let action := decision.action
  return {
    reviewApproved := some (if action = .approve then some true
      else if action = .cancel then some false else none)
    reviewDecision := some action
    reviewComment := some decision.comment
    reviewer := some decision.reviewer
    reviewedAt := some decision.reviewedAt
    reviewHistory := some [{
      action := action
      comment := decision.comment
      reviewer := decision.reviewer
      reviewedAt := decision.reviewedAt
      round := state.reviewRound.getD 1 }] }

def finalizeCase (state : CaseState) : NodeM CaseStateUpdate :=
  return { status := some .completed, result := some (approvedResult (state.reviewRound.getD 1)) }

def reanalyzeCase (state : CaseState) : NodeM CaseStateUpdate := do
  let nextRound := (← getKey "review_round" state.reviewRound) + 1
  let caseName ← getKey "case_name" state.caseName
  let evidenceCount ← getKey "evidence_count" state.evidenceCount
  return {
    status := some .waitingReview
    reviewRound := some nextRound
    summary := some (reanalyzeSummary caseName nextRound evidenceCount) }

def markEvidenceRequired (_ : CaseState) : NodeM CaseStateUpdate :=
  return { status := some .waitingEvidence, result := some evidenceResult }

def awaitEvidence (resume : Option Decision) (state : CaseState) : NodeM CaseStateUpdate := do
  let caseId ← getKey "case_id" state.caseId
  let reviewRound ← getKey "review_round" state.reviewRound
  let decision ← interrupt resume (.evidenceRequired "补充材料是否已经上传完成？" caseId reviewRound
    [.evidenceReady])
  let nextRound := reviewRound + 1
  let evidenceCount ← getKey "evidence_count" decision.evidenceCount
  return {
    status := some .preparing
    evidenceCount := some evidenceCount
    reviewRound := some nextRound
    reviewComment := some decision.comment
    reviewer := some decision.reviewer
    reviewedAt := some decision.reviewedAt
    reviewHistory := some [{
      action := .evidenceReady
      comment := decision.comment
      reviewer := decision.reviewer
      reviewedAt := decision.reviewedAt
      round := nextRound }] }

def cancelCase (state : CaseState) : NodeM CaseStateUpdate := do
  let reviewDecision ← getKey "review_decision" state.reviewDecision
  -- the round and its limit are read for a re-analysis only
  let limitReached ←
    if reviewDecision = some .reanalyze then do
      let reviewRound ← getKey "review_round" state.reviewRound
      let maxReviewRounds ← getKey "max_review_rounds" state.maxReviewRounds
      pure (decide (maxReviewRounds ≤ reviewRound))
    else pure false
  let result ←
    if limitReached then do
      let maxReviewRounds ← getKey "max_review_rounds" state.maxReviewRounds
      pure (limitResult maxReviewRounds)
    else pure cancelledResult
  return { status := some .cancelled, result := some result }

def routeReviewDecision (state : CaseState) : Except NodeError ReviewAction :=
  match state.reviewDecision with
  | none => .error (.keyError "review_decision")
  | some decision =>
    if decision = some .reanalyze ∧ state.maxReviewRounds.getD 3 ≤ state.reviewRound.getD 1 then
      .ok .cancel
    else
      match decision with
      | some .approve => .ok .approve
      | some .reanalyze => .ok .reanalyze
      | some .requestEvidence => .ok .requestEvidence
      | some .cancel => .ok .cancel
      | some .evidenceReady =>
        .error (.valueError ("Unsupported review decision: " ++ ReviewAction.evidenceReady.value))
      | none => .error (.valueError "Unsupported review decision: None")

/-! ### The graph -/

inductive Node
  | prepareCase | humanReview | reanalyzeCase | markEvidenceRequired | awaitEvidence
  | finalizeCase | cancelCase
  deriving DecidableEq

def Node.name : Node → String
  | .prepareCase => "prepare_case"
  | .humanReview => "human_review"
  | .reanalyzeCase => "reanalyze_case"
  | .markEvidenceRequired => "mark_evidence_required"
  | .awaitEvidence => "await_evidence"
  | .finalizeCase => "finalize_case"
  | .cancelCase => "cancel_case"

/-- The node each review decision leads to. -/
def reviewEdges : ReviewAction → Option Node
  | .approve => some .finalizeCase
  | .reanalyze => some .reanalyzeCase
  | .requestEvidence => some .markEvidenceRequired
  | .cancel => some .cancelCase
  | .evidenceReady => none

def buildCaseWorkflow : Graph Node CaseState CaseStateUpdate Interrupt Decision NodeError where
  entry := .prepareCase
  node
    | .prepareCase, _, s => prepareCase s
    | .humanReview, r, s => requestHumanReview r s
    | .reanalyzeCase, _, s => reanalyzeCase s
    | .markEvidenceRequired, _, s => markEvidenceRequired s
    | .awaitEvidence, r, s => awaitEvidence r s
    | .finalizeCase, _, s => finalizeCase s
    | .cancelCase, _, s => cancelCase s
  merge := merge
  goto
    | .prepareCase, _ => .ok (some .humanReview)
    | .humanReview, s => do
      let decision ← routeReviewDecision s
      match reviewEdges decision with
      | some n => .ok (some n)
      | none => .error (.keyError decision.value)
    | .reanalyzeCase, _ => .ok (some .humanReview)
    | .markEvidenceRequired, _ => .ok (some .awaitEvidence)
    | .awaitEvidence, _ => .ok (some .prepareCase)
    | .finalizeCase, _ => .ok none
    | .cancelCase, _ => .ok none

abbrev Thread := Checkpoint Node CaseState Interrupt Decision

end WhaleMas.CaseGraph
