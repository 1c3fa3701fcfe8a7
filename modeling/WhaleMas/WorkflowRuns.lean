import WhaleMas.WorkflowService

/-!
What a thread goes through. A started thread stands in one of four configurations, with
every key of its state set, and an accepted decision moves it by `answer`. The nodes of the
graph are run once here; what holds of threads is then read off `answer`.
-/

namespace WhaleMas.WorkflowRuns

open WhaleMas.Models WhaleMas.StateGraph WhaleMas.CaseGraph WhaleMas.WorkflowService

/-! ### Configurations -/

/-- A state with every key set. -/
structure Filled where
  caseId : Uuid
  caseName : String
  evidenceCount : ℕ
  analysisScope : String
  status : WorkflowStatus
  summary : String
  reviewApproved : Option Bool
  reviewDecision : Option ReviewAction
  reviewComment : Option String
  reviewer : Option String
  reviewedAt : Option String
  reviewRound : ℕ
  maxReviewRounds : ℕ
  reviewHistory : List ReviewRecord
  result : Option String

def Filled.toState (s : Filled) : CaseState where
  caseId := some s.caseId
  caseName := some s.caseName
  evidenceCount := some s.evidenceCount
  analysisScope := some s.analysisScope
  status := some s.status
  summary := some s.summary
  reviewApproved := some s.reviewApproved
  reviewDecision := some s.reviewDecision
  reviewComment := some s.reviewComment
  reviewer := some s.reviewer
  reviewedAt := some s.reviewedAt
  reviewRound := some s.reviewRound
  maxReviewRounds := some s.maxReviewRounds
  reviewHistory := some s.reviewHistory
  result := some s.result

inductive Config
  | review | evidence | completed | cancelled
  deriving DecidableEq

def Config.status : Config → WorkflowStatus
  | .review => .waitingReview
  | .evidence => .waitingEvidence
  | .completed => .completed
  | .cancelled => .cancelled

def Config.next : Config → Option Node
  | .review => some .humanReview
  | .evidence => some .awaitEvidence
  | .completed => none
  | .cancelled => none

/-- The type of the pending interrupt. -/
def Config.pending : Config → Option String
  | .review => some "CASE_ANALYSIS_REVIEW"
  | .evidence => some "EVIDENCE_REQUIRED"
  | .completed => none
  | .cancelled => none

/-- The decisions that are accepted. -/
def Config.actions : Config → List ReviewAction
  | .review => [.approve, .reanalyze, .requestEvidence, .cancel]
  | .evidence => [.evidenceReady]
  | .completed => []
  | .cancelled => []

/-- The interrupt that shows the state to whoever is asked. -/
def Config.interrupt (s : Filled) : Config → Option Interrupt
  | .review => some (.caseAnalysisReview "是否批准该案件预研判结果并完成流程？" s.caseId s.summary
      s.reviewRound s.maxReviewRounds [.approve, .reanalyze, .requestEvidence, .cancel])
  | .evidence => some (.evidenceRequired "补充材料是否已经上传完成？" s.caseId s.reviewRound
      [.evidenceReady])
  | .completed => none
  | .cancelled => none

/-- The checkpoint of a thread in a configuration. -/
def checkpointOf (cfg : Config) (s : Filled) : Thread :=
  ⟨s.toState, cfg.next, cfg.interrupt s, none⟩

/-! ### Answers -/

/-- The record of a decision. -/
def record (d : Decision) (round : ℕ) : ReviewRecord :=
  ⟨d.action, d.comment, d.reviewer, d.reviewedAt, round⟩

/-- The state with a review decision entered. -/
@[simps reviewRound maxReviewRounds result]
def Filled.reviewed (s : Filled) (d : Decision) : Filled :=
  { s with
    reviewApproved := if d.action = .approve then some true
      else if d.action = .cancel then some false else none
    reviewDecision := some d.action
    reviewComment := d.comment
    reviewer := d.reviewer
    reviewedAt := some d.reviewedAt
    reviewHistory := s.reviewHistory ++ [record d s.reviewRound] }

/-- The state with the supply of evidence entered, in a new round. -/
@[simps reviewRound maxReviewRounds result]
def Filled.supplied (s : Filled) (d : Decision) (evidenceCount : ℕ) : Filled :=
  { s with
    status := .preparing
    evidenceCount := evidenceCount
    reviewRound := s.reviewRound + 1
    reviewComment := d.comment
    reviewer := d.reviewer
    reviewedAt := some d.reviewedAt
    reviewHistory := s.reviewHistory ++ [record d (s.reviewRound + 1)] }

@[simps reviewRound maxReviewRounds result]
def Filled.prepared (s : Filled) : Filled :=
  { s with
    status := .waitingReview
    summary := prepareSummary s.caseName s.reviewRound s.evidenceCount s.analysisScope }

@[simps reviewRound maxReviewRounds result]
def Filled.finalized (s : Filled) : Filled :=
  { s with status := .completed, result := some (approvedResult s.reviewRound) }

@[simps reviewRound maxReviewRounds result]
def Filled.reanalyzed (s : Filled) : Filled :=
  { s with
    status := .waitingReview
    reviewRound := s.reviewRound + 1
    summary := reanalyzeSummary s.caseName (s.reviewRound + 1) s.evidenceCount }

@[simps reviewRound maxReviewRounds result]
def Filled.evidenceRequired (s : Filled) : Filled :=
  { s with status := .waitingEvidence, result := some evidenceResult }

@[simps reviewRound maxReviewRounds result]
def Filled.cancelled (s : Filled) (result : String) : Filled :=
  { s with status := .cancelled, result := some result }

/-- Where a decision takes a thread, and `none` if it does not answer the pause. -/
def answer (s : Filled) (d : Decision) : Config → Option (Config × Filled)
  | .review =>
    match d.action with
    | .approve => some (.completed, (s.reviewed d).finalized)
    | .reanalyze =>
      if s.reviewRound < s.maxReviewRounds then some (.review, (s.reviewed d).reanalyzed)
      else some (.cancelled, (s.reviewed d).cancelled (limitResult s.maxReviewRounds))
    | .requestEvidence => some (.evidence, (s.reviewed d).evidenceRequired)
    | .cancel => some (.cancelled, (s.reviewed d).cancelled cancelledResult)
    | .evidenceReady => none
  | .evidence =>
    match d.action, d.evidenceCount with
    | .evidenceReady, some n => some (.review, (s.supplied d n).prepared)
    | _, _ => none
  | .completed => none
  | .cancelled => none

/-- The ways a decision can be taken, one by one. -/
inductive Answered (s : Filled) (d : Decision) : Config → Config → Filled → Prop
  | approve (ha : d.action = .approve) :
    Answered s d .review .completed (s.reviewed d).finalized
  | reanalyze (ha : d.action = .reanalyze) (hr : s.reviewRound < s.maxReviewRounds) :
    Answered s d .review .review (s.reviewed d).reanalyzed
  | limit (ha : d.action = .reanalyze) (hr : s.maxReviewRounds ≤ s.reviewRound) :
    Answered s d .review .cancelled ((s.reviewed d).cancelled (limitResult s.maxReviewRounds))
  | requestEvidence (ha : d.action = .requestEvidence) :
    Answered s d .review .evidence (s.reviewed d).evidenceRequired
  | cancel (ha : d.action = .cancel) :
    Answered s d .review .cancelled ((s.reviewed d).cancelled cancelledResult)
  | evidenceReady (n : ℕ) (ha : d.action = .evidenceReady) (hn : d.evidenceCount = some n) :
    Answered s d .evidence .review (s.supplied d n).prepared

lemma answered_of_answer {cfg cfg' : Config} {s s' : Filled} {d : Decision}
    (h : answer s d cfg = some (cfg', s')) : Answered s d cfg cfg' s' := by
  cases cfg with
  | review =>
    cases ha : d.action <;> simp only [answer, ha] at h
    case approve => cases h; exact .approve ha
    case reanalyze =>
      by_cases hr : s.reviewRound < s.maxReviewRounds
      · rw [if_pos hr] at h; cases h; exact .reanalyze ha hr
      · rw [if_neg hr] at h; cases h; exact .limit ha (Nat.le_of_not_lt hr)
    case requestEvidence => cases h; exact .requestEvidence ha
    case cancel => cases h; exact .cancel ha
    case evidenceReady => cases h
  | evidence =>
    cases ha : d.action <;> cases hn : d.evidenceCount <;> simp only [answer, ha, hn] at h
    all_goals cases h
    exact .evidenceReady _ ha hn
  | completed => cases h
  | cancelled => cases h

lemma Answered.next_ne_none {cfg cfg' : Config} {s s' : Filled} {d : Decision}
    (h : Answered s d cfg cfg' s') : cfg.next ≠ none := by
  cases h <;> simp [Config.next]

/-- The round grows with new evidence and with a re-analysis that leads back to review. -/
lemma Answered.reviewRound {cfg cfg' : Config} {s s' : Filled} {d : Decision}
    (h : Answered s d cfg cfg' s') : s'.reviewRound = s.reviewRound +
      (if d.action = .evidenceReady then 1 else 0) +
      (if d.action = .reanalyze ∧ cfg' = .review then 1 else 0) := by
  cases h <;> simp [*]

/-! ### The graph runs the answers -/

section Act

variable {engine : Engine} {cfg cfg' : Config} {s s' : Filled} {d : Decision}

/-- Reaching the review pauses there, with the state shown. -/
lemma run_humanReview (fuel : ℕ) (s : Filled) :
    run buildCaseWorkflow engine.leave (fuel + 1) none none s.toState .humanReview =
      (checkpointOf .review s, none) :=
  run_interrupted rfl

lemma run_awaitEvidence (fuel : ℕ) (s : Filled) :
    run buildCaseWorkflow engine.leave (fuel + 1) none none s.toState .awaitEvidence =
      (checkpointOf .evidence s, none) :=
  run_interrupted rfl

lemma run_prepareCase (fuel : ℕ) (s : Filled) :
    run buildCaseWorkflow engine.leave (fuel + 2) none none s.toState .prepareCase =
      (checkpointOf .review s.prepared, none) := by
  rw [run_goto (t := s.prepared.toState) (m := .humanReview) rfl rfl rfl]
  exact run_humanReview fuel _

/-- A review decision enters the state and is routed. -/
lemma run_reviewed {a : ReviewAction} {n : Node} (fuel : ℕ) (pending : Option Interrupt)
    (s : Filled) (d : Decision) (hn : routeReviewDecision (s.reviewed d).toState = .ok a)
    (ha : reviewEdges a = some n) :
    run buildCaseWorkflow engine.leave (fuel + 1) (some d) pending s.toState .humanReview =
      run buildCaseWorkflow engine.leave fuel none none (s.reviewed d).toState n := by
  refine run_goto (t := (s.reviewed d).toState) rfl rfl ?_
  simp [buildCaseWorkflow, hn, ha, bind, Except.bind]

lemma routeReviewDecision_reviewed (s : Filled) (d : Decision) :
    routeReviewDecision (s.reviewed d).toState =
      match d.action with
      | .approve => .ok .approve
      | .reanalyze => if s.reviewRound < s.maxReviewRounds then .ok .reanalyze else .ok .cancel
      | .requestEvidence => .ok .requestEvidence
      | .cancel => .ok .cancel
      | .evidenceReady => .error (.valueError "Unsupported review decision: EVIDENCE_READY") := by
  cases ha : d.action
  case reanalyze =>
    by_cases hr : s.reviewRound < s.maxReviewRounds
    · have hr' : ¬ s.maxReviewRounds ≤ s.reviewRound := by omega
      simp [routeReviewDecision, Filled.reviewed, Filled.toState, ha, hr, hr']
    · have hr' : s.maxReviewRounds ≤ s.reviewRound := by omega
      simp [routeReviewDecision, Filled.reviewed, Filled.toState, ha, hr, hr']
  all_goals simp [routeReviewDecision, Filled.reviewed, Filled.toState, ha, ReviewAction.value]

/-- The router and `cancel_case` test the limit alike. -/
lemma cancelCase_toState (s : Filled) : cancelCase s.toState = .done {
    status := some .cancelled
    result := some (if s.reviewDecision = some .reanalyze ∧ s.maxReviewRounds ≤ s.reviewRound then
      limitResult s.maxReviewRounds else cancelledResult) } := by
  by_cases hd : s.reviewDecision = some .reanalyze
  · by_cases hr : s.maxReviewRounds ≤ s.reviewRound <;> simp [cancelCase, Filled.toState, hd, hr]
  · simp [cancelCase, Filled.toState, hd]

lemma run_cancelCase (fuel : ℕ) (s : Filled) :
    run buildCaseWorkflow engine.leave (fuel + 1) none none s.toState .cancelCase =
      (checkpointOf .cancelled (s.cancelled
        (if s.reviewDecision = some .reanalyze ∧ s.maxReviewRounds ≤ s.reviewRound then
          limitResult s.maxReviewRounds else cancelledResult)), none) :=
  run_end (cancelCase_toState s) rfl rfl

lemma awaitEvidence_toState {n : ℕ} (s : Filled) (ha : d.action = .evidenceReady)
    (hn : d.evidenceCount = some n) : awaitEvidence (some d) s.toState = .done {
      status := some .preparing
      evidenceCount := some n
      reviewRound := some (s.reviewRound + 1)
      reviewComment := some d.comment
      reviewer := some d.reviewer
      reviewedAt := some d.reviewedAt
      reviewHistory := some [record d (s.reviewRound + 1)] } := by
  simp [awaitEvidence, Filled.toState, hn, record, ha]

lemma act_review (h : answer s d .review = some (cfg', s')) :
    act engine (checkpointOf .review s) d = (checkpointOf cfg' s', none) := by
  obtain ⟨k, hk⟩ := Nat.exists_eq_add_of_le' engine.enough
  have hroute := routeReviewDecision_reviewed s d
  rw [act, resumeWith_paused rfl rfl, hk]
  change run buildCaseWorkflow engine.leave (k + 22 + 1 + 1 + 1) (some d) _ s.toState
    .humanReview = _
  cases answered_of_answer h with
  | approve ha =>
    simp only [ha] at hroute
    rw [run_reviewed _ _ s d hroute rfl]
    exact run_end rfl rfl rfl
  | reanalyze ha hr =>
    simp only [ha, hr, if_true] at hroute
    rw [run_reviewed _ _ s d hroute rfl,
      run_goto (t := (s.reviewed d).reanalyzed.toState) rfl rfl rfl]
    exact run_humanReview _ _
  | limit ha hr =>
    simp only [ha, Nat.not_lt_of_le hr, if_false] at hroute
    have hlimit : (s.reviewed d).reviewDecision = some .reanalyze ∧
        (s.reviewed d).maxReviewRounds ≤ (s.reviewed d).reviewRound := ⟨congrArg some ha, hr⟩
    rw [run_reviewed _ _ s d hroute rfl, run_cancelCase, if_pos hlimit]
    rfl
  | requestEvidence ha =>
    simp only [ha] at hroute
    rw [run_reviewed _ _ s d hroute rfl,
      run_goto (t := (s.reviewed d).evidenceRequired.toState) rfl rfl rfl]
    exact run_awaitEvidence _ _
  | cancel ha =>
    simp only [ha] at hroute
    have hno : ¬ ((s.reviewed d).reviewDecision = some .reanalyze ∧
        (s.reviewed d).maxReviewRounds ≤ (s.reviewed d).reviewRound) := by
      simp [Filled.reviewed, ha]
    rw [run_reviewed _ _ s d hroute rfl, run_cancelCase, if_neg hno]

lemma act_evidence (h : answer s d .evidence = some (cfg', s')) :
    act engine (checkpointOf .evidence s) d = (checkpointOf cfg' s', none) := by
  obtain ⟨k, hk⟩ := Nat.exists_eq_add_of_le' engine.enough
  rw [act, resumeWith_paused rfl rfl, hk]
  cases answered_of_answer h with
  | evidenceReady n ha hn =>
    rw [run_goto (t := (s.supplied d n).toState) (awaitEvidence_toState s ha hn) rfl rfl]
    exact run_prepareCase _ _

/-- **The graph runs the answers**: a decision that answers the pause moves the thread to the
checkpoint of the answer, and no node raises. -/
theorem act_answer (h : answer s d cfg = some (cfg', s')) :
    act engine (checkpointOf cfg s) d = (checkpointOf cfg' s', none) := by
  cases cfg with
  | review => exact act_review h
  | evidence => exact act_evidence h
  | completed => cases h
  | cancelled => cases h

end Act

/-! ### Requests -/

/-- The decision a request hands to a thread of a case. -/
def payload (q : Request) (caseId : Uuid) : Decision where
  action := q.data.resolvedDecision
  comment := q.data.comment
  reviewer := q.data.reviewer
  reviewedAt := q.now.isoformat
  evidenceCount :=
    if q.data.resolvedDecision = .evidenceReady then some (q.evidence caseId).length else none

/-- The conflict a refused request is answered with. -/
def refusal (q : Request) (cfg : Config) : DomainError :=
  match cfg.pending with
  | none => conflictError "WORKFLOW_NOT_WAITING" "Workflow is not waiting for review"
  | some type => conflictError "INVALID_WORKFLOW_DECISION"
      ("Decision " ++ q.data.resolvedDecision.value ++ " is not valid for " ++ type)

lemma refusal_statusCode (q : Request) (cfg : Config) : (refusal q cfg).statusCode = 409 := by
  cases cfg <;> rfl

/-- The response that shows a thread in a configuration. -/
def responseOf (threadId : Uuid) (cfg : Config) (s : Filled) : WorkflowResponse where
  threadId := threadId
  caseId := s.caseId
  status := s.status
  nextNodes := cfg.next.toList.map Node.name
  interrupt := cfg.interrupt s
  state := {
    caseName := s.caseName
    evidenceCount := s.evidenceCount
    analysisScope := s.analysisScope
    summary := s.summary
    reviewApproved := s.reviewApproved
    reviewDecision := s.reviewDecision
    reviewComment := s.reviewComment
    reviewer := s.reviewer
    reviewedAt := s.reviewedAt
    reviewRound := s.reviewRound
    maxReviewRounds := s.maxReviewRounds
    reviewHistory := s.reviewHistory
    result := s.result }

lemma toResponse_checkpointOf (threadId : Uuid) (cfg : Config) (s : Filled) :
    toResponse threadId (checkpointOf cfg s) = .ok (responseOf threadId cfg s) := rfl

section Resume

variable {engine : Engine} {threadId : Uuid} {cfg cfg' : Config} {s s' : Filled}
  {q : Request}

lemma answer_isSome : (answer s (payload q s.caseId) cfg).isSome ↔
    q.data.resolvedDecision ∈ cfg.actions := by
  cases cfg <;> cases ha : q.data.resolvedDecision <;> simp [answer, payload, Config.actions, ha]
  split_ifs <;> rfl

/-- The pending interrupt has the type of the configuration. -/
lemma interrupt_type : (cfg.interrupt s).map Interrupt.type = cfg.pending := by
  cases cfg <;> rfl

/-- The decisions that answer a pending interrupt are those of the configuration. -/
lemma allowed_type {v : Interrupt} (h : cfg.pending = some v.type) :
    allowed v.type = cfg.actions := by
  cases cfg with
  | review | evidence => rw [← Option.some.inj h]; rfl
  | completed | cancelled => cases h

/-- A request is validated exactly when its decision answers what is pending. -/
lemma validate_pending {state : CaseState} {caseId : Uuid} {v : Option Interrupt}
    (hc : state.caseId = some caseId) (hv : v.map Interrupt.type = cfg.pending) :
    validate ⟨state, cfg.next, v, none⟩ q =
      if q.data.resolvedDecision ∈ cfg.actions then .ok (payload q caseId)
      else .error (.domain (refusal q cfg)) := by
  cases v with
  | none =>
    have hp : cfg.pending = none := hv.symm
    have ha : cfg.actions = [] := by cases cfg <;> first | rfl | cases hp
    simp [validate, ha, refusal, hp]
  | some v =>
    have hp : cfg.pending = some v.type := hv.symm
    have ha := allowed_type hp
    by_cases hmem : q.data.resolvedDecision ∈ cfg.actions
    · by_cases he : q.data.resolvedDecision = .evidenceReady
      · simp [validate, ha, he ▸ hmem, he, payload, hc]
      · simp [validate, ha, hmem, he, payload]
        rfl
    · simp [validate, ha, hmem, refusal, hp]

lemma validate_checkpointOf : validate (checkpointOf cfg s) q =
    if q.data.resolvedDecision ∈ cfg.actions then .ok (payload q s.caseId)
    else .error (.domain (refusal q cfg)) :=
  validate_pending rfl interrupt_type

lemma resume_accepted (h : answer s (payload q s.caseId) cfg = some (cfg', s')) :
    resume engine threadId (some (checkpointOf cfg s)) q =
      (some (checkpointOf cfg' s'), .ok (responseOf threadId cfg' s')) := by
  have hmem : q.data.resolvedDecision ∈ cfg.actions := answer_isSome.mp (by rw [h]; rfl)
  simp only [resume, validate_checkpointOf, if_pos hmem, act_answer h, respond,
    toResponse_checkpointOf]

lemma resume_refused (h : answer s (payload q s.caseId) cfg = none) :
    resume engine threadId (some (checkpointOf cfg s)) q =
      (some (checkpointOf cfg s), .error (.domain (refusal q cfg))) := by
  have hmem : q.data.resolvedDecision ∉ cfg.actions := by
    intro hmem
    rw [← answer_isSome (s := s), h] at hmem
    cases hmem
  simp only [resume, validate_checkpointOf, if_neg hmem]

end Resume

/-! ### Runs -/

/-- The state a thread starts from. -/
def opening (case : Case) (evidence : List Evidence) (data : WorkflowStart) : Filled where
  caseId := case.id
  caseName := case.name
  evidenceCount := evidence.length
  analysisScope := data.analysisScope
  status := .preparing
  summary := ""
  reviewApproved := none
  reviewDecision := none
  reviewComment := none
  reviewer := none
  reviewedAt := none
  reviewRound := 1
  maxReviewRounds := 3
  reviewHistory := []
  result := none

lemma start_eq (engine : Engine) (case : Case) (evidence : List Evidence)
    (data : WorkflowStart) (threadId : Uuid) :
    start engine (some case) evidence data threadId =
      (some (checkpointOf .review (opening case evidence data).prepared),
        .ok (responseOf threadId .review (opening case evidence data).prepared)) := by
  obtain ⟨k, hk⟩ := Nat.exists_eq_add_of_le' engine.enough
  have hrun : invoke buildCaseWorkflow engine.leave engine.limit (initialState case evidence data) =
      (checkpointOf .review (opening case evidence data).prepared, none) := by
    rw [hk]
    exact run_prepareCase (k + 23) (opening case evidence data)
  simp only [start, hrun, respond, toResponse_checkpointOf]

/-- The thread after a sequence of requests. -/
def afterRequests (engine : Engine) (threadId : Uuid) (thread : Option Thread)
    (qs : List Request) : Option Thread :=
  qs.foldl (fun thread q => (resume engine threadId thread q).1) thread

@[simp] lemma afterRequests_nil (engine : Engine) (threadId : Uuid)
    (thread : Option Thread) : afterRequests engine threadId thread [] = thread := rfl

@[simp] lemma afterRequests_snoc (engine : Engine) (threadId : Uuid)
    (thread : Option Thread) (qs : List Request) (q : Request) :
    afterRequests engine threadId thread (qs ++ [q]) =
      (resume engine threadId (afterRequests engine threadId thread qs) q).1 := by
  simp [afterRequests]

/-- The rule for runs: what holds of the opening and is kept by every answer holds of every
thread a run comes to. -/
theorem afterRequests_induction {P : Config → Filled → Prop} (engine : Engine)
    (case : Case) (evidence : List Evidence) (data : WorkflowStart) (threadId : Uuid)
    (hopen : P .review (opening case evidence data).prepared)
    (hstep : ∀ s d cfg cfg' s', P cfg s → Answered s d cfg cfg' s' → P cfg' s')
    (qs : List Request) :
    ∃ cfg s, afterRequests engine threadId (start engine (some case) evidence data threadId).1 qs =
      some (checkpointOf cfg s) ∧ P cfg s := by
  induction qs using List.reverseRecOn with
  | nil => exact ⟨_, _, by rw [afterRequests_nil, start_eq], hopen⟩
  | append_singleton qs q ih =>
    obtain ⟨cfg, s, hc, hP⟩ := ih
    rw [afterRequests_snoc, hc]
    cases h : answer s (payload q s.caseId) cfg with
    | none => exact ⟨cfg, s, by rw [resume_refused h], hP⟩
    | some next =>
      obtain ⟨cfg', s'⟩ := next
      exact ⟨cfg', s', by rw [resume_accepted h], hstep _ _ _ _ _ hP (answered_of_answer h)⟩

end WhaleMas.WorkflowRuns
