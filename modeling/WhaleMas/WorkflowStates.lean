import WhaleMas.WorkflowRuns

/-!
The state machine of a thread: the four configurations, which requests each of them accepts and
where they lead, and what a pause shows to the person who is asked.
-/

namespace WhaleMas.WorkflowStates

open WhaleMas.Models WhaleMas.StateGraph WhaleMas.CaseGraph WhaleMas.WorkflowService
open WhaleMas.WorkflowRuns

/-- A thread is in a configuration: its status, its next node and its pending interrupt. -/
structure Stands (cfg : Config) (c : Thread) : Prop where
  status : c.values.status = some cfg.status
  next : c.next = cfg.next
  interrupt : c.interrupt.map Interrupt.type = cfg.pending

/-- What a pending interrupt shows is in the state. -/
def Shown (state : CaseState) : Interrupt → Prop
  | .caseAnalysisReview _ caseId summary reviewRound maxReviewRounds allowedActions =>
    state.caseId = some caseId ∧ state.summary = some summary ∧
      state.reviewRound = some reviewRound ∧ state.maxReviewRounds = some maxReviewRounds ∧
      allowedActions = Config.review.actions
  | .evidenceRequired _ caseId reviewRound allowedActions =>
    state.caseId = some caseId ∧ state.reviewRound = some reviewRound ∧
      allowedActions = Config.evidence.actions

/-- The summary belongs to the round, the case and the evidence of the state. -/
def SummaryUpToDate (s : Filled) : Prop :=
  s.summary = prepareSummary s.caseName s.reviewRound s.evidenceCount s.analysisScope ∨
    s.summary = reanalyzeSummary s.caseName s.reviewRound s.evidenceCount

/-- What holds of the states of a configuration. -/
structure Sound (cfg : Config) (s : Filled) : Prop where
  status : s.status = cfg.status
  approved : s.reviewApproved = some true ↔ cfg = .completed
  undecided : cfg.next ≠ none → s.reviewApproved = none
  summary : cfg = .review → SummaryUpToDate s

lemma sound_opening (case : Case) (evidence : List Evidence) (data : WorkflowStart) :
    Sound .review (opening case evidence data).prepared where
  status := rfl
  approved := by simp [opening, Filled.prepared]
  undecided := fun _ => rfl
  summary := fun _ => .inl rfl

lemma sound_answered (s : Filled) (d : Decision) (cfg cfg' : Config) (s' : Filled)
    (hs : Sound cfg s) (h : Answered s d cfg cfg' s') : Sound cfg' s' := by
  cases h with
  | approve ha =>
    exact ⟨rfl, by simp [Filled.finalized, Filled.reviewed, ha], by simp [Config.next], by simp⟩
  | reanalyze ha hr =>
    refine ⟨rfl, ?_, fun _ => ?_, fun _ => .inr rfl⟩ <;>
      simp [Filled.reanalyzed, Filled.reviewed, ha]
  | limit ha hr =>
    refine ⟨rfl, ?_, by simp [Config.next], by simp⟩
    simp [Filled.cancelled, Filled.reviewed, ha]
  | requestEvidence ha =>
    refine ⟨rfl, ?_, fun _ => ?_, by simp⟩ <;>
      simp [Filled.evidenceRequired, Filled.reviewed, ha]
  | cancel ha =>
    refine ⟨rfl, ?_, by simp [Config.next], by simp⟩
    simp [Filled.cancelled, Filled.reviewed, ha]
  | evidenceReady n ha hn =>
    have hnone : s.reviewApproved = none := hs.undecided (by simp [Config.next])
    refine ⟨rfl, ?_, fun _ => hnone, fun _ => .inl rfl⟩
    simp [Filled.prepared, Filled.supplied, hnone]

/-- The configuration that a decision leads to, and `none` if it does not answer the pause. A
re-analysis beyond the limit of rounds ends the thread. -/
def following (state : CaseState) : Config → ReviewAction → Option Config
  | .review, .approve => some .completed
  | .review, .reanalyze =>
    some (if state.reviewRound.getD 1 < state.maxReviewRounds.getD 3 then .review else .cancelled)
  | .review, .requestEvidence => some .evidence
  | .review, .cancel => some .cancelled
  | .evidence, .evidenceReady => some .review
  | _, _ => none

lemma following_answered {s s' : Filled} {d : Decision} {cfg cfg' : Config}
    (h : Answered s d cfg cfg' s') : following s.toState cfg d.action = some cfg' := by
  cases h with
  | approve ha | requestEvidence ha | cancel ha | evidenceReady n ha hn => rw [ha]; rfl
  | reanalyze ha hr => rw [ha]; exact congrArg some (if_pos hr)
  | limit ha hr => rw [ha]; exact congrArg some (if_neg (Nat.not_lt.mpr hr))

lemma stands_checkpointOf {cfg : Config} {s : Filled} (hs : Sound cfg s) :
    Stands cfg (checkpointOf cfg s) where
  status := congrArg some hs.status
  next := rfl
  interrupt := by cases cfg <;> rfl

/-- A thread is in one configuration only. -/
lemma Stands.unique {cfg cfg' : Config} {c : Thread} (h : Stands cfg c) (h' : Stands cfg' c) :
    cfg = cfg' := by
  have hs : cfg.status = cfg'.status := Option.some.inj (h.status.symm.trans h'.status)
  cases cfg <;> cases cfg' <;> simp_all [Config.status]

lemma shown_checkpointOf {cfg : Config} {s : Filled} {v : Interrupt}
    (h : (checkpointOf cfg s).interrupt = some v) : Shown s.toState v := by
  cases cfg <;> cases h
  · exact ⟨rfl, rfl, rfl, rfl, rfl⟩
  · exact ⟨rfl, rfl, rfl⟩

/-- **The workflow is a machine of four configurations.** A started thread is, after any
requests, in exactly one of them; it is approved exactly when completed; its pauses show its
state; a request is accepted exactly when its decision is among those of the configuration, and
leads to the configuration that comes after it; any other is a conflict that leaves the thread
as it is. -/
theorem workflow_configurations (engine : Engine) (case : Case) (evidence : List Evidence)
    (data : WorkflowStart) (threadId : Uuid) :
    (∃ r, (start engine (some case) evidence data threadId).2 = .ok r) ∧
    ∀ qs : List Request, ∃ c,
      afterRequests engine threadId (start engine (some case) evidence data threadId).1 qs =
        some c ∧
      (∃! cfg, Stands cfg c) ∧ ∀ cfg, Stands cfg c →
        (c.values.reviewApproved = some (some true) ↔ cfg = .completed) ∧
        (∀ v, c.interrupt = some v → Shown c.values v) ∧
        (cfg = .review → ∃ s : Filled, c.values = s.toState ∧ SummaryUpToDate s) ∧
        ∀ q : Request,
          (q.data.resolvedDecision ∈ cfg.actions →
            ∃ cfg' c' r, following c.values cfg q.data.resolvedDecision = some cfg' ∧
              Stands cfg' c' ∧ resume engine threadId (some c) q = (some c', .ok r)) ∧
          (q.data.resolvedDecision ∉ cfg.actions → (refusal q cfg).statusCode = 409 ∧
            resume engine threadId (some c) q = (some c, .error (.domain (refusal q cfg)))) := by
  refine ⟨⟨_, by rw [start_eq]⟩, fun qs => ?_⟩
  obtain ⟨cfg, s, hc, hs⟩ := afterRequests_induction engine case evidence data threadId
    (sound_opening case evidence data) sound_answered qs
  have hstands := stands_checkpointOf hs
  refine ⟨checkpointOf cfg s, hc, ⟨cfg, hstands, fun _ h => h.unique hstands⟩, fun cfg' h => ?_⟩
  obtain rfl := h.unique hstands
  refine ⟨?_, fun v hv => shown_checkpointOf hv, fun hr => ⟨s, rfl, hs.summary hr⟩,
    fun q => ⟨?_, ?_⟩⟩
  · rw [← hs.approved]
    exact Option.some_inj
  · intro hmem
    obtain ⟨⟨cfg'', s''⟩, hans⟩ := Option.isSome_iff_exists.mp (answer_isSome.mpr hmem)
    have hanswered := answered_of_answer hans
    exact ⟨cfg'', _, _, following_answered hanswered,
      stands_checkpointOf (sound_answered s _ _ _ _ hs hanswered), resume_accepted hans⟩
  · intro hmem
    have hans : answer s (payload q s.caseId) cfg' = none := by
      rwa [← Option.not_isSome_iff_eq_none, answer_isSome]
    exact ⟨refusal_statusCode q cfg', resume_refused hans⟩

section Example

def sampleCase : Case := ⟨1, "CASE-2026-000001", "whale", none, .created, none, noon, noon⟩

def overview : WorkflowStart := ⟨"case_overview", by decide⟩

/-- A decision without a comment or a name. -/
def bare (action : ReviewAction) : WorkflowResume :=
  ⟨some action, none, none, none, by simp, by simp, none_short⟩

/-- A request with a bare decision. -/
def deciding (action : ReviewAction) : Request where
  data := bare action
  now := noon
  evidence := fun _ => []

/-- Evidence is asked for and supplied before the case is approved. -/
def supplyThenApprove : List Request := [.requestEvidence, .evidenceReady, .approve].map deciding

/-- The thread is then completed and approved, and another approval is refused. -/
theorem workflow_configurations_supplyThenApprove : ∃ c,
    afterRequests langGraph 7 (start langGraph (some sampleCase) [] overview 7).1
      supplyThenApprove = some c ∧
    Stands .completed c ∧ c.values.reviewApproved = some (some true) ∧
    resume langGraph 7 (some c) (deciding .approve) =
      (some c, .error (.domain (refusal (deciding .approve) .completed))) := by
  obtain ⟨c, hc, ⟨cfg, hcfg, -⟩, hall⟩ :=
    (workflow_configurations langGraph sampleCase [] overview 7).2 supplyThenApprove
  have hstatus : (afterRequests langGraph 7
      (start langGraph (some sampleCase) [] overview 7).1 supplyThenApprove).map
        (fun c => c.values.status) = some (some .completed) := by decide
  obtain rfl : cfg = .completed := by
    rw [hc] at hstatus
    have h : some cfg.status = some WorkflowStatus.completed :=
      hcfg.status.symm.trans (Option.some.inj hstatus)
    cases cfg <;> first | rfl | cases h
  obtain ⟨happroved, -, -, hanswers⟩ := hall .completed hcfg
  have hrefused := (hanswers (deciding .approve)).2 (by simp [Config.actions])
  exact ⟨c, hc, hcfg, happroved.mpr rfl, hrefused.2⟩

end Example

end WhaleMas.WorkflowStates
