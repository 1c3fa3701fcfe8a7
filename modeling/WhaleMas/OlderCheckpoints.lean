import WhaleMas.EvidenceRounds

/-!
Checkpoints of older threads, whose states lack some of the keys that have a default. A thread
goes on from such a checkpoint as from the state with the defaults filled in, as long as no
node reads one of the keys that are not there: a few nodes read the round and its limit without
a default.
-/

namespace WhaleMas.OlderCheckpoints

open WhaleMas.Models WhaleMas.StateGraph WhaleMas.CaseGraph WhaleMas.WorkflowService
open WhaleMas.WorkflowRuns WhaleMas.WorkflowLedger WhaleMas.EvidenceRounds
open WhaleMas.WorkflowStates (deciding overview sampleCase)

/-! ### Older states -/

/-- A state that may lack the keys that are elsewhere read with a default. -/
structure OlderState where
  caseId : Uuid
  caseName : String
  evidenceCount : ℕ
  analysisScope : String
  status : WorkflowStatus
  summary : String
  reviewApproved : Option Bool
  reviewDecision : Option (Option ReviewAction)
  reviewComment : Option String
  reviewer : Option (Option String)
  reviewedAt : Option (Option String)
  reviewRound : Option ℕ
  maxReviewRounds : Option ℕ
  reviewHistory : Option (List ReviewRecord)
  result : Option String

namespace OlderState

def toState (p : OlderState) : CaseState where
  caseId := some p.caseId
  caseName := some p.caseName
  evidenceCount := some p.evidenceCount
  analysisScope := some p.analysisScope
  status := some p.status
  summary := some p.summary
  reviewApproved := some p.reviewApproved
  reviewDecision := p.reviewDecision
  reviewComment := some p.reviewComment
  reviewer := p.reviewer
  reviewedAt := p.reviewedAt
  reviewRound := p.reviewRound
  maxReviewRounds := p.maxReviewRounds
  reviewHistory := p.reviewHistory
  result := some p.result

/-- The state with the defaults filled in. -/
def filled (p : OlderState) : Filled where
  caseId := p.caseId
  caseName := p.caseName
  evidenceCount := p.evidenceCount
  analysisScope := p.analysisScope
  status := p.status
  summary := p.summary
  reviewApproved := p.reviewApproved
  reviewDecision := p.reviewDecision.getD none
  reviewComment := p.reviewComment
  reviewer := p.reviewer.getD none
  reviewedAt := p.reviewedAt.getD none
  reviewRound := p.reviewRound.getD 1
  maxReviewRounds := p.maxReviewRounds.getD 3
  reviewHistory := p.reviewHistory.getD []
  result := p.result

/-- The state with a review decision entered. -/
def reviewed (p : OlderState) (d : Decision) : OlderState :=
  { p with
    reviewApproved := if d.action = .approve then some true
      else if d.action = .cancel then some false else none
    reviewDecision := some (some d.action)
    reviewComment := d.comment
    reviewer := some d.reviewer
    reviewedAt := some (some d.reviewedAt)
    reviewHistory := some (p.reviewHistory.getD [] ++ [record d (p.reviewRound.getD 1)]) }

/-- The state with the supply of evidence entered, in a new round. -/
def supplied (p : OlderState) (d : Decision) (evidenceCount round : ℕ) : OlderState :=
  { p with
    status := .preparing
    evidenceCount := evidenceCount
    reviewRound := some (round + 1)
    reviewComment := d.comment
    reviewer := some d.reviewer
    reviewedAt := some (some d.reviewedAt)
    reviewHistory := some (p.reviewHistory.getD [] ++ [record d (round + 1)]) }

def prepared (p : OlderState) : OlderState :=
  { p with
    status := .waitingReview
    summary := prepareSummary p.caseName (p.reviewRound.getD 1) p.evidenceCount p.analysisScope }

def finalized (p : OlderState) : OlderState :=
  { p with status := .completed, result := some (approvedResult (p.reviewRound.getD 1)) }

def reanalyzed (p : OlderState) (round : ℕ) : OlderState :=
  { p with
    status := .waitingReview
    reviewRound := some (round + 1)
    summary := reanalyzeSummary p.caseName (round + 1) p.evidenceCount }

def evidenceRequired (p : OlderState) : OlderState :=
  { p with status := .waitingEvidence, result := some evidenceResult }

def cancelled (p : OlderState) (result : String) : OlderState :=
  { p with status := .cancelled, result := some result }

/-- The keys that nodes read without a default are in `p` as in `m`. -/
structure Keeps (m p : OlderState) : Prop where
  round : p.reviewRound.isSome = m.reviewRound.isSome
  limit : p.maxReviewRounds = m.maxReviewRounds

end OlderState

/-- A checkpoint of a paused thread with an older state. -/
structure OlderCheckpoint where
  state : OlderState
  cfg : Config
  interrupt : Interrupt
  paused : cfg.pending = some interrupt.type

def OlderCheckpoint.thread (c : OlderCheckpoint) : Thread :=
  ⟨c.state.toState, c.cfg.next, some c.interrupt, none⟩

/-- The checkpoint with the defaults filled in. -/
def OlderCheckpoint.defaulted (c : OlderCheckpoint) : Thread :=
  ⟨c.state.filled.toState, c.cfg.next, some c.interrupt, none⟩

/-! ### Decisions that older states can follow -/

/-- The keys are there that a decision at a state makes nodes read without a default. -/
def Readable (p : OlderState) (action : ReviewAction) (t : CaseState) : Prop :=
  (action ∈ [.reanalyze, .requestEvidence, .evidenceReady] → p.reviewRound.isSome) ∧
    (action = .reanalyze → ¬ BelowLimit t → p.maxReviewRounds.isSome)

variable {engine : Engine} {threadId : Uuid} {cfg cfg' : Config} {p m : OlderState}
  {s' : Filled} {d : Decision} {q : Request}

lemma run_older_humanReview (fuel : ℕ) (p : OlderState) :
    run buildCaseWorkflow engine.leave (fuel + 1) none none p.toState .humanReview =
      (⟨p.toState, some .humanReview, Config.review.interrupt p.filled, none⟩, none) :=
  run_interrupted rfl

/-- A decision at a review goes where the router sends it. -/
lemma act_older_reviewed {k : ℕ} {a : ReviewAction} {n : Node} (hk : engine.limit = k + 25)
    (v : Option Interrupt) (hn : routeReviewDecision (p.filled.reviewed d).toState = .ok a)
    (ha : reviewEdges a = some n) :
    act engine ⟨p.toState, some .humanReview, v, none⟩ d =
      run buildCaseWorkflow engine.leave (k + 24) none none (p.reviewed d).toState n := by
  have hroute : routeReviewDecision (p.reviewed d).toState = .ok a := hn
  rw [act, resumeWith_paused rfl rfl, hk]
  refine run_goto (t := (p.reviewed d).toState) rfl rfl ?_
  simp [buildCaseWorkflow, hroute, ha, bind, Except.bind]

lemma run_older_prepareCase (fuel : ℕ) (p : OlderState) :
    run buildCaseWorkflow engine.leave (fuel + 2) none none p.toState .prepareCase =
      (⟨p.prepared.toState, some .humanReview, Config.review.interrupt p.prepared.filled, none⟩,
        none) := by
  rw [run_goto (t := p.prepared.toState) (m := .humanReview) rfl rfl rfl]
  exact run_older_humanReview fuel _

lemma run_older_awaitEvidence {round : ℕ} (fuel : ℕ) (hround : p.reviewRound = some round) :
    run buildCaseWorkflow engine.leave (fuel + 1) none none p.toState .awaitEvidence =
      (⟨p.toState, some .awaitEvidence, Config.evidence.interrupt p.filled, none⟩, none) := by
  refine run_interrupted ?_
  simp [buildCaseWorkflow, awaitEvidence, OlderState.toState, OlderState.filled, hround]

lemma run_older_reanalyzeCase {round : ℕ} (fuel : ℕ) (hround : p.reviewRound = some round) :
    run buildCaseWorkflow engine.leave (fuel + 2) none none p.toState .reanalyzeCase =
      (⟨(p.reanalyzed round).toState, some .humanReview,
        Config.review.interrupt (p.reanalyzed round).filled, none⟩, none) := by
  have hnode : reanalyzeCase p.toState = .done {
      status := some .waitingReview
      reviewRound := some (round + 1)
      summary := some (reanalyzeSummary p.caseName (round + 1) p.evidenceCount) } := by
    simp [reanalyzeCase, OlderState.toState, hround]
  rw [run_goto (t := (p.reanalyzed round).toState) (m := .humanReview) hnode rfl rfl]
  exact run_older_humanReview fuel _

lemma run_older_cancelCase {text : String} (fuel : ℕ)
    (h : cancelCase p.toState = .done { status := some .cancelled, result := some text }) :
    run buildCaseWorkflow engine.leave (fuel + 1) none none p.toState .cancelCase =
      (⟨(p.cancelled text).toState, none, none, none⟩, none) :=
  run_end h rfl rfl

lemma run_older_supplied {round n : ℕ} (fuel : ℕ) (pending : Option Interrupt)
    (hround : p.reviewRound = some round) (ha : d.action = .evidenceReady)
    (hn : d.evidenceCount = some n) :
    run buildCaseWorkflow engine.leave (fuel + 1) (some d) pending p.toState .awaitEvidence =
      run buildCaseWorkflow engine.leave fuel none none (p.supplied d n round).toState
        .prepareCase := by
  have hnode : awaitEvidence (some d) p.toState = .done {
      status := some .preparing
      evidenceCount := some n
      reviewRound := some (round + 1)
      reviewComment := some d.comment
      reviewer := some d.reviewer
      reviewedAt := some d.reviewedAt
      reviewHistory := some [record d (round + 1)] } := by
    simp [awaitEvidence, OlderState.toState, hround, hn, record, ha]
  exact run_goto (t := (p.supplied d n round).toState) hnode rfl rfl

/-- Where the keys are there, an older state goes where the state with the defaults goes. -/
lemma act_older (engine : Engine) (v : Option Interrupt)
    (h : answer p.filled d cfg = some (cfg', s'))
    (hr : Readable p d.action p.toState) : ∃ p', act engine ⟨p.toState, cfg.next, v, none⟩ d =
      (⟨p'.toState, cfg'.next, cfg'.interrupt s', none⟩, none) ∧ p'.filled = s' ∧ p.Keeps p' := by
  obtain ⟨k, hk⟩ := Nat.exists_eq_add_of_le' engine.enough
  have hroute := routeReviewDecision_reviewed p.filled d
  have hthere : d.action ∈ [ReviewAction.reanalyze, .requestEvidence, .evidenceReady] →
      ∃ round, p.reviewRound = some round := fun ha => Option.isSome_iff_exists.mp (hr.1 ha)
  cases answered_of_answer h with
  | approve ha =>
    simp only [ha] at hroute
    refine ⟨(p.reviewed d).finalized, ?_, rfl, rfl, rfl⟩
    exact (act_older_reviewed hk v hroute rfl).trans (run_end rfl rfl rfl)
  | reanalyze ha hlt =>
    obtain ⟨round, hround⟩ := hthere (by simp [ha])
    simp only [ha, hlt, if_true] at hroute
    have hfilled : ((p.reviewed d).reanalyzed round).filled = (p.filled.reviewed d).reanalyzed := by
      simp [OlderState.filled, OlderState.reanalyzed, OlderState.reviewed, Filled.reanalyzed,
        Filled.reviewed, hround]
    refine ⟨(p.reviewed d).reanalyzed round, ?_, hfilled,
      by simp [OlderState.reanalyzed, hround], rfl⟩
    rw [← hfilled]
    exact (act_older_reviewed hk v hroute rfl).trans (run_older_reanalyzeCase _ hround)
  | limit ha hle =>
    obtain ⟨round, hround⟩ := hthere (by simp [ha])
    obtain ⟨max, hmax⟩ := Option.isSome_iff_exists.mp (hr.2 ha (Nat.not_lt.mpr hle))
    simp only [ha, Nat.not_lt_of_le hle, if_false] at hroute
    have hlimit : max ≤ round := by simpa [OlderState.filled, hround, hmax] using hle
    have hnode : cancelCase (p.reviewed d).toState = .done {
        status := some .cancelled, result := some (limitResult max) } := by
      simp [cancelCase, OlderState.toState, OlderState.reviewed, ha, hround, hmax, hlimit]
    have hfilled : ((p.reviewed d).cancelled (limitResult max)).filled =
        (p.filled.reviewed d).cancelled (limitResult p.filled.maxReviewRounds) := by
      simp [OlderState.filled, OlderState.cancelled, OlderState.reviewed, Filled.cancelled,
        Filled.reviewed, hmax]
    refine ⟨_, ?_, hfilled, rfl, rfl⟩
    exact (act_older_reviewed hk v hroute rfl).trans (run_older_cancelCase _ hnode)
  | requestEvidence ha =>
    obtain ⟨round, hround⟩ := hthere (by simp [ha])
    simp only [ha] at hroute
    refine ⟨(p.reviewed d).evidenceRequired, ?_, rfl, rfl, rfl⟩
    refine (act_older_reviewed hk v hroute rfl).trans ?_
    rw [run_goto (t := (p.reviewed d).evidenceRequired.toState) (m := .awaitEvidence) rfl rfl rfl]
    exact run_older_awaitEvidence _ hround
  | cancel ha =>
    simp only [ha] at hroute
    have hnode : cancelCase (p.reviewed d).toState = .done {
        status := some .cancelled, result := some cancelledResult } := by
      simp [cancelCase, OlderState.toState, OlderState.reviewed, ha]
    refine ⟨(p.reviewed d).cancelled cancelledResult, ?_, rfl, rfl, rfl⟩
    exact (act_older_reviewed hk v hroute rfl).trans (run_older_cancelCase _ hnode)
  | evidenceReady n ha hn =>
    obtain ⟨round, hround⟩ := hthere (by simp [ha])
    have hfilled : (p.supplied d n round).prepared.filled = (p.filled.supplied d n).prepared := by
      simp [OlderState.filled, OlderState.supplied, OlderState.prepared, Filled.supplied,
        Filled.prepared, hround]
    refine ⟨(p.supplied d n round).prepared, ?_, hfilled,
      by simp [OlderState.prepared, OlderState.supplied, hround], rfl⟩
    rw [act, resumeWith_paused rfl rfl, hk, ← hfilled]
    exact (run_older_supplied (k + 24) v hround ha hn).trans (run_older_prepareCase _ _)

/-- Where a key is missing, a node raises. -/
lemma act_unreadable (engine : Engine) (v : Option Interrupt)
    (h : answer p.filled d cfg = some (cfg', s'))
    (hr : ¬ Readable p d.action p.toState) : ∃ t key,
      act engine ⟨p.toState, cfg.next, v, none⟩ d = (t, some (.node (.keyError key))) := by
  obtain ⟨k, hk⟩ := Nat.exists_eq_add_of_le' engine.enough
  have hroute := routeReviewDecision_reviewed p.filled d
  -- below the limit only the round is read
  have hnone : (d.action = .reanalyze → BelowLimit p.toState) → p.reviewRound = none := by
    intro hbelow
    by_contra hsome
    exact hr ⟨fun _ => Option.isSome_iff_ne_none.mpr hsome, fun ha hlt => absurd (hbelow ha) hlt⟩
  cases answered_of_answer h with
  | approve ha => exact absurd ⟨by simp [ha], by simp [ha]⟩ hr
  | reanalyze ha hlt =>
    have hround := hnone fun _ => hlt
    simp only [ha, hlt, if_true] at hroute
    have hnode : reanalyzeCase (p.reviewed d).toState = .raised (.keyError "review_round") := by
      simp [reanalyzeCase, OlderState.toState, OlderState.reviewed, hround]
    exact ⟨_, _, (act_older_reviewed hk v hroute rfl).trans (run_raised hnode)⟩
  | limit ha hle =>
    simp only [ha, Nat.not_lt_of_le hle, if_false] at hroute
    have hnode : ∃ key, cancelCase (p.reviewed d).toState = .raised (.keyError key) := by
      cases hround : p.reviewRound with
      | none => exact ⟨"review_round", by
          simp [cancelCase, OlderState.toState, OlderState.reviewed, ha, hround]⟩
      | some round =>
        cases hmax : p.maxReviewRounds with
        | none => exact ⟨"max_review_rounds", by
            simp [cancelCase, OlderState.toState, OlderState.reviewed, ha, hround, hmax]⟩
        | some max => exact absurd ⟨by simp [hround], by simp [hmax]⟩ hr
    obtain ⟨key, hkey⟩ := hnode
    exact ⟨_, key, (act_older_reviewed hk v hroute rfl).trans (run_raised hkey)⟩
  | requestEvidence ha =>
    have hround := hnone (by simp [ha])
    simp only [ha] at hroute
    have hnode : awaitEvidence none (p.reviewed d).evidenceRequired.toState =
        .raised (.keyError "review_round") := by
      simp [awaitEvidence, OlderState.toState, OlderState.evidenceRequired, OlderState.reviewed,
        hround]
    have hgoto : run buildCaseWorkflow engine.leave (k + 24) none none (p.reviewed d).toState
        .markEvidenceRequired = _ :=
      run_goto (t := (p.reviewed d).evidenceRequired.toState) (m := .awaitEvidence) rfl rfl rfl
    exact ⟨_, _, (act_older_reviewed hk v hroute rfl).trans (hgoto.trans (run_raised hnode))⟩
  | cancel ha => exact absurd ⟨by simp [ha], by simp [ha]⟩ hr
  | evidenceReady n ha hn =>
    have hround := hnone (by simp [ha])
    have hnode : awaitEvidence (some d) p.toState = .raised (.keyError "review_round") := by
      simp [awaitEvidence, OlderState.toState, hround]
    rw [act, resumeWith_paused rfl rfl, hk]
    exact ⟨_, _, run_raised hnode⟩

/-! ### Requests -/

section Resume

variable (engine : Engine) (threadId : Uuid) {v : Option Interrupt}
  (hv : v.map Interrupt.type = cfg.pending)
include hv

lemma resume_older (h : answer p.filled (payload q p.filled.caseId) cfg = some (cfg', s'))
    (hr : Readable p q.data.resolvedDecision p.toState) : ∃ p',
      resume engine threadId (some ⟨p.toState, cfg.next, v, none⟩) q =
        (some ⟨p'.toState, cfg'.next, cfg'.interrupt s', none⟩, .ok (responseOf threadId cfg' s')) ∧
      p'.filled = s' ∧ p.Keeps p' := by
  have hmem : q.data.resolvedDecision ∈ cfg.actions := answer_isSome.mp (by rw [h]; rfl)
  have hvalid : validate ⟨p.toState, cfg.next, v, none⟩ q = .ok (payload q p.filled.caseId) :=
    (validate_pending rfl hv).trans (if_pos hmem)
  obtain ⟨p', hact, rfl, hkeeps⟩ := act_older engine v h hr
  refine ⟨p', ?_, rfl, hkeeps⟩
  simp only [resume, hvalid, hact, respond]
  rfl

lemma resume_unreadable (h : answer p.filled (payload q p.filled.caseId) cfg = some (cfg', s'))
    (hr : ¬ Readable p q.data.resolvedDecision p.toState) : ∃ key,
      (resume engine threadId (some ⟨p.toState, cfg.next, v, none⟩) q).2 =
        .error (.graph (.node (.keyError key))) := by
  have hmem : q.data.resolvedDecision ∈ cfg.actions := answer_isSome.mp (by rw [h]; rfl)
  have hvalid : validate ⟨p.toState, cfg.next, v, none⟩ q = .ok (payload q p.filled.caseId) :=
    (validate_pending rfl hv).trans (if_pos hmem)
  obtain ⟨t, key, hact⟩ := act_unreadable engine v h hr
  refine ⟨key, ?_⟩
  simp only [resume, hvalid, hact, respond]

lemma resume_filled {s : Filled} (h : answer s (payload q s.caseId) cfg = some (cfg', s')) :
    resume engine threadId (some ⟨s.toState, cfg.next, v, none⟩) q =
      (some (checkpointOf cfg' s'), .ok (responseOf threadId cfg' s')) := by
  have hmem : q.data.resolvedDecision ∈ cfg.actions := answer_isSome.mp (by rw [h]; rfl)
  have hact : act engine ⟨s.toState, cfg.next, v, none⟩ (payload q s.caseId) =
      (checkpointOf cfg' s', none) := by
    have hshown : act engine (checkpointOf cfg s) _ = (checkpointOf cfg' s', none) := act_answer h
    have hnext := (answered_of_answer h).next_ne_none
    exact (resumeWith_pending hnext (congrArg Prod.snd hshown)).trans hshown
  have hvalid : validate ⟨s.toState, cfg.next, v, none⟩ q = .ok (payload q s.caseId) :=
    (validate_pending rfl hv).trans (if_pos hmem)
  simp only [resume, hvalid, hact, respond, toResponse_checkpointOf]

lemma resume_refused_pending {state : CaseState} {caseId : Uuid}
    (hc : state.caseId = some caseId) (h : q.data.resolvedDecision ∉ cfg.actions) :
    resume engine threadId (some ⟨state, cfg.next, v, none⟩) q =
      (some ⟨state, cfg.next, v, none⟩, .error (.domain (refusal q cfg))) := by
  simp only [resume, validate_pending hc hv, if_neg h]

end Resume

/-! ### Runs -/

/-- What a thread stands at. -/
def standing (t : Thread) : Option Node × Option Interrupt := (t.next, t.interrupt)

/-- A request finds two threads alike: the same response and the same pause, no missing key,
and no node to run without an interrupt to answer. -/
structure Alike (engine : Engine) (threadId : Uuid) (thread thread' : Option Thread)
    (q : Request) : Prop where
  response : (resume engine threadId thread q).2 = (resume engine threadId thread' q).2
  pause : (resume engine threadId thread q).1.map standing =
    (resume engine threadId thread' q).1.map standing
  noKeyError : ∀ key, (resume engine threadId thread q).2 ≠ .error (.graph (.node (.keyError key)))
  paused : ∀ t, (resume engine threadId thread q).1 = some t → t.next ≠ none → t.interrupt ≠ none

/-- Every request of a sequence finds the older thread and the defaulted one alike. -/
def AsDefaulted (engine : Engine) (threadId : Uuid) (c : OlderCheckpoint)
    (qs : List Request) : Prop :=
  ∀ l q, l ++ [q] <+: qs → Alike engine threadId (afterRequests engine threadId (some c.thread) l)
    (afterRequests engine threadId (some c.defaulted) l) q

lemma asDefaulted_snoc {c : OlderCheckpoint} {qs : List Request} :
    AsDefaulted engine threadId c (qs ++ [q]) ↔ AsDefaulted engine threadId c qs ∧
      Alike engine threadId (afterRequests engine threadId (some c.thread) qs)
        (afterRequests engine threadId (some c.defaulted) qs) q := by
  refine ⟨fun h => ⟨fun l p hl => h l p (hl.trans (List.prefix_append ..)),
    h qs q List.prefix_rfl⟩, fun ⟨hqs, hq⟩ l p hl => ?_⟩
  rcases List.prefix_concat_iff.mp (by simpa using hl) with heq | hl
  · obtain ⟨rfl, hpq⟩ := List.append_inj' heq rfl
    obtain rfl : p = q := by simpa using hpq
    exact hq
  · exact hqs l p hl

/-- Two threads at the same pause, with an older state and with its defaults filled in. -/
def Twins (m : OlderState) (thread thread' : Option Thread) : Prop :=
  ∃ (p : OlderState) (cfg : Config) (v : Option Interrupt),
    thread = some ⟨p.toState, cfg.next, v, none⟩ ∧
      thread' = some ⟨p.filled.toState, cfg.next, v, none⟩ ∧
      v.map Interrupt.type = cfg.pending ∧ m.Keeps p

lemma OlderState.Keeps.readable {t : CaseState} {action : ReviewAction} (h : m.Keeps p) :
    Readable p action t ↔ Readable m action t := by
  rw [Readable, Readable, h.round, h.limit]

/-- A pause waits for an answer. -/
lemma pending_of_next {v : Option Interrupt} (hv : v.map Interrupt.type = cfg.pending)
    (h : cfg.next ≠ none) : v ≠ none := by
  rintro rfl
  cases cfg <;> first | exact h rfl | cases hv

lemma alike_of_eq {thread thread' : Option Thread} {t t' : Thread}
    {r : Except ServiceError WorkflowResponse} (h : resume engine threadId thread q = (some t, r))
    (h' : resume engine threadId thread' q = (some t', r)) (hstanding : standing t = standing t')
    (hr : ∀ key, r ≠ .error (.graph (.node (.keyError key))))
    (ht : t.next ≠ none → t.interrupt ≠ none) : Alike engine threadId thread thread' q where
  response := by rw [h, h']
  pause := by rw [h, h', Option.map_some, Option.map_some, hstanding]
  noKeyError := by rwa [h]
  paused := by
    rintro u hu
    rw [h] at hu
    obtain rfl := Option.some.inj hu
    exact ht

/-- A request finds twins alike exactly where its decision can be read. -/
lemma twins_step {thread thread' : Option Thread} (h : Twins m thread thread') :
    (Alike engine threadId thread thread' q ↔ ∀ a ∈ acceptance engine threadId thread' q,
      Readable m a.action a.before.values) ∧
    (Alike engine threadId thread thread' q → Twins m (resume engine threadId thread q).1
      (resume engine threadId thread' q).1) := by
  obtain ⟨p, cfg, v, rfl, rfl, hv, hkeeps⟩ := h
  cases h : answer p.filled (payload q p.filled.caseId) cfg with
  | none =>
    have hmem : q.data.resolvedDecision ∉ cfg.actions := by
      rw [← answer_isSome (s := p.filled), h]
      simp
    have hthread : resume engine threadId (some ⟨p.toState, cfg.next, v, none⟩) q = _ :=
      resume_refused_pending engine threadId hv (rfl : _ = some p.caseId) hmem
    have hthread' : resume engine threadId (some ⟨p.filled.toState, cfg.next, v, none⟩) q = _ :=
      resume_refused_pending engine threadId hv (rfl : _ = some p.caseId) hmem
    have halike := alike_of_eq hthread hthread' rfl (by simp) (pending_of_next hv)
    refine ⟨iff_of_true halike (by simp [acceptance, hthread']), fun _ => ?_⟩
    rw [hthread, hthread']
    exact ⟨p, cfg, v, rfl, rfl, hv, hkeeps⟩
  | some next =>
    obtain ⟨cfg', s'⟩ := next
    have hthread' : resume engine threadId (some ⟨p.filled.toState, cfg.next, v, none⟩) q = _ :=
      resume_filled engine threadId hv h
    have hone : acceptance engine threadId (some ⟨p.filled.toState, cfg.next, v, none⟩) q =
        [⟨⟨p.filled.toState, cfg.next, v, none⟩, q, checkpointOf cfg' s'⟩] := by
      simp [acceptance, hthread']
    rw [hone, List.forall_mem_singleton, ← hkeeps.readable]
    by_cases hr : Readable p q.data.resolvedDecision p.toState
    · obtain ⟨p', hthread, rfl, hkeeps'⟩ := resume_older engine threadId hv h hr
      have halike := alike_of_eq hthread hthread' rfl (by simp) (pending_of_next interrupt_type)
      refine ⟨iff_of_true halike hr, fun _ => ?_⟩
      rw [hthread, hthread']
      exact ⟨p', cfg', _, rfl, rfl, interrupt_type, hkeeps'.round.trans hkeeps.round,
        hkeeps'.limit.trans hkeeps.limit⟩
    · obtain ⟨key, hthread⟩ := resume_unreadable engine threadId hv h hr
      have hnot : ¬ Alike engine threadId (some ⟨p.toState, cfg.next, v, none⟩)
          (some ⟨p.filled.toState, cfg.next, v, none⟩) q :=
        fun halike => halike.noKeyError key hthread
      exact ⟨iff_of_false hnot hr, fun halike => absurd halike hnot⟩

/-- **Older checkpoints go on as with the defaults exactly while their keys suffice.** Every
request of a sequence finds the thread of an older checkpoint and the defaulted one alike if
and only if the keys are there that the accepted decisions make nodes read without a default. -/
theorem asDefaulted_iff (engine : Engine) (threadId : Uuid) (c : OlderCheckpoint)
    (qs : List Request) : AsDefaulted engine threadId c qs ↔
      ∀ a ∈ accepted engine threadId (some c.defaulted) qs,
        Readable c.state a.action a.before.values := by
  suffices h : (AsDefaulted engine threadId c qs ↔
      ∀ a ∈ accepted engine threadId (some c.defaulted) qs,
        Readable c.state a.action a.before.values) ∧
      (AsDefaulted engine threadId c qs →
        Twins c.state (afterRequests engine threadId (some c.thread) qs)
          (afterRequests engine threadId (some c.defaulted) qs)) from h.1
  induction qs using List.reverseRecOn with
  | nil =>
    refine ⟨iff_of_true (fun l q hl => ?_) (by simp [accepted]), fun _ => ?_⟩
    · simp at hl
    · exact ⟨c.state, c.cfg, some c.interrupt, rfl, rfl, c.paused.symm, rfl, rfl⟩
  | append_singleton qs q ih =>
    obtain ⟨hiff, htwins⟩ := ih
    rw [asDefaulted_snoc, accepted_snoc, List.forall_mem_append, ← hiff, afterRequests_snoc,
      afterRequests_snoc]
    exact ⟨and_congr_right fun hqs => (twins_step (htwins hqs)).1,
      fun h => (twins_step (htwins h.1)).2 h.2⟩

section Example

/-- A thread that waits for a review, from before the rounds were counted. -/
def beforeRounds : OlderCheckpoint where
  state := {
    caseId := 1
    caseName := "whale"
    evidenceCount := 0
    analysisScope := "case_overview"
    status := .waitingReview
    summary := prepareSummary "whale" 1 0 "case_overview"
    reviewApproved := none
    reviewDecision := none
    reviewComment := none
    reviewer := none
    reviewedAt := none
    reviewRound := none
    maxReviewRounds := none
    reviewHistory := none
    result := none }
  cfg := .review
  interrupt := .caseAnalysisReview "是否批准该案件预研判结果并完成流程？" 1
    (prepareSummary "whale" 1 0 "case_overview") 1 3
    [.approve, .reanalyze, .requestEvidence, .cancel]
  paused := rfl

/-- A re-analysis strands the thread: it stands before a node, and nothing is pending. -/
theorem beforeRounds_stranded :
    let after := resume langGraph 7 (some beforeRounds.thread) (deciding .reanalyze)
    after.2 = .error (.graph (.node (.keyError "review_round"))) ∧
      after.1.map standing = some (some .reanalyzeCase, none) ∧
      ¬ AsDefaulted langGraph 7 beforeRounds [deciding .reanalyze] := by
  intro after
  have hraised : after.2 = .error (.graph (.node (.keyError "review_round"))) := rfl
  exact ⟨hraised, rfl, fun h => (h [] _ List.prefix_rfl).noKeyError _ hraised⟩

end Example

end WhaleMas.OlderCheckpoints
