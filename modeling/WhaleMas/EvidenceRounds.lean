import WhaleMas.ConcurrentResume

/-!
The states that a thread goes through, node after node, and what a supply of evidence leaves
behind in them: a round beyond the limit, the fields of a decision that is not the last one,
and the text of a wait that is over.
-/

namespace WhaleMas.EvidenceRounds

open WhaleMas.Models WhaleMas.StateGraph WhaleMas.CaseGraph WhaleMas.WorkflowService
open WhaleMas.WorkflowRuns WhaleMas.WorkflowStates WhaleMas.WorkflowLedger

/-! ### The states of a run -/

/-- The states saved while a thread is started. -/
def savedAtStart (engine : Engine) (case : Case) (evidence : List Evidence)
    (data : WorkflowStart) : List CaseState :=
  initialState case evidence data ::
    saved buildCaseWorkflow engine.limit none (initialState case evidence data)
      buildCaseWorkflow.entry

/-- The states saved while a thread is resumed. -/
def savedBy (engine : Engine) (thread : Option Thread) (q : Request) : List CaseState :=
  match thread with
  | none => []
  | some snapshot =>
    match validate snapshot q with
    | .error _ => []
    | .ok decision =>
      match snapshot.resumed decision with
      | none => []
      | some t => saved buildCaseWorkflow engine.limit t.resume t.values t.node

def savedDuring (engine : Engine) (threadId : Uuid) :
    Option Thread → List Request → List CaseState
  | _, [] => []
  | thread, q :: qs =>
    savedBy engine thread q ++ savedDuring engine threadId (resume engine threadId thread q).1 qs

/-- Every state that a started thread goes through in a sequence of requests. -/
def reached (engine : Engine) (case : Case) (evidence : List Evidence)
    (data : WorkflowStart) (threadId : Uuid) (qs : List Request) : List CaseState :=
  savedAtStart engine case evidence data ++
    savedDuring engine threadId (start engine (some case) evidence data threadId).1 qs

variable {engine : Engine} {threadId : Uuid} {cfg cfg' : Config} {s s' : Filled}
  {d : Decision} {q : Request}

lemma savedDuring_snoc (thread : Option Thread) (qs : List Request) (q : Request) :
    savedDuring engine threadId thread (qs ++ [q]) = savedDuring engine threadId thread qs ++
      savedBy engine (afterRequests engine threadId thread qs) q := by
  induction qs generalizing thread with
  | nil => simp [savedDuring]
  | cons p qs ih =>
    rw [List.cons_append, savedDuring, ih, savedDuring, List.append_assoc]
    rfl

lemma reached_snoc (case : Case) (evidence : List Evidence) (data : WorkflowStart)
    (qs : List Request) (q : Request) :
    reached engine case evidence data threadId (qs ++ [q]) =
      reached engine case evidence data threadId qs ++ savedBy engine (afterRequests engine threadId
        (start engine (some case) evidence data threadId).1 qs) q := by
  rw [reached, savedDuring_snoc, ← List.append_assoc]
  rfl

lemma savedAtStart_eq (case : Case) (evidence : List Evidence) (data : WorkflowStart) :
    savedAtStart engine case evidence data =
      [(opening case evidence data).toState, (opening case evidence data).prepared.toState] := by
  obtain ⟨k, hk⟩ := Nat.exists_eq_add_of_le' engine.enough
  have hrun : saved buildCaseWorkflow (k + 23 + 1 + 1) none (opening case evidence data).toState
      .prepareCase = [(opening case evidence data).prepared.toState] := by
    rw [saved_goto (t := (opening case evidence data).prepared.toState) rfl rfl rfl,
      saved_interrupted rfl]
  rw [savedAtStart, hk]
  exact congrArg _ hrun

/-- The state after the node that was paused, before the next one runs. -/
def entered (s : Filled) (d : Decision) : Config → Filled
  | .evidence => s.supplied d (d.evidenceCount.getD 0)
  | _ => s.reviewed d

lemma saved_reviewed {a : ReviewAction} {n : Node} (fuel : ℕ)
    (hn : routeReviewDecision (s.reviewed d).toState = .ok a) (ha : reviewEdges a = some n) :
    saved buildCaseWorkflow (fuel + 1) (some d) s.toState .humanReview =
      (s.reviewed d).toState :: saved buildCaseWorkflow fuel none (s.reviewed d).toState n := by
  refine saved_goto (t := (s.reviewed d).toState) rfl rfl ?_
  simp [buildCaseWorkflow, hn, ha, bind, Except.bind]

/-- An answer saves the state entered, and the state the next pause or the end shows. -/
lemma saved_answer {n : Node} (hn : cfg.next = some n) (h : answer s d cfg = some (cfg', s')) :
    saved buildCaseWorkflow engine.limit (some d) s.toState n =
      [(entered s d cfg).toState, s'.toState] := by
  obtain ⟨k, hk⟩ := Nat.exists_eq_add_of_le' engine.enough
  have hroute := routeReviewDecision_reviewed s d
  rw [hk]
  cases answered_of_answer h with
  | approve ha =>
    cases hn
    simp only [ha] at hroute
    rw [saved_reviewed (k + 24) hroute rfl, saved_end rfl rfl rfl]
    rfl
  | reanalyze ha hr =>
    cases hn
    simp only [ha, hr, if_true] at hroute
    rw [saved_reviewed (k + 24) hroute rfl,
      saved_goto (t := (s.reviewed d).reanalyzed.toState) rfl rfl rfl, saved_interrupted rfl]
    rfl
  | limit ha hr =>
    cases hn
    simp only [ha, Nat.not_lt_of_le hr, if_false] at hroute
    have hlimit : (s.reviewed d).reviewDecision = some .reanalyze ∧
        (s.reviewed d).maxReviewRounds ≤ (s.reviewed d).reviewRound := ⟨congrArg some ha, hr⟩
    rw [saved_reviewed (k + 24) hroute rfl, saved_end (cancelCase_toState _) rfl rfl, if_pos hlimit]
    rfl
  | requestEvidence ha =>
    cases hn
    simp only [ha] at hroute
    rw [saved_reviewed (k + 24) hroute rfl,
      saved_goto (t := (s.reviewed d).evidenceRequired.toState) rfl rfl rfl, saved_interrupted rfl]
    rfl
  | cancel ha =>
    cases hn
    simp only [ha] at hroute
    have hno : ¬ ((s.reviewed d).reviewDecision = some .reanalyze ∧
        (s.reviewed d).maxReviewRounds ≤ (s.reviewed d).reviewRound) := by
      simp [Filled.reviewed, ha]
    rw [saved_reviewed (k + 24) hroute rfl, saved_end (cancelCase_toState _) rfl rfl, if_neg hno]
    rfl
  | evidenceReady m ha hm =>
    cases hn
    rw [saved_goto (t := (s.supplied d m).toState) (awaitEvidence_toState s ha hm) rfl rfl,
      saved_goto (t := (s.supplied d m).prepared.toState) rfl rfl rfl, saved_interrupted rfl]
    simp [entered, hm]

lemma savedBy_accepted (h : answer s (payload q s.caseId) cfg = some (cfg', s')) :
    savedBy engine (some (checkpointOf cfg s)) q =
      [(entered s (payload q s.caseId) cfg).toState, s'.toState] := by
  have hmem : q.data.resolvedDecision ∈ cfg.actions := answer_isSome.mp (by rw [h]; rfl)
  obtain ⟨n, hn⟩ := Option.ne_none_iff_exists'.mp (answered_of_answer h).next_ne_none
  have hresumed : (checkpointOf cfg s).resumed (payload q s.caseId) =
      some ⟨n, s.toState, some (payload q s.caseId)⟩ := by
    simp [Checkpoint.resumed, checkpointOf, hn]
  simp only [savedBy, validate_checkpointOf, if_pos hmem, hresumed]
  exact saved_answer hn h

lemma savedBy_refused (h : answer s (payload q s.caseId) cfg = none) :
    savedBy engine (some (checkpointOf cfg s)) q = [] := by
  have hmem : q.data.resolvedDecision ∉ cfg.actions := by
    rw [← answer_isSome (s := s), h]
    simp
  simp only [savedBy, validate_checkpointOf, if_neg hmem]

/-- The rule for exact conditions: where every accepted request keeps `P` exactly under `C`,
all states of a run have `P` exactly if all accepted requests meet `C`. -/
theorem reached_iff {P : CaseState → Prop} {C : Acceptance → Prop} (case : Case)
    (evidence : List Evidence) (data : WorkflowStart)
    (hopen : ∀ t ∈ savedAtStart engine case evidence data, P t)
    (hstep : ∀ s q cfg cfg' s', Sound cfg s → P s.toState →
      Answered s (payload q s.caseId) cfg cfg' s' →
      ((P (entered s (payload q s.caseId) cfg).toState ∧ P s'.toState) ↔
        C ⟨checkpointOf cfg s, q, checkpointOf cfg' s'⟩)) (qs : List Request) :
    (∀ t ∈ reached engine case evidence data threadId qs, P t) ↔
      ∀ a ∈ accepted engine threadId (start engine (some case) evidence data threadId).1 qs,
        C a := by
  suffices h : ∃ cfg s, afterRequests engine threadId
      (start engine (some case) evidence data threadId).1 qs = some (checkpointOf cfg s) ∧
      Sound cfg s ∧ s.toState ∈ reached engine case evidence data threadId qs ∧
      ((∀ t ∈ reached engine case evidence data threadId qs, P t) ↔
        ∀ a ∈ accepted engine threadId (start engine (some case) evidence data threadId).1 qs,
          C a) by
    obtain ⟨_, _, _, _, _, h⟩ := h
    exact h
  induction qs using List.reverseRecOn with
  | nil =>
    refine ⟨_, _, by rw [afterRequests_nil, start_eq], sound_opening case evidence data, ?_, ?_⟩
    · simp [reached, savedDuring, savedAtStart_eq]
    · simpa [reached, savedDuring, accepted] using hopen
  | append_singleton qs q ih =>
    obtain ⟨cfg, s, hc, hs, hmem, hiff⟩ := ih
    rw [afterRequests_snoc, accepted_snoc, reached_snoc, hc]
    cases h : answer s (payload q s.caseId) cfg with
    | none =>
      refine ⟨cfg, s, by rw [resume_refused h], hs, by simp [hmem], ?_⟩
      simpa [acceptance, resume_refused h, savedBy_refused h] using hiff
    | some next =>
      obtain ⟨cfg', s'⟩ := next
      have hans := answered_of_answer h
      refine ⟨cfg', s', by rw [resume_accepted h], sound_answered _ _ _ _ _ hs hans, ?_, ?_⟩
      · simp [savedBy_accepted h]
      · rw [List.forall_mem_append, List.forall_mem_append, hiff, savedBy_accepted h]
        refine and_congr_right fun hall => ?_
        simpa [acceptance, resume_accepted h] using
          hstep s q cfg cfg' s' hs (hiff.mpr hall _ hmem) hans

/-! ### The limit of rounds -/

/-- The round of a state is within its limit. -/
def WithinLimit (t : CaseState) : Prop := t.reviewRound.getD 1 ≤ t.maxReviewRounds.getD 3

instance (t : CaseState) : Decidable (WithinLimit t) := by
  unfold WithinLimit
  infer_instance

/-- The round of a state is below its limit. -/
def BelowLimit (t : CaseState) : Prop := t.reviewRound.getD 1 < t.maxReviewRounds.getD 3

lemma withinLimit_toState : WithinLimit s.toState ↔ s.reviewRound ≤ s.maxReviewRounds := Iff.rfl

lemma belowLimit_toState : BelowLimit s.toState ↔ s.reviewRound < s.maxReviewRounds := Iff.rfl

/-- **The rounds keep to the limit exactly while evidence does.** All states that a started
thread goes through are within the limit of rounds if and only if every accepted supply of
evidence meets a round below the limit. -/
theorem rounds_within_limit_iff (engine : Engine) (case : Case) (evidence : List Evidence)
    (data : WorkflowStart) (threadId : Uuid) (qs : List Request) :
    (∀ t ∈ reached engine case evidence data threadId qs, WithinLimit t) ↔
      ∀ a ∈ accepted engine threadId (start engine (some case) evidence data threadId).1 qs,
        a.action = .evidenceReady → BelowLimit a.before.values := by
  refine reached_iff case evidence data ?_ (fun s q cfg cfg' s' _ hs h => ?_) qs
  · simp [savedAtStart_eq, withinLimit_toState, opening]
  · have haction : (Acceptance.mk (checkpointOf cfg s) q (checkpointOf cfg' s')).action =
        (payload q s.caseId).action := rfl
    rw [haction]
    change _ ↔ (_ → BelowLimit s.toState)
    simp only [withinLimit_toState, belowLimit_toState] at hs ⊢
    cases h with
    | approve ha | requestEvidence ha | cancel ha => simpa [entered, ha] using hs
    | reanalyze ha hr => simpa [entered, ha, hs] using hr
    | limit ha hr => simpa [entered, ha] using hs
    | evidenceReady n ha hn => simp [entered, ha, hn]

/-- Evidence is asked for and supplied three times. -/
def threeSupplies : List Request :=
  [.requestEvidence, .evidenceReady, .requestEvidence, .evidenceReady, .requestEvidence,
    .evidenceReady].map deciding

/-- The third supply opens round four of three. -/
theorem threeSupplies_beyond :
    ∃ t ∈ reached langGraph sampleCase [] overview 7 threeSupplies,
      t.reviewRound = some 4 ∧ t.maxReviewRounds = some 3 ∧ ¬ WithinLimit t := by
  decide

/-! ### The fields of the last decision -/

/-- The fields of the decision are those of the last record. -/
def Mirrors (t : CaseState) : Prop :=
  ∀ records r, t.reviewHistory = some records → records.getLast? = some r →
    t.reviewDecision = some (some r.action) ∧ t.reviewComment = some r.comment ∧
      t.reviewer = some r.reviewer ∧ t.reviewedAt = some (some r.reviewedAt)

lemma mirrors_toState {l : List ReviewRecord} {r : ReviewRecord}
    (h : s.reviewHistory = l ++ [r]) : Mirrors s.toState ↔
      s.reviewDecision = some r.action ∧ s.reviewComment = r.comment ∧ s.reviewer = r.reviewer ∧
        s.reviewedAt = some r.reviewedAt := by
  have hrecords : s.toState.reviewHistory = some (l ++ [r]) := congrArg some h
  have hfields : (s.toState.reviewDecision = some (some r.action) ∧
      s.toState.reviewComment = some r.comment ∧ s.toState.reviewer = some r.reviewer ∧
        s.toState.reviewedAt = some (some r.reviewedAt)) ↔ s.reviewDecision = some r.action ∧
      s.reviewComment = r.comment ∧ s.reviewer = r.reviewer ∧
        s.reviewedAt = some r.reviewedAt := by
    simp [Filled.toState]
  rw [← hfields]
  refine ⟨fun hm => hm _ _ hrecords (by simp), fun hm records r' hl hr => ?_⟩
  obtain rfl := Option.some.inj (hrecords.symm.trans hl)
  obtain rfl : r = r' := by simpa using hr
  exact hm

/-- A review enters its decision, and a supply of evidence does not. -/
lemma mirrors_answered (hs : s.reviewDecision ≠ some .evidenceReady)
    (h : Answered s d cfg cfg' s') :
    ∀ t ∈ [entered s d cfg, s'], Mirrors t.toState ↔ d.action ≠ .evidenceReady := by
  have hreviewed : ∀ t : Filled, t.reviewHistory = (s.reviewed d).reviewHistory →
      t.reviewDecision = some d.action → t.reviewComment = d.comment → t.reviewer = d.reviewer →
      t.reviewedAt = some d.reviewedAt → d.action ≠ .evidenceReady →
      (Mirrors t.toState ↔ d.action ≠ .evidenceReady) := by
    intro t hh hd hc hr ha hne
    rw [mirrors_toState hh]
    exact ⟨fun _ => hne, fun _ => ⟨hd, hc, hr, ha⟩⟩
  have hsupplied : ∀ t : Filled, ∀ n, t.reviewHistory = (s.supplied d n).reviewHistory →
      t.reviewDecision = s.reviewDecision → d.action = .evidenceReady →
      (Mirrors t.toState ↔ d.action ≠ .evidenceReady) := by
    intro t n hh hd ha
    rw [mirrors_toState hh]
    refine ⟨fun hm => absurd ?_ hs, fun hne => absurd ha hne⟩
    rw [← hd, hm.1]
    exact congrArg some ha
  intro t ht
  rcases List.mem_pair.mp ht with rfl | rfl
  · cases h with
    | approve ha | reanalyze ha | limit ha | requestEvidence ha | cancel ha =>
      exact hreviewed _ rfl rfl rfl rfl rfl (by simp [ha])
    | evidenceReady n ha hn => exact hsupplied _ _ rfl rfl ha
  · cases h with
    | approve ha | reanalyze ha | limit ha | requestEvidence ha | cancel ha =>
      exact hreviewed _ rfl rfl rfl rfl rfl (by simp [ha])
    | evidenceReady n ha hn => exact hsupplied _ n rfl rfl ha

lemma decision_answered (s : Filled) (d : Decision) (cfg cfg' : Config) (s' : Filled)
    (hs : s.reviewDecision ≠ some .evidenceReady) (h : Answered s d cfg cfg' s') :
    s'.reviewDecision ≠ some .evidenceReady := by
  cases h with
  | approve ha | reanalyze ha | limit ha | requestEvidence ha | cancel ha =>
    simp [Filled.finalized, Filled.reanalyzed, Filled.cancelled, Filled.evidenceRequired,
      Filled.reviewed, ha]
  | evidenceReady n ha hn => exact hs

/-- **The fields of the decision lag behind a supply of evidence.** A started thread has no
history; a state that it goes through while it is resumed shows the decision of its last record
if and only if the request is no supply of evidence. -/
theorem mirrors_iff (engine : Engine) (case : Case) (evidence : List Evidence)
    (data : WorkflowStart) (threadId : Uuid) :
    (∀ t ∈ savedAtStart engine case evidence data, t.reviewHistory = some []) ∧
    ∀ (qs : List Request) (q : Request),
      ∀ t ∈ savedBy engine (afterRequests engine threadId
        (start engine (some case) evidence data threadId).1 qs) q,
        Mirrors t ↔ q.data.resolvedDecision ≠ .evidenceReady := by
  refine ⟨?_, fun qs q => ?_⟩
  · simp [savedAtStart_eq, Filled.toState, Filled.prepared, opening]
  · obtain ⟨cfg, s, hc, hs⟩ := afterRequests_induction engine case evidence data threadId
      (P := fun _ s => s.reviewDecision ≠ some .evidenceReady)
      (by simp [opening, Filled.prepared]) decision_answered qs
    rw [hc]
    cases h : answer s (payload q s.caseId) cfg with
    | none => simp [savedBy_refused h]
    | some next =>
      obtain ⟨cfg', s'⟩ := next
      have hall : ∀ t ∈ [entered s (payload q s.caseId) cfg, s'],
          Mirrors t.toState ↔ q.data.resolvedDecision ≠ .evidenceReady :=
        mirrors_answered hs (answered_of_answer h)
      rw [savedBy_accepted h]
      simpa using hall

/-- Evidence is asked for and supplied once. -/
def oneSupply : List Request := [.requestEvidence, .evidenceReady].map deciding

/-- The thread waits for a review, and still shows the decision before the supply. -/
theorem oneSupply_not_mirrored :
    ∃ t ∈ reached langGraph sampleCase [] overview 7 oneSupply,
      t.status = some .waitingReview ∧ t.reviewDecision = some (some .requestEvidence) ∧
        (t.reviewHistory.bind List.getLast?).map ReviewRecord.action = some .evidenceReady ∧
        ¬ Mirrors t := by
  have hshown : ∃ t ∈ reached langGraph sampleCase [] overview 7 oneSupply,
      t.status = some .waitingReview ∧ t.reviewDecision = some (some .requestEvidence) ∧
        (t.reviewHistory.bind List.getLast?).map ReviewRecord.action = some .evidenceReady := by
    decide
  obtain ⟨t, ht, hstatus, hdecision, haction⟩ := hshown
  refine ⟨t, ht, hstatus, hdecision, haction, fun hm => ?_⟩
  obtain ⟨r, hr, hready⟩ := Option.map_eq_some_iff.mp haction
  obtain ⟨records, hrecords, hlast⟩ := Option.bind_eq_some_iff.mp hr
  have hmirrored := (hm records r hrecords hlast).1
  rw [hdecision, hready] at hmirrored
  cases hmirrored

/-! ### The text of the result -/

/-- The result says what the status says. -/
@[mk_iff]
structure ResultFits (t : CaseState) : Prop where
  review : t.status = some .waitingReview → t.result = some none
  evidence : t.result = some (some evidenceResult) ↔ t.status = some .waitingEvidence
  approved : (∃ round, t.result = some (some (approvedResult round))) ↔
    t.status = some .completed
  terminated : (t.result = some (some cancelledResult) ∨
    ∃ max, t.result = some (some (limitResult max))) ↔ t.status = some .cancelled

lemma approvedResult_ne_evidence (round : ℕ) : approvedResult round ≠ evidenceResult := by
  refine ne_of_third ?_
  rw [approvedResult_third]
  decide

lemma approvedResult_ne_cancelled (round : ℕ) : approvedResult round ≠ cancelledResult := by
  refine ne_of_third ?_
  rw [approvedResult_third]
  decide

lemma evidenceResult_ne_cancelled : evidenceResult ≠ cancelledResult :=
  ne_of_third (by decide)

lemma resultFits_open (hr : s.result = none)
    (hs : s.status = .preparing ∨ s.status = .waitingReview) : ResultFits s.toState := by
  rcases hs with hs | hs <;> simp [resultFits_iff, Filled.toState, hr, hs]

lemma resultFits_approved {round : ℕ} (hr : s.result = some (approvedResult round)) :
    ResultFits s.toState ↔ s.status = .completed := by
  have hself : ∃ r, approvedResult round = approvedResult r := ⟨round, rfl⟩
  cases hs : s.status <;> simp [resultFits_iff, Filled.toState, hr, hs, hself,
    approvedResult_ne, approvedResult_ne_evidence, approvedResult_ne_cancelled]

lemma resultFits_evidence (hr : s.result = some evidenceResult) :
    ResultFits s.toState ↔ s.status = .waitingEvidence := by
  have happroved : ∀ round, evidenceResult ≠ approvedResult round :=
    fun round => (approvedResult_ne_evidence round).symm
  cases hs : s.status <;> simp [resultFits_iff, Filled.toState, hr, hs, happroved,
    evidenceResult_ne, evidenceResult_ne_cancelled]

lemma resultFits_terminated {text : String} (hr : s.result = some text)
    (ht : text = cancelledResult ∨ ∃ max, text = limitResult max) :
    ResultFits s.toState ↔ s.status = .cancelled := by
  have happroved : ∀ round, text ≠ approvedResult round := by
    rintro round rfl
    rcases ht with ht | ⟨max, ht⟩
    · exact approvedResult_ne_cancelled round ht
    · exact approvedResult_ne max round ht
  have hevidence : text ≠ evidenceResult := by
    rintro rfl
    rcases ht with ht | ⟨max, ht⟩
    · exact evidenceResult_ne_cancelled ht
    · exact evidenceResult_ne max ht
  cases hs : s.status <;> simp [resultFits_iff, Filled.toState, hr, hs, ht, happroved, hevidence]

/-- An answer keeps the text of the result fitting unless it supplies evidence. -/
lemma resultFits_answered (hs : Sound cfg s) (hfits : ResultFits s.toState)
    (h : Answered s d cfg cfg' s') :
    (ResultFits (entered s d cfg).toState ∧ ResultFits s'.toState) ↔
      d.action ≠ .evidenceReady := by
  have hreviewed : ResultFits (s.reviewed d).toState :=
    ⟨hfits.review, hfits.evidence, hfits.approved, hfits.terminated⟩
  cases h with
  | approve ha =>
    have hend := resultFits_approved (s := (s.reviewed d).finalized) rfl
    exact iff_of_true ⟨hreviewed, hend.mpr rfl⟩ (by simp [ha])
  | reanalyze ha hr =>
    have hnone : s.result = none :=
      Option.some.inj (hfits.review (congrArg some hs.status))
    exact iff_of_true ⟨hreviewed, resultFits_open hnone (.inr rfl)⟩ (by simp [ha])
  | limit ha hr =>
    have hend := resultFits_terminated
      (s := (s.reviewed d).cancelled (limitResult s.maxReviewRounds)) rfl (.inr ⟨_, rfl⟩)
    exact iff_of_true ⟨hreviewed, hend.mpr rfl⟩ (by simp [ha])
  | requestEvidence ha =>
    have hend := resultFits_evidence (s := (s.reviewed d).evidenceRequired) rfl
    exact iff_of_true ⟨hreviewed, hend.mpr rfl⟩ (by simp [ha])
  | cancel ha =>
    have hend := resultFits_terminated
      (s := (s.reviewed d).cancelled cancelledResult) rfl (.inl rfl)
    exact iff_of_true ⟨hreviewed, hend.mpr rfl⟩ (by simp [ha])
  | evidenceReady n ha hn =>
    -- the text of the wait stays when the wait is over
    have hwait : s.result = some evidenceResult :=
      Option.some.inj (hfits.evidence.mpr (congrArg some hs.status))
    have hend := resultFits_evidence (s := (s.supplied d n).prepared) hwait
    exact iff_of_false (fun hboth => by simpa [Filled.prepared] using hend.mp hboth.2)
      (by simp [ha])

/-- **The text of the result outlives a wait for evidence.** In all states that a started thread
goes through the result fits the status if and only if no supply of evidence is accepted. -/
theorem results_fit_iff (engine : Engine) (case : Case) (evidence : List Evidence)
    (data : WorkflowStart) (threadId : Uuid) (qs : List Request) :
    (∀ t ∈ reached engine case evidence data threadId qs, ResultFits t) ↔
      ∀ a ∈ accepted engine threadId (start engine (some case) evidence data threadId).1 qs,
        a.action ≠ .evidenceReady := by
  refine reached_iff case evidence data ?_ (fun s q cfg cfg' s' hs hfits h => ?_) qs
  · simp only [savedAtStart_eq, List.forall_mem_cons, List.not_mem_nil, false_imp_iff,
      implies_true, and_true]
    exact ⟨resultFits_open rfl (.inl rfl), resultFits_open rfl (.inr rfl)⟩
  · exact resultFits_answered hs hfits h

/-- The thread waits for a review, and its result says that it waits for evidence. -/
theorem oneSupply_not_fitting :
    ∃ t ∈ reached langGraph sampleCase [] overview 7 oneSupply,
      t.status = some .waitingReview ∧ t.result = some (some evidenceResult) ∧
        ¬ ResultFits t := by
  have hshown : ∃ t ∈ reached langGraph sampleCase [] overview 7 oneSupply,
      t.status = some .waitingReview ∧ t.result = some (some evidenceResult) := by
    decide
  obtain ⟨t, ht, hstatus, hresult⟩ := hshown
  refine ⟨t, ht, hstatus, hresult, fun hfits => ?_⟩
  have hnone := hfits.review hstatus
  rw [hresult] at hnone
  cases hnone

end WhaleMas.EvidenceRounds
