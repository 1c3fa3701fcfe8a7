import WhaleMas.ApiRuns
import WhaleMas.EvidenceLife
import WhaleMas.WorkflowRuns

/-!
What the threads of workflows go through when requests for them interleave and invocations
break off at any node. A thread always has every key set, its history and its rounds only grow,
and what it asks for is what its state says, or nothing.
-/

namespace WhaleMas.ThreadRules

open WhaleMas.Models WhaleMas.Program WhaleMas.RelyGuarantee WhaleMas.Beside WhaleMas.Database
open WhaleMas.Services WhaleMas.StateGraph WhaleMas.CaseGraph WhaleMas.WorkflowService
open WhaleMas.EvidenceLife WhaleMas.WorkflowRuns WhaleMas.Api WhaleMas.ApiRuns

/-! ### Growing states -/

/-- The case, its name, the scope and the limit of rounds are the same. -/
structure SameCase (s s' : Filled) : Prop where
  caseId : s'.caseId = s.caseId
  caseName : s'.caseName = s.caseName
  analysisScope : s'.analysisScope = s.analysisScope
  maxReviewRounds : s'.maxReviewRounds = s.maxReviewRounds

lemma SameCase.refl (s : Filled) : SameCase s s := ⟨rfl, rfl, rfl, rfl⟩

lemma SameCase.symm {s s' : Filled} (h : SameCase s s') : SameCase s' s :=
  ⟨h.caseId.symm, h.caseName.symm, h.analysisScope.symm, h.maxReviewRounds.symm⟩

lemma SameCase.trans {s s' s'' : Filled} (h : SameCase s s') (h' : SameCase s' s'') :
    SameCase s s'' where
  caseId := h'.caseId.trans h.caseId
  caseName := h'.caseName.trans h.caseName
  analysisScope := h'.analysisScope.trans h.analysisScope
  maxReviewRounds := h'.maxReviewRounds.trans h.maxReviewRounds

/-- Rounds and history grow. -/
structure Grows (s s' : Filled) : Prop extends SameCase s s' where
  reviewRound : s.reviewRound ≤ s'.reviewRound
  reviewHistory : s.reviewHistory <+: s'.reviewHistory

lemma Grows.refl (s : Filled) : Grows s s := ⟨.refl s, le_rfl, List.prefix_rfl⟩

lemma Grows.trans {s s' s'' : Filled} (h : Grows s s') (h' : Grows s' s'') : Grows s s'' where
  toSameCase := h.toSameCase.trans h'.toSameCase
  reviewRound := h.reviewRound.trans h'.reviewRound
  reviewHistory := h.reviewHistory.trans h'.reviewHistory

lemma grows_answered {s s' : Filled} {d : Decision} {cfg cfg' : Config}
    (h : Answered s d cfg cfg' s') : Grows s s' := by
  cases h with
  | reanalyze | evidenceReady =>
    exact ⟨⟨rfl, rfl, rfl, rfl⟩, Nat.le_succ _, List.prefix_append _ _⟩
  | _ => exact ⟨⟨rfl, rfl, rfl, rfl⟩, le_rfl, List.prefix_append _ _⟩

/-! ### Threads that break off -/

/-- A state with an update merged into it. -/
def merged (s : Filled) (u : CaseStateUpdate) : Filled :=
  { s with
    evidenceCount := u.evidenceCount.getD s.evidenceCount
    status := u.status.getD s.status
    summary := u.summary.getD s.summary
    reviewApproved := u.reviewApproved.getD s.reviewApproved
    reviewDecision := (u.reviewDecision.map some).getD s.reviewDecision
    reviewComment := u.reviewComment.getD s.reviewComment
    reviewer := u.reviewer.getD s.reviewer
    reviewedAt := (u.reviewedAt.map some).getD s.reviewedAt
    reviewRound := u.reviewRound.getD s.reviewRound
    reviewHistory := s.reviewHistory ++ u.reviewHistory.getD []
    result := (u.result.map some).getD s.result }

lemma set_getD {α : Type} (a : α) (new : Option α) : set (some a) new = some (new.getD a) := by
  cases new <;> rfl

lemma merge_toState (s : Filled) (u : CaseStateUpdate) :
    merge s.toState u = (merged s u).toState := by
  have hhistory : set (some s.reviewHistory)
      (u.reviewHistory.map fun records => s.reviewHistory ++ records) =
        some (s.reviewHistory ++ u.reviewHistory.getD []) := by
    cases u.reviewHistory <;> simp
  simp [merge, merged, Filled.toState, set_getD, hhistory]

/-- The state has every key set, and is of the same case. -/
def OfCase (s : Filled) (t : CaseState) : Prop := ∃ s' : Filled, t = s'.toState ∧ SameCase s s'

/-- No node touches the case. -/
lemma keeps_ofCase (s : Filled) : Keeps buildCaseWorkflow (OfCase s) := by
  rintro n r t u ⟨s', rfl, hsame⟩ -
  exact ⟨merged s' u, merge_toState s' u, hsame.trans ⟨rfl, rfl, rfl, rfl⟩⟩

/-- The thread has the state, and a task of it that is run again has one of the same case. -/
structure Holds (t : Thread) (s : Filled) : Prop where
  values : t.values = s.toState
  failed : ∀ f, t.failed = some f → OfCase s f.values

lemma Holds.unique {t : Thread} {s s' : Filled} (h : Holds t s) (h' : Holds t s') : s = s' := by
  have he : s.toState = s'.toState := h.values.symm.trans h'.values
  cases s
  cases s'
  simpa [Filled.toState] using he

lemma Holds.held {t : Thread} {s : Filled} (h : Holds t s) : Held (OfCase s) t :=
  ⟨⟨s, h.values, .refl s⟩, h.failed⟩

lemma holds_of_held {t : Thread} {s : Filled} (h : Held (OfCase s) t) :
    ∃ s', Holds t s' ∧ SameCase s s' := by
  obtain ⟨⟨s', hvalues, hsame⟩, hfailed⟩ := h
  refine ⟨s', ⟨hvalues, fun f hf => ?_⟩, hsame⟩
  obtain ⟨s'', hf', hsame'⟩ := hfailed f hf
  exact ⟨s'', hf', hsame.symm.trans hsame'⟩

lemma holds_checkpointOf (cfg : Config) (s : Filled) : Holds (checkpointOf cfg s) s :=
  ⟨rfl, fun _ h => by cases h⟩

/-- The thread asks for what its state says, or for nothing. -/
def Ready (t : Thread) : Prop := t.interrupt = none ∨ ∃ cfg s, t = checkpointOf cfg s

variable {engine : Engine}

variable (engine) in
/-- Wherever the start of a thread breaks off, it has a state. -/
lemma holds_invoke (nodes : ℕ) (f : Filled) : ∃ s,
    Holds (StateGraph.invoke buildCaseWorkflow engine.leave nodes f.toState).1 s ∧
      SameCase f s :=
  holds_of_held (held_run engine.orderly (keeps_ofCase f) ⟨f, rfl, .refl f⟩)

variable (engine) in
/-- So it has wherever resuming it breaks off. -/
lemma holds_resumeWith {t : Thread} {s : Filled} (h : Holds t s) (nodes : ℕ) (d : Decision) :
    ∃ s', Holds (resumeWith buildCaseWorkflow engine.leave nodes t d).1 s' ∧ SameCase s s' :=
  holds_of_held (held_resumeWith engine.orderly (keeps_ofCase s) h.held nodes d)

/-- A node that pauses asks for what the state says. -/
lemma checkpointOf_of_interrupted {n : Node} {s : Filled} {v : Interrupt}
    (h : buildCaseWorkflow.node n none s.toState = .interrupted v) :
    ∃ cfg, (⟨s.toState, some n, some v, none⟩ : Thread) = checkpointOf cfg s := by
  cases n with
  | humanReview =>
    cases h
    exact ⟨.review, rfl⟩
  | awaitEvidence =>
    cases h
    exact ⟨.evidence, rfl⟩
  | cancelCase => cases (cancelCase_toState s).symm.trans h
  | _ => cases h

/-- A thread that is started asks for what its state says, or breaks off before it asks. -/
lemma ready_invoke (nodes : ℕ) (f : Filled) :
    Ready (StateGraph.invoke buildCaseWorkflow engine.leave nodes f.toState).1 := by
  obtain h | ⟨m, v, t, ⟨s, rfl, -⟩, hnode, hrun⟩ := paused_or_quiet nodes
    buildCaseWorkflow.entry engine.orderly (keeps_ofCase f) ⟨f, rfl, .refl f⟩
  · exact .inl h
  · obtain ⟨cfg, hcfg⟩ := checkpointOf_of_interrupted hnode
    exact .inr ⟨cfg, s, hrun.trans hcfg⟩

variable (engine) in
/-- At a review only a supply of evidence is no answer. It is recorded before the router, which
does not know it, raises. -/
lemma review_stuck {s : Filled} {d : Decision} (h : answer s d .review = none) :
    ∃ u e, buildCaseWorkflow.merge s.toState u = (s.reviewed d).toState ∧
      resumeWith buildCaseWorkflow engine.leave engine.limit (checkpointOf .review s) d =
        (engine.leave ⟨.node e, ⟨.humanReview, s.toState, some d⟩, Config.interrupt s .review,
          some u⟩, some (.node e)) := by
  have hd : d.action = .evidenceReady := by
    cases hd : d.action <;> simp only [answer, hd] at h
    case reanalyze => split_ifs at h
    case evidenceReady => rfl
    all_goals cases h
  have hroute := routeReviewDecision_reviewed s d
  simp only [hd] at hroute
  have hgoto : buildCaseWorkflow.goto .humanReview (s.reviewed d).toState =
      .error (.valueError "Unsupported review decision: EVIDENCE_READY") := by
    simp [buildCaseWorkflow, hroute, bind, Except.bind]
  obtain ⟨k, hk⟩ := Nat.exists_eq_add_of_le' engine.enough
  have hnode : ∃ u, buildCaseWorkflow.node .humanReview (some d) s.toState = .done u ∧
      buildCaseWorkflow.merge s.toState u = (s.reviewed d).toState := ⟨_, rfl, rfl⟩
  obtain ⟨u, hdone, hu⟩ := hnode
  refine ⟨u, .valueError "Unsupported review decision: EVIDENCE_READY", hu, ?_⟩
  rw [resumeWith_paused rfl rfl, hk]
  exact run_stuck hdone hu hgoto

/-- What may be left then: the record, the pause it does not answer, and no node to run. -/
example (s : Filled) (d : Decision) (h : answer s d .review = none) :
    (act langGraph (checkpointOf .review s) d).1 = ⟨(s.reviewed d).toState, none,
      Config.interrupt s .review, some ⟨.humanReview, s.toState, some d⟩⟩ := by
  obtain ⟨u, e, hu, hrun⟩ := review_stuck langGraph h
  rw [act, hrun]
  simp [langGraph, keepWrites, hu]

/-- The wait for evidence needs a count. -/
lemma evidence_stuck {s : Filled} {d : Decision} (h : d.evidenceCount = none) :
    (resumeWith buildCaseWorkflow engine.leave engine.limit (checkpointOf .evidence s) d).2 =
      some (.node (.keyError "evidence_count")) := by
  have hnode : buildCaseWorkflow.node .awaitEvidence (some d) s.toState =
      .raised (.keyError "evidence_count") := by
    simp [buildCaseWorkflow, awaitEvidence, Filled.toState, h]
  obtain ⟨k, hk⟩ := Nat.exists_eq_add_of_le' engine.enough
  rw [resumeWith_paused rfl rfl, hk]
  change (run buildCaseWorkflow engine.leave (k + 24 + 1) (some d) _ s.toState
    .awaitEvidence).2 = _
  rw [run_raised hnode]

/-- With a count it goes on like a supply of evidence, since the node does not read the action. -/
lemma evidence_supplied {s : Filled} {d : Decision} {n : ℕ} (h : d.evidenceCount = some n) :
    (resumeWith buildCaseWorkflow engine.leave engine.limit (checkpointOf .evidence s) d).1 =
      checkpointOf .review (s.supplied { d with action := .evidenceReady } n).prepared := by
  have hnode : buildCaseWorkflow.node .awaitEvidence (some d) s.toState = _ :=
    awaitEvidence_toState (d := { d with action := .evidenceReady }) s rfl h
  obtain ⟨k, hk⟩ := Nat.exists_eq_add_of_le' engine.enough
  rw [resumeWith_paused rfl rfl, hk]
  change (run buildCaseWorkflow engine.leave (k + 24 + 1) (some d) _ s.toState
    .awaitEvidence).1 = _
  rw [run_goto (t := (s.supplied { d with action := .evidenceReady } n).toState) hnode rfl
    rfl, run_prepareCase]

/-- Where resuming does not raise, the thread comes to a configuration, and grows. -/
lemma grows_resumeWith {cfg : Config} {s : Filled} {d : Decision}
    (h : (resumeWith buildCaseWorkflow engine.leave engine.limit (checkpointOf cfg s) d).2 =
      none) : ∃ cfg' s', (resumeWith buildCaseWorkflow engine.leave engine.limit
        (checkpointOf cfg s) d).1 = checkpointOf cfg' s' ∧ Grows s s' := by
  cases cfg with
  | completed | cancelled => exact ⟨_, s, rfl, .refl s⟩
  | review =>
    cases hans : answer s d .review with
    | some next =>
      exact ⟨next.1, next.2, congrArg Prod.fst (act_answer hans),
        grows_answered (answered_of_answer hans)⟩
    | none =>
      obtain ⟨u, e, -, hrun⟩ := review_stuck engine hans
      cases (congrArg Prod.snd hrun).symm.trans h
  | evidence =>
    cases hcount : d.evidenceCount with
    | some n =>
      exact ⟨.review, _, evidence_supplied hcount,
        grows_answered (.evidenceReady n (d := { d with action := .evidenceReady }) rfl hcount)⟩
    | none => cases (evidence_stuck hcount).symm.trans h

/-! ### The rules -/

variable {ι : Type} {asks : ι → Uuid → Prop} {first : Threads} {i : ι} {w v : World ι × Threads}

/-- The case is a committed row. -/
def Exists (caseId : Uuid) (w : World ι) : Prop := ∃ c ∈ w.cases, c.id = caseId

/-- Only session `i` asks to resume the thread. -/
def Alone (asks : ι → Uuid → Prop) (i : ι) (threadId : Uuid) : Prop :=
  asks i threadId ∧ ∀ j, j ≠ i → ¬ asks j threadId

/-- Runs that begin with the threads `first`. -/
structure Inv (first : Threads) (w : World ι × Threads) : Prop where
  holds : ∀ u t, w.2 u = some t → ∃ s, Holds t s ∧ (first u = none → Exists s.caseId w.1)
  known : ∀ u, w.2 u ≠ none → w.1.owner u ≠ .fresh

/-- What session `i` relies on. -/
structure Rely (asks : ι → Uuid → Prop) (i : ι) (w v : World ι × Threads) : Prop where
  txn : v.1.txn i = w.1.txn i
  cases : ∀ caseId, Exists caseId w.1 → Exists caseId v.1
  owner : ∀ u, w.1.owner u = .drawn i → v.1.owner u = .drawn i
  kept : ∀ u, w.2 u ≠ none → v.2 u ≠ none
  unborn : ∀ u, w.1.owner u = .drawn i → w.2 u = none → v.2 u = none
  born : ∀ u, Alone asks i u → w.2 u = none → ∀ t, v.2 u = some t → Ready t
  alone : ∀ u, Alone asks i u → w.2 u ≠ none → v.2 u = w.2 u

/-- A session starts a thread of its own for a case that is there, and resumes what it asks
to. -/
def Demand (asks : ι → Uuid → Prop) (w : World ι × Threads) (i : ι) : ApiOp → Prop
  | .inr (.invoke u s) => w.1.owner u = .drawn i ∧ w.2 u = none ∧
      ∃ f : Filled, s = f.toState ∧ Exists f.caseId w.1
  | .inr (.resume u _) => asks i u
  | _ => True

/-- A call raises by itself only what `fails` says. -/
def Policy (fails : ι → ApiOp → Exn → Prop) (i : ι) (o : ApiOp) (c : Choice × Draw) : Prop :=
  ∀ e, c.1.fault = .before e ∨ c.1.fault = .after e → fails i o e

lemma Rely.refl (asks : ι → Uuid → Prop) (i : ι) (w : World ι × Threads) : Rely asks i w w :=
  ⟨rfl, fun _ h => h, fun _ h => h, fun _ h => h, fun _ _ h => h,
    fun _ _ hn _ ht => (by cases hn.symm.trans ht), fun _ _ _ => rfl⟩

lemma Rely.trans {u : World ι × Threads} (h : Rely asks i u w) (h' : Rely asks i w v) :
    Rely asks i u v where
  txn := h'.txn.trans h.txn
  cases := fun c hc => h'.cases c (h.cases c hc)
  owner := fun x hx => h'.owner x (h.owner x hx)
  kept := fun x hx => h'.kept x (h.kept x hx)
  unborn := fun x hx hn => h'.unborn x (h.owner x hx) (h.unborn x hx hn)
  born := fun x ha hn t ht => by
    cases hv : w.2 x with
    | none => exact h'.born x ha hv t ht
    | some t' =>
      have hsame := h'.alone x ha (by simp [hv])
      exact h.born x ha hn t (hsame.symm.trans ht)
  alone := fun x ha hx => (h'.alone x ha (h.kept x hx)).trans (h.alone x ha hx)

def rules (asks : ι → Uuid → Prop) (first : Threads) (fails : ι → ApiOp → Exn → Prop) :
    Rules ι (World ι × Threads) (Choice × Draw) ApiOp where
  inv := Inv first
  rely := Rely asks
  demand := Demand asks
  policy := fun _ => Policy fails
  refl := Rely.refl asks
  trans := fun _ _ _ _ => Rely.trans

/-- How threads move: each keeps its case, and stays as it is unless somebody asks for it. -/
def Moves (asks : ι → Uuid → Prop) (w v : World ι × Threads) : Prop :=
  ∀ u t s, w.2 u = some t → Holds t s → ∃ t' s', v.2 u = some t' ∧ Holds t' s' ∧
    SameCase s s' ∧ ((∀ i, ¬ asks i u) → t' = t)

lemma moves_refl (w : World ι × Threads) : Moves asks w w :=
  fun _ t s ht h => ⟨t, s, ht, h, .refl s, fun _ => rfl⟩

lemma moves_trans (u v w : World ι × Threads) (h : Moves asks u v) (h' : Moves asks v w) :
    Moves asks u w := by
  intro x t s ht hs
  obtain ⟨t', s', ht', hs', hcase, hsame⟩ := h x t s ht hs
  obtain ⟨t'', s'', ht'', hs'', hcase', hsame'⟩ := h' x t' s' ht' hs'
  exact ⟨t'', s'', ht'', hs'', hcase.trans hcase', fun hno => (hsame' hno).trans (hsame hno)⟩

/-! ### Calls -/

variable [DecidableEq ι] [Fintype ι] {hashtext : String → ℤ} {c : Choice × Draw}

omit [DecidableEq ι] [Fintype ι] in
/-- A query changes no rows, and threads as its run does, if at all. -/
lemma execQuery_threads {q : Query} {r : Reply q} {threads : Threads}
    (h : execQuery engine q i c w = some (r, threads)) :
    threads = w.2 ∨ ∃ nodes, threads = (q.run engine nodes w.2).1 := by
  unfold execQuery at h
  split at h <;> obtain ⟨-, rfl⟩ := Prod.mk.inj (Option.some.inj h)
  · exact .inr ⟨_, rfl⟩
  · exact .inl rfl
  · exact .inr ⟨_, rfl⟩

variable (engine) in
/-- A query that starts or resumes a thread leaves the others alone. -/
lemma run_threads (q : Query) (nodes : ℕ) (threads : Threads) :
    (q.run engine nodes threads).1 = threads ∨
    (∃ u s, q = .invoke u s ∧ (q.run engine nodes threads).1 = Function.update threads u
      (some (StateGraph.invoke buildCaseWorkflow engine.leave nodes s).1)) ∨
    ∃ u d t, q = .resume u d ∧ threads u = some t ∧ (q.run engine nodes threads).1 =
      Function.update threads u
        (some (resumeWith buildCaseWorkflow engine.leave nodes t d).1) := by
  cases q with
  | invoke u s => exact .inr (.inl ⟨u, s, rfl, rfl⟩)
  | resume u d =>
    cases ht : threads u with
    | none => exact .inl (by simp [Query.run, ht])
    | some t => exact .inr (.inr ⟨u, d, t, rfl, ht, by simp [Query.run, ht]⟩)
  | _ => exact .inl rfl

variable (asks) in
omit [Fintype ι] in
/-- A call of the services leaves the threads alone. -/
lemma keeps_effect {o : Op} {c : Choice} {v : World ι} (hw : Inv first w)
    (h : Effect i c w.1 o v) :
    Inv first (v, w.2) ∧ ∀ j, j ≠ i → Rely asks j w (v, w.2) := by
  have hcases : ∀ caseId, Exists caseId w.1 → Exists caseId v := by
    rintro caseId ⟨k, hk, rfl⟩
    obtain ⟨l, hl, hid, -⟩ := stays_of_effect h hk
    exact ⟨l, hl, hid⟩
  have howner : ∀ u j, w.1.owner u = .drawn j → v.owner u = .drawn j := by
    intro u j hu
    rcases h.owner u with ho | ⟨ho, -⟩
    · rwa [ho]
    · rw [hu] at ho
      cases ho
  refine ⟨⟨fun u t ht => ?_, fun u hu => ?_⟩, fun j hj => ⟨h.others hj, hcases,
    fun u hu => howner u j hu, fun _ h => h, fun _ _ h => h,
    fun _ _ hn _ ht => (by cases hn.symm.trans ht), fun _ _ _ => rfl⟩⟩
  · obtain ⟨s, hs, hthere⟩ := hw.holds u t ht
    exact ⟨s, hs, fun hf => hcases _ (hthere hf)⟩
  · have hknown := hw.known u hu
    rcases h.owner u with ho | ⟨ho, -⟩
    · change v.owner u ≠ .fresh
      rwa [ho]
    · exact absurd ho hknown

variable (asks) in
omit [DecidableEq ι] [Fintype ι] in
/-- A thread is started, or changed by who asks for it. -/
lemma keeps_update {u : Uuid} {t : Thread} (hw : Inv first w)
    (hknown : w.1.owner u ≠ .fresh)
    (hholds : ∃ s, Holds t s ∧ (first u = none → Exists s.caseId w.1))
    (hwho : w.2 u = none ∧ w.1.owner u = .drawn i ∧ Ready t ∨ w.2 u ≠ none ∧ asks i u) :
    Inv first (w.1, Function.update w.2 u (some t)) ∧
      ∀ j, j ≠ i → Rely asks j w (w.1, Function.update w.2 u (some t)) := by
  refine ⟨⟨fun x t' ht' => ?_, fun x hx => ?_⟩, fun j hj => ⟨rfl, fun _ h => h, fun _ h => h,
    fun x hx => ?_, fun x hx hn => ?_, fun x ha hn t' ht' => ?_, fun x hx hne => ?_⟩⟩
  · by_cases hxu : x = u
    · subst hxu
      obtain rfl : t = t' := by simpa using ht'
      exact hholds
    · exact hw.holds x t' (by simpa [hxu] using ht')
  · by_cases hxu : x = u
    · rwa [hxu]
    · exact hw.known x (by simpa [hxu] using hx)
  · by_cases hxu : x = u
    · simp [hxu]
    · simpa [hxu] using hx
  · have hxu : x ≠ u := by
      rintro rfl
      rcases hwho with ⟨-, ho, -⟩ | ⟨hne, -⟩
      · rw [hx] at ho
        exact hj (Owner.drawn.inj ho)
      · exact hne hn
    simpa [hxu] using hn
  · by_cases hxu : x = u
    · subst hxu
      obtain rfl : t = t' := by simpa using ht'
      rcases hwho with ⟨-, -, hready⟩ | ⟨hne, -⟩
      · exact hready
      · exact absurd hn hne
    · have hx : w.2 x = some t' := by simpa [hxu] using ht'
      cases hn.symm.trans hx
  · have hxu : x ≠ u := by
      rintro rfl
      rcases hwho with ⟨hn, -, -⟩ | ⟨-, ha⟩
      · exact hne hn
      · exact hx.2 i (Ne.symm hj) ha
    simp [hxu]

omit [DecidableEq ι] [Fintype ι] in
lemma moves_update {u : Uuid} {t : Thread}
    (h : ∀ t₀ s, w.2 u = some t₀ → Holds t₀ s →
      (∃ s', Holds t s' ∧ SameCase s s') ∧ asks i u) :
    Moves asks w (w.1, Function.update w.2 u (some t)) := by
  intro x t₀ s hx hs
  by_cases hxu : x = u
  · subst hxu
    obtain ⟨⟨s', hs', hcase⟩, hasks⟩ := h t₀ s hx hs
    exact ⟨t, s', by simp, hs', hcase, fun hno => absurd hasks (hno i)⟩
  · exact ⟨t₀, s, by simpa [hxu] using hx, hs, .refl s, fun _ => rfl⟩

/-- **Every call keeps the rules**, and moves threads as they may move. -/
lemma keeps_step {o : ApiOp} {r : ApiAnswer o} (hw : Inv first w) (hd : Demand asks w i o)
    (h : (server hashtext engine).perform o i c w = some (r, v)) :
    Inv first v ∧ (∀ j, j ≠ i → Rely asks j w v) ∧ Moves asks w v := by
  cases o with
  | inl o =>
    obtain ⟨⟨r', v'⟩, hp, heq⟩ := Option.map_eq_some_iff.mp h
    obtain ⟨-, rfl⟩ := Prod.mk.inj heq
    obtain ⟨hinv, hrely⟩ := keeps_effect asks hw (perform_effect hp)
    exact ⟨hinv, hrely, moves_refl w⟩
  | inr q =>
    obtain ⟨⟨r', threads⟩, hq, heq⟩ := Option.map_eq_some_iff.mp h
    obtain ⟨-, rfl⟩ := Prod.mk.inj heq
    have hsame : Inv first (w.1, w.2) ∧ (∀ j, j ≠ i → Rely asks j w (w.1, w.2)) ∧
        Moves asks w (w.1, w.2) := ⟨hw, fun j _ => .refl asks j w, moves_refl w⟩
    obtain rfl | ⟨nodes, rfl⟩ := execQuery_threads hq
    · exact hsame
    obtain hrun | ⟨u, s, rfl, hrun⟩ | ⟨u, d, t, rfl, ht, hrun⟩ := run_threads engine q nodes w.2
    · rw [hrun]
      exact hsame
    · obtain ⟨howner, hnone, f, rfl, hthere⟩ := hd
      rw [hrun]
      obtain ⟨f', hholds, hcase⟩ := holds_invoke engine nodes f
      obtain ⟨hinv, hrely⟩ := keeps_update asks hw (by simp [howner])
        ⟨f', hholds, fun _ => hcase.caseId ▸ hthere⟩
        (.inl ⟨hnone, howner, ready_invoke nodes f⟩)
      exact ⟨hinv, hrely, moves_update (i := i) fun t₀ s hu _ => by simp [hnone] at hu⟩
    · rw [hrun]
      obtain ⟨s, hs, hthere⟩ := hw.holds u t ht
      obtain ⟨s', hholds, hcase⟩ := holds_resumeWith engine hs nodes d
      obtain ⟨hinv, hrely⟩ := keeps_update asks hw (hw.known u (by simp [ht]))
        ⟨s', hholds, fun hf => hcase.caseId ▸ hthere hf⟩ (.inr ⟨by simp [ht], hd⟩)
      refine ⟨hinv, hrely, moves_update (i := i) fun t₀ s₀ hu hs₀ => ?_⟩
      obtain rfl := Option.some.inj (ht.symm.trans hu)
      obtain rfl := hs.unique hs₀
      exact ⟨⟨s', hholds, hcase⟩, hd⟩

/-! ### Threads that never break off -/

/-- The thread that a query invokes the graph on. -/
def thread : Query → Option Uuid
  | .invoke threadId _ => some threadId
  | .resume threadId _ => some threadId
  | _ => none

/-- If the call invokes the graph on the thread, the invocation ends without an exception. -/
def unbroken {ι : Type} (engine : Engine) (u : Uuid) (w : World ι × Threads) :
    ApiOp → Choice × Draw → Bool
  | .inl _, _ => true
  | .inr q, c => thread q ≠ some u || match c.1.fault with
    | .none => (q.run engine engine.limit w.2).2.isNone
    | .before _ => true
    | .after _ => false

/-- The thread is in a configuration, if it is there. -/
def Stands (u : Uuid) (w : World ι × Threads) : Prop :=
  ∀ t, w.2 u = some t → ∃ cfg s, t = checkpointOf cfg s

/-- The thread goes from configuration to configuration, and grows. -/
def Follows (u : Uuid) (w v : World ι × Threads) : Prop :=
  ∀ cfg s, w.2 u = some (checkpointOf cfg s) →
    ∃ cfg' s', v.2 u = some (checkpointOf cfg' s') ∧ Grows s s'

omit [DecidableEq ι] [Fintype ι] in
lemma follows_of_eq {u : Uuid} (hw : Stands u w) (h : v.2 u = w.2 u) :
    Stands u v ∧ Follows u w v :=
  ⟨fun t ht => hw t (h.symm.trans ht), fun cfg s hs => ⟨cfg, s, h.trans hs, .refl s⟩⟩

lemma run_elsewhere {u : Uuid} {q : Query} (h : thread q ≠ some u) (nodes : ℕ)
    (threads : Threads) : (q.run engine nodes threads).1 u = threads u := by
  obtain hrun | ⟨x, s, rfl, hrun⟩ | ⟨x, d, t, rfl, -, hrun⟩ :=
    run_threads engine q nodes threads
  · rw [hrun]
  · have hx : u ≠ x := fun he => h (congrArg some he.symm)
    rw [hrun, Function.update_of_ne hx]
  · have hx : u ≠ x := fun he => h (congrArg some he.symm)
    rw [hrun, Function.update_of_ne hx]

omit [DecidableEq ι] [Fintype ι] in
/-- An invocation that ends without an exception takes the thread to a configuration. -/
lemma follows_run {u : Uuid} {q : Query} (hw : Stands u w) (hd : Demand asks w i (.inr q))
    (h : (q.run engine engine.limit w.2).2 = none) :
    Stands u (w.1, (q.run engine engine.limit w.2).1) ∧
      Follows u w (w.1, (q.run engine engine.limit w.2).1) := by
  by_cases hthread : thread q = some u
  · obtain hrun | ⟨x, s, rfl, hrun⟩ | ⟨x, d, t, rfl, ht, hrun⟩ :=
      run_threads engine q engine.limit w.2
    · exact follows_of_eq hw (congrFun hrun u)
    · obtain rfl := Option.some.inj hthread
      obtain ⟨-, hnone, f, rfl, -⟩ := hd
      obtain ⟨k, hk⟩ := Nat.exists_eq_add_of_le' engine.enough
      have hinvoke : (StateGraph.invoke buildCaseWorkflow engine.leave engine.limit
          f.toState).1 = checkpointOf .review f.prepared := by
        rw [hk]
        exact congrArg Prod.fst (run_prepareCase (k + 23) f)
      refine ⟨fun t ht => ⟨.review, f.prepared, ?_⟩, fun cfg s hs => ?_⟩
      · rw [hrun, hinvoke] at ht
        simpa using ht.symm
      · cases hnone.symm.trans hs
    · obtain rfl := Option.some.inj hthread
      obtain ⟨cfg, s, rfl⟩ := hw t ht
      have hend : (resumeWith buildCaseWorkflow engine.leave engine.limit (checkpointOf cfg s)
          d).2 = none := by
        simpa [Query.run, ht] using h
      obtain ⟨cfg', s', hafter, hgrows⟩ := grows_resumeWith hend
      refine ⟨fun t' ht' => ⟨cfg', s', ?_⟩, fun cfg₀ s₀ hs₀ => ⟨cfg', s', ?_, ?_⟩⟩
      · rw [hrun, hafter] at ht'
        simpa using ht'.symm
      · rw [hrun, hafter]
        simp
      · have hsame := Option.some.inj (ht.symm.trans hs₀)
        obtain rfl := (holds_checkpointOf cfg s).unique (hsame ▸ holds_checkpointOf cfg₀ s₀)
        exact hgrows
  · exact follows_of_eq hw (run_elsewhere hthread _ _)

lemma follows_step {u : Uuid} {o : ApiOp} {r : ApiAnswer o} (hw : Stands u w)
    (hd : Demand asks w i o) (hc : unbroken engine u w o c = true)
    (h : (server hashtext engine).perform o i c w = some (r, v)) :
    Stands u v ∧ Follows u w v := by
  cases o with
  | inl o =>
    obtain ⟨⟨r', v'⟩, -, heq⟩ := Option.map_eq_some_iff.mp h
    obtain ⟨-, rfl⟩ := Prod.mk.inj heq
    exact follows_of_eq hw rfl
  | inr q =>
    obtain ⟨⟨r', threads⟩, hq, heq⟩ := Option.map_eq_some_iff.mp h
    obtain ⟨-, rfl⟩ := Prod.mk.inj heq
    unfold execQuery at hq
    simp only [unbroken, Bool.or_eq_true, decide_eq_true_eq] at hc
    cases hf : c.1.fault with
    | none =>
      simp only [hf, Option.isNone_iff_eq_none] at hq hc
      obtain ⟨-, rfl⟩ := Prod.mk.inj (Option.some.inj hq)
      rcases hc with hthread | hend
      · exact follows_of_eq hw (run_elsewhere hthread _ _)
      · exact follows_run hw hd hend
    | before e =>
      simp only [hf] at hq
      obtain ⟨-, rfl⟩ := Prod.mk.inj (Option.some.inj hq)
      exact follows_of_eq hw rfl
    | after e =>
      simp only [hf, Bool.false_eq_true, or_false] at hq hc
      obtain ⟨-, rfl⟩ := Prod.mk.inj (Option.some.inj hq)
      exact follows_of_eq hw (run_elsewhere hc _ _)

/-- A thread goes from configuration to configuration as long as no invocation of it ends with
an exception. -/
lemma follows_of_reach {α : Type} {u : Uuid}
    {σ τ : Conf ι (World ι × Threads) ApiOp ApiAnswer α}
    (hdemand : ∀ ρ j o k, Reach (server hashtext engine)
      (fun w _ o c => unbroken engine u w o c) σ ρ → ρ.prog j = .op o k →
        Demand asks ρ.world j o) (hσ : Stands u σ.world)
    (hτ : Reach (server hashtext engine) (fun w _ o c => unbroken engine u w o c) σ τ) :
    Stands u τ.world ∧ Follows u σ.world τ.world := by
  induction hτ with
  | refl => exact follows_of_eq hσ rfl
  | @step ρ j o k c r v hρ hj hc hp ih =>
    obtain ⟨hstands, hfollows⟩ := ih
    obtain ⟨hv, hstep⟩ := follows_step hstands (hdemand ρ j o k hρ hj) hc hp
    refine ⟨hv, fun cfg s hs => ?_⟩
    obtain ⟨cfg', s', hs', hgrows⟩ := hfollows cfg s hs
    obtain ⟨cfg'', s'', hs'', hgrows'⟩ := hstep cfg' s' hs'
    exact ⟨cfg'', s'', hs'', hgrows.trans hgrows'⟩

end WhaleMas.ThreadRules
