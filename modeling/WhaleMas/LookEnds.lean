import WhaleMas.RequestEnds
import WhaleMas.ThreadRules

/-!
How the requests end that only look, and those for workflows: with a result, with a refusal, or
with what a call raised by itself. Resuming a thread raises by itself only where others resume
the same thread.
-/

namespace WhaleMas.LookEnds

open WhaleMas.Models WhaleMas.Program WhaleMas.RelyGuarantee WhaleMas.Database
open WhaleMas.Services WhaleMas.StateGraph WhaleMas.CaseGraph WhaleMas.WorkflowService
open WhaleMas.EvidenceLife WhaleMas.WorkflowRuns WhaleMas.Api WhaleMas.ApiRuns
open WhaleMas.ThreadRules
open WhaleMas.RequestEnds (caseNotFound evidenceNotFound Misses)

/-! ### Refusals -/

def workflowNotWaiting : DomainError :=
  conflictError "WORKFLOW_NOT_WAITING" "Workflow is not waiting for review"

/-- The decision does not answer an interrupt of the type. -/
def invalidDecision (decision : ReviewAction) (interruptType : String) : DomainError :=
  conflictError "INVALID_WORKFLOW_DECISION"
    ("Decision " ++ decision.value ++ " is not valid for " ++ interruptType)

/-- What a request that looks may end with besides its result. -/
def Covers {ι : Type} (E : Exn → Prop) (asks : ι → Uuid → Prop) (i : ι) : Endpoint → Prop
  | .getCase _ | .listEvidence _ | .listAudit _ | .verifyAudit _ | .startWorkflow _ _ =>
    E (.domain caseNotFound)
  | .getEvidence _ _ => Misses E
  | .getWorkflow _ => E workflowNotFound
  | .resumeWorkflow threadId data => asks i threadId ∧ E workflowNotFound ∧
      E (.domain workflowNotWaiting) ∧
      (∀ cfg type, Config.pending cfg = some type →
        E (.domain (invalidDecision data.resolvedDecision type))) ∧
      (¬ Alone asks i threadId → ∀ name, E (.other name))
  | _ => True

/-! ### Threads that respond -/

lemma toResponse_holds {t : Thread} {s : Filled} (h : Holds t s) (threadId : Uuid) :
    ∃ r, toResponse threadId t = .ok r := by
  obtain ⟨values, next, pending, failed⟩ := t
  have hvalues : values = s.toState := h.values
  subst hvalues
  exact ⟨_, rfl⟩

lemma invoke_initialState (engine : Engine) (case : Case) (evidence : List Evidence)
    (data : WorkflowStart) :
    (StateGraph.invoke buildCaseWorkflow engine.leave engine.limit
      (initialState case evidence data)).2 = none := by
  obtain ⟨k, hk⟩ := Nat.exists_eq_add_of_le' engine.enough
  rw [hk]
  exact congrArg Prod.snd (run_prepareCase (k + 23) (opening case evidence data))

variable {ι : Type} [DecidableEq ι] [Fintype ι] {hashtext : String → ℤ} {engine : Engine}
  {asks : ι → Uuid → Prop} {first : Threads} {fails : ι → ApiOp → Exn → Prop} {i : ι}
  {E : Exn → Prop} {G : World ι × Threads → Prop}

/-! ### Calls -/

/-- What holds when a request begins: its session has inserted no case, and a thread that only
it asks for asks for what its state says, or for nothing. -/
structure Beginning (asks : ι → Uuid → Prop) (i : ι) (w : World ι × Threads) : Prop where
  cases : (w.1.txn i).cases = []
  ready : ∀ u, Alone asks i u → ∀ t, w.2 u = some t → Ready t

/-- A query raises what its run raises, or what it is made to raise. -/
lemma triple_ask {q : Query} {Q : q.Result → World ι × Threads → Prop}
    (hG : Stable (rules asks first fails) i G)
    (hdemand : ∀ w, G w → Demand asks w i (.inr q)) (hfails : ∀ e, fails i (.inr q) e → E e)
    (hok : ∀ w rank, Inv first w → G w → (q.run engine engine.limit w.2).2 = none →
      Q (q.look rank i w) (w.1, (q.run engine engine.limit w.2).1))
    (hraise : ∀ w e, Inv first w → G w → (q.run engine engine.limit w.2).2 = some e → E e) :
    ETriple (server hashtext engine) (rules asks first fails) i G (ask q) Q fun e _ => E e := by
  refine triple_call hG (fun w _ hg => hdemand w hg) fun w c r v hw hg hc hp => ?_
  obtain ⟨hv, hrely, -⟩ := keeps_step hw (hdemand w hg) hp
  refine ⟨hv, hrely, ?_⟩
  obtain ⟨⟨r', threads⟩, hq, heq⟩ := Option.map_eq_some_iff.mp hp
  obtain ⟨rfl, rfl⟩ := Prod.mk.inj heq
  unfold execQuery at hq
  split at hq
  · obtain ⟨rfl, rfl⟩ := Prod.mk.inj (Option.some.inj hq)
    cases hend : (q.run engine engine.limit w.2).2 with
    | none => exact hok w c.2.rank hw hg hend
    | some e => exact hraise w e hw hg hend
  · next e hf =>
    obtain ⟨rfl, -⟩ := Prod.mk.inj (Option.some.inj hq)
    exact hfails e (hc e (.inl hf))
  · next e hf =>
    obtain ⟨rfl, -⟩ := Prod.mk.inj (Option.some.inj hq)
    exact hfails e (hc e (.inr hf))

/-- A query that neither starts nor resumes a thread. -/
def Reads (q : Query) : Prop :=
  ∀ engine nodes threads, q.run engine nodes threads = (threads, none)

lemma triple_read {q : Query} (hq : Reads q) {Q : q.Result → World ι × Threads → Prop}
    (hG : Stable (rules asks first fails) i G) (hfails : ∀ e, fails i (.inr q) e → E e)
    (hok : ∀ w rank, Inv first w → G w → Q (q.look rank i w) w) :
    ETriple (server hashtext engine) (rules asks first fails) i G (ask q) Q fun e _ => E e := by
  refine triple_ask hG (fun w _ => ?_) hfails (fun w rank hw hg _ => ?_) fun w e _ _ he => ?_
  · cases q with
    | invoke u s =>
      have h := congrFun (congrArg Prod.fst (hq engine 0 fun _ => none)) u
      simp [Query.run] at h
    | resume u d =>
      have h := congrArg Prod.snd (hq engine 0 fun _ => none)
      simp [Query.run] at h
    | _ => trivial
  · rw [hq]
    exact hok w rank hw hg
  · rw [hq] at he
    cases he

/-- A call that looks does not raise by itself. -/
lemma triple_lift {o : Op} (ho : Looks o) {Q : o.Response → World ι × Threads → Prop}
    (hG : Stable (rules asks first fails) i G) (hfails : ∀ e, fails i (.inl o) e → E e)
    (hok : ∀ w c a v, Inv first w → G w → exec hashtext o i c w.1 = some (.ok a, v) →
      Q a (v, w.2)) :
    ETriple (server hashtext engine) (rules asks first fails) i G (lift (call o)) Q
      fun e _ => E e := by
  have hd : ∀ w, Demand asks w i (.inl o) := fun _ => trivial
  refine triple_call hG (fun w _ _ => hd w) fun w c r v hw hg hc hp => ?_
  obtain ⟨hv, hrely, -⟩ := keeps_step hw (hd w) hp
  refine ⟨hv, hrely, ?_⟩
  obtain ⟨⟨r', v'⟩, hp', heq⟩ := Option.map_eq_some_iff.mp hp
  obtain ⟨rfl, rfl⟩ := Prod.mk.inj heq
  obtain ⟨hx, -⟩ | ⟨e, hf, rfl, -⟩ | ⟨e, r', hf, rfl, -⟩ := perform_cases hashtext hp'
  · obtain ⟨a, rfl⟩ := Numbering.exec_plain (by cases o <;> trivial) hx
    exact hok w c.1 a v' hw hg hx
  · exact hfails e (hc e (.inl hf))
  · exact hfails e (hc e (.inr hf))

section Programs

variable (hdb : ∀ o, Asks o → ∀ e, fails i o e → E e)

include hdb

omit [DecidableEq ι] [Fintype ι] hdb in
lemma stable_true : Stable (rules asks first fails) i fun _ => True := stable_const

omit [DecidableEq ι] [Fintype ι] hdb in
lemma stable_beginning : Stable (rules asks first fails) i (Beginning asks i) := by
  intro u v h hu hr hv
  refine ⟨by rw [Rely.txn hr]; exact h.cases, fun x ha t ht => ?_⟩
  cases hx : u.2 x with
  | none => exact Rely.born hr x ha hx t ht
  | some t' =>
    have hsame := Rely.alone hr x ha (by simp [hx])
    exact h.ready x ha t (hsame.symm.trans ht)

omit [DecidableEq ι] [Fintype ι] hdb in
lemma stable_exists (caseId : Uuid) :
    Stable (rules asks first fails) i fun w => Exists caseId w.1 :=
  fun _ _ h _ hr _ => Rely.cases hr caseId h

/-- A case that is found is committed. -/
lemma triple_findCase (caseId : Uuid) :
    ETriple (server hashtext engine) (rules asks first fails) i
      (Beginning asks i) (lift (call (.getCase caseId)))
      (fun r w => ∀ k, r = some k → Exists k.id w.1) fun e _ => E e := by
  refine triple_lift (o := .getCase caseId) trivial stable_beginning (hdb _ trivial) ?_
  intro w c r v hw hbegin hx k hk
  obtain ⟨hr, rfl⟩ := Prod.mk.inj (Option.some.inj hx)
  obtain rfl := Except.ok.inj hr
  have hmem := List.mem_of_find?_eq_some hk
  rw [World.casesFor, hbegin.cases, List.append_nil] at hmem
  obtain ⟨d, hd, rfl⟩ := List.mem_map.mp hmem
  exact ⟨d, hd, (updateCase_keeps _ d).1.symm⟩

/-- A query or a call of which nothing is asked. -/
lemma triple_any {q : Query} (hq : Reads q) :
    ETriple (server hashtext engine) (rules asks first fails) i (fun _ => True) (ask q)
      (fun _ _ => True) fun e _ => E e :=
  triple_read hq stable_true (hdb (.inr q) trivial) fun _ _ _ _ => trivial

lemma triple_anyCall {o : Op} (ho : Looks o) :
    ETriple (server hashtext engine) (rules asks first fails) i (fun _ => True) (lift (call o))
      (fun _ _ => True) fun e _ => E e :=
  triple_lift ho stable_true (hdb (.inl o) ho) fun _ _ _ _ _ _ _ => trivial

lemma triple_getCase (app : App) (caseId : Uuid) (hmissing : E (.domain caseNotFound)) :
    ETriple (server hashtext engine) (rules asks first fails) i (fun _ => True)
      (getCase app caseId) (fun _ _ => True) fun e _ => E e := by
  unfold getCase CaseService.getCase
  rw [lift_bind]
  refine etriple_bind (triple_anyCall hdb (o := .getCase caseId) trivial) fun r => ?_
  cases r with
  | none => exact etriple_throw fun _ _ _ => hmissing
  | some k => exact etriple_pure fun _ _ _ => trivial

lemma triple_requireCase (caseId : Uuid) (hmissing : E (.domain caseNotFound)) :
    ETriple (server hashtext engine) (rules asks first fails) i (fun _ => True)
      (lift (requireCase caseId)) (fun _ _ => True) fun e _ => E e := by
  unfold requireCase
  rw [lift_bind]
  refine etriple_bind (triple_anyCall hdb (o := .getCase caseId) trivial) fun r => ?_
  cases r with
  | none => exact etriple_throw fun _ _ _ => hmissing
  | some k => exact etriple_pure fun _ _ _ => trivial

lemma triple_getEvidence (self : EvidenceService) (caseId evidenceId : Uuid)
    (hmisses : Misses E) :
    ETriple (server hashtext engine) (rules asks first fails) i (fun _ => True)
      (lift (self.getEvidence caseId evidenceId)) (fun _ _ => True) fun e _ => E e := by
  unfold EvidenceService.getEvidence
  rw [lift_bind]
  refine etriple_bind (triple_requireCase hdb caseId hmisses.noCase) fun _ => ?_
  rw [lift_bind]
  refine etriple_bind (triple_anyCall hdb (o := .getEvidence caseId evidenceId) trivial)
    fun r => ?_
  cases r with
  | none => exact etriple_throw fun _ _ _ => hmisses.noEvidence
  | some r => exact etriple_pure fun _ _ _ => trivial

/-! ### Workflows -/

/-- A thread that is there is found with a state that responds. -/
lemma triple_getState {threadId : Uuid} (hG : Stable (rules asks first fails) i G) :
    ETriple (server hashtext engine) (rules asks first fails) i G (ask (.getState threadId))
      (fun r w => (∀ t, r = some t → ∃ s, Holds t s) ∧ r = w.2 threadId ∧ G w)
      fun e _ => E e := by
  refine triple_read (q := .getState threadId) (fun _ _ _ => rfl) hG (hdb _ trivial) ?_
  intro w rank hw hg
  refine ⟨fun t ht => ?_, rfl, hg⟩
  obtain ⟨s, hs, -⟩ := hw.holds threadId t ht
  exact ⟨s, hs⟩

omit hdb in
/-- A thread with a state responds. -/
lemma triple_respondState {threadId : Uuid} {t : Thread} (h : ∀ w, G w → ∃ s, Holds t s) :
    ETriple (server hashtext engine) (rules asks first fails) i G
      (snapshotResponse threadId (some t)) (fun _ _ => True) fun e _ => E e := by
  intro w hw hg
  obtain ⟨s, hs⟩ := h w hg
  obtain ⟨r, hr⟩ := toResponse_holds hs threadId
  unfold snapshotResponse
  simp only [hr, ofService]
  exact etriple_pure (fun _ _ _ => trivial) w hw hg

/-- The thread is there. -/
lemma triple_lastState {threadId : Uuid} :
    ETriple (server hashtext engine) (rules asks first fails) i (fun w => w.2 threadId ≠ none)
      (do snapshotResponse threadId (← ask (.getState threadId))) (fun _ _ => True)
      fun e _ => E e := by
  have hstable : Stable (rules asks first fails) i fun w => w.2 threadId ≠ none :=
    fun _ _ h _ hr _ => Rely.kept hr threadId h
  refine etriple_bind (triple_getState hdb hstable) fun r => ?_
  cases r with
  | none => exact fun w _ h => absurd h.2.1.symm h.2.2
  | some t => exact triple_respondState fun _ h => h.1 t rfl

lemma triple_startWorkflow (caseId : Uuid) (data : WorkflowStart)
    (hmissing : E (.domain caseNotFound)) :
    ETriple (server hashtext engine) (rules asks first fails) i (Beginning asks i)
      (startWorkflow caseId data) (fun _ _ => True) fun e _ => E e := by
  refine etriple_bind (triple_findCase hdb caseId) fun r => ?_
  cases r with
  | none => exact etriple_throw fun _ _ _ => hmissing
  | some k =>
    refine triple_conseq (P := fun w => Exists k.id w.1) ?_ (fun w _ h => h k rfl)
      fun _ _ _ h => h
    refine etriple_bind (triple_read (q := .listEvidence caseId)
      (Q := fun _ w => Exists k.id w.1) (fun _ _ _ => rfl) (stable_exists k.id) (hdb _ trivial)
      fun w _ _ h => h) fun evidence => ?_
    have hdraw : ETriple (server hashtext engine) (rules asks first fails) i
        (fun w => Exists k.id w.1) (lift (call .uuid4))
        (fun u w => Exists k.id w.1 ∧ w.1.owner u = .drawn i ∧ w.2 u = none)
        fun e _ => E e := by
      refine triple_lift (o := .uuid4) trivial (stable_exists k.id) (hdb _ trivial) ?_
      intro w c u v hw hthere hx
      simp only [exec] at hx
      split_ifs at hx with hfresh
      obtain ⟨hu, rfl⟩ := Prod.mk.inj (Option.some.inj hx)
      obtain rfl := Except.ok.inj hu
      refine ⟨hthere, by simp [World.draw], ?_⟩
      by_contra hne
      exact hw.known _ hne hfresh
    refine etriple_bind hdraw fun u => ?_
    have hstable : Stable (rules asks first fails) i
        fun w => Exists k.id w.1 ∧ w.1.owner u = .drawn i ∧ w.2 u = none :=
      fun w v h hw hr hv => ⟨stable_exists k.id w v h.1 hw hr hv, Rely.owner hr u h.2.1,
        Rely.unborn hr u h.2.1 h.2.2⟩
    have hrun : ∀ w : World ι × Threads, ((Query.invoke u (initialState k evidence data)).run
        engine engine.limit w.2).2 = none := fun w => by
      simp [Query.run, invoke_initialState]
    refine etriple_bind (triple_ask (Q := fun _ w => w.2 u ≠ none) hstable
      (fun w h => ⟨h.2.1, h.2.2, opening k evidence data, rfl, h.1⟩) (hdb _ trivial)
      (fun w _ _ _ _ => by simp [Query.run]) fun w e _ _ he => by simp [hrun w] at he)
      fun _ => triple_lastState hdb

lemma triple_getWorkflow (threadId : Uuid) (hmissing : E workflowNotFound) :
    ETriple (server hashtext engine) (rules asks first fails) i (fun _ => True)
      (getWorkflow threadId) (fun _ _ => True) fun e _ => E e := by
  refine etriple_bind (triple_getState hdb stable_true) fun r => ?_
  cases r with
  | none => exact etriple_throw fun _ _ _ => hmissing
  | some t => exact triple_respondState fun _ h => h.1 t rfl

omit [DecidableEq ι] [Fintype ι] hdb in
/-- An accepted decision is followed without an exception, where the thread asks for what its
state says. -/
lemma resumeWith_accepted {t : Thread} {s : Filled} {v : Interrupt}
    {q : WorkflowService.Request} (hready : Ready t) (hs : Holds t s) (hv : t.interrupt = some v)
    (h : q.data.resolvedDecision ∈ allowed v.type) :
    (resumeWith buildCaseWorkflow engine.leave engine.limit t (payload q s.caseId)).2 = none := by
  obtain hnone | ⟨cfg, s', rfl⟩ := hready
  · cases hnone.symm.trans hv
  · obtain rfl := hs.unique (holds_checkpointOf cfg s')
    have hpending : Config.pending cfg = some v.type := by
      rw [← interrupt_type (s := s)]
      exact congrArg (Option.map Interrupt.type) hv
    rw [allowed_type hpending] at h
    obtain ⟨⟨cfg', s'⟩, hans⟩ := Option.isSome_iff_exists.mp ((answer_isSome (s := s)).mpr h)
    have hact : act engine (checkpointOf cfg s) (payload q s.caseId) =
      (checkpointOf cfg' s', none) := act_answer hans
    exact congrArg Prod.snd hact

/-- The thread is there, and as it was if nobody else asks for it. -/
def Unmoved (asks : ι → Uuid → Prop) (i : ι) (threadId : Uuid) (t : Thread)
    (w : World ι × Threads) : Prop :=
  w.2 threadId ≠ none ∧ (Alone asks i threadId → w.2 threadId = some t)

omit [DecidableEq ι] [Fintype ι] hdb in
lemma stable_unmoved (threadId : Uuid) (t : Thread) :
    Stable (rules asks first fails) i (Unmoved asks i threadId t) :=
  fun _ _ h _ hr _ => ⟨Rely.kept hr threadId h.1,
    fun ha => (Rely.alone hr threadId ha h.1).trans (h.2 ha)⟩

/-- The decision is handed to the thread. -/
lemma triple_handOver {threadId : Uuid} {t : Thread} {s : Filled} {v : Interrupt}
    {q : WorkflowService.Request} {evidenceCount : Option ℕ} (hasks : asks i threadId)
    (hs : Holds t s) (hready : Alone asks i threadId → Ready t) (hv : t.interrupt = some v)
    (hq : q.data.resolvedDecision ∈ allowed v.type)
    (hcount : evidenceCount = (payload q s.caseId).evidenceCount)
    (hrace : ¬ Alone asks i threadId → ∀ name, E (.other name)) :
    ETriple (server hashtext engine) (rules asks first fails) i (Unmoved asks i threadId t)
      (do
        ask (.resume threadId {
          action := q.data.resolvedDecision
          comment := q.data.comment
          reviewer := q.data.reviewer
          reviewedAt := q.now.isoformat
          evidenceCount := evidenceCount })
        snapshotResponse threadId (← ask (.getState threadId))) (fun _ _ => True)
      fun e _ => E e := by
  subst hcount
  change ETriple _ _ _ _ (ask (.resume threadId (payload q s.caseId)) >>= fun _ => _) _ _
  refine etriple_bind (triple_ask (Q := fun _ w => w.2 threadId ≠ none)
    (stable_unmoved threadId _) (fun _ _ => hasks) (hdb _ trivial) ?_ ?_)
    fun _ => triple_lastState hdb
  · rintro w - hw ⟨hne, -⟩ -
    obtain ⟨t', ht'⟩ := Option.ne_none_iff_exists'.mp hne
    simp [Query.run, ht']
  · rintro w e hw ⟨hne, halone⟩ he
    by_cases ha : Alone asks i threadId
    · simp [Query.run, halone ha, resumeWith_accepted (hready ha) hs hv hq] at he
    · obtain ⟨t', ht'⟩ := Option.ne_none_iff_exists'.mp hne
      simp only [Query.run, ht', Option.map_eq_some_iff] at he
      obtain ⟨f, -, rfl⟩ := he
      obtain (key | reason) | - := f <;> exact hrace ha _

lemma triple_resumeWorkflow (threadId : Uuid) (data : WorkflowResume)
    (hcovers : Covers E asks i (.resumeWorkflow threadId data)) :
    ETriple (server hashtext engine) (rules asks first fails) i (Beginning asks i)
      (resumeWorkflow threadId data) (fun _ _ => True) fun e _ => E e := by
  obtain ⟨hasks, hmissing, hwaiting, hinvalid, hrace⟩ := hcovers
  refine etriple_bind (triple_getState hdb stable_beginning) fun r => ?_
  cases r with
  | none => exact etriple_throw fun _ _ _ => hmissing
  | some snapshot =>
    refine triple_conseq (P := fun w => ((∃ s, Holds snapshot s) ∧
        (Alone asks i threadId → Ready snapshot)) ∧ Unmoved asks i threadId snapshot w)
      (triple_and fun hsnapshot => ?_) (fun w _ h => ⟨⟨h.1 _ rfl,
        fun ha => h.2.2.ready threadId ha snapshot h.2.1.symm⟩,
        by rw [Unmoved, ← h.2.1]; exact ⟨by simp, fun _ => rfl⟩⟩) fun _ _ _ h => h
    obtain ⟨⟨s, hs⟩, hready⟩ := hsnapshot
    have hstable : Stable (rules asks first fails) i (Unmoved asks i threadId snapshot) :=
      stable_unmoved _ _
    cases hv : snapshot.interrupt with
    | none =>
      simp only [hv]
      exact etriple_throw fun _ _ _ => hwaiting
    | some v =>
      simp only [hv]
      by_cases hmem : data.resolvedDecision ∈ allowed v.type
      · simp only [hmem, not_true_eq_false, if_false]
        refine etriple_bind (triple_lift (o := .now)
          (Q := fun _ => Unmoved asks i threadId snapshot) trivial hstable (hdb _ trivial)
          fun w c a u _ h hx => ?_) fun now => ?_
        · obtain ⟨-, rfl⟩ := Prod.mk.inj (Option.some.inj hx)
          exact h
        split_ifs with hsupply
        · have hcase : field "case_id" snapshot.values.caseId = .ok s.caseId := by
            rw [hs.values]
            rfl
          rw [hcase]
          refine etriple_bind (Q := fun caseId w => caseId = s.caseId ∧
            Unmoved asks i threadId snapshot w) (etriple_pure fun _ _ h => ⟨rfl, h⟩)
            fun caseId => ?_
          refine triple_and ?_
          rintro rfl
          refine etriple_bind (triple_read (q := .listEvidence s.caseId)
            (Q := fun _ => Unmoved asks i threadId snapshot) (fun _ _ _ => rfl) hstable
            (hdb _ trivial) fun w _ _ h => h) fun evidence => ?_
          exact triple_handOver hdb (q := ⟨data, now, fun _ => evidence⟩) hasks hs hready hv hmem
            (by simp [payload, hsupply]) hrace
        · exact triple_handOver hdb (q := ⟨data, now, fun _ => []⟩) hasks hs hready hv hmem
            (by simp [payload, hsupply]) hrace
      · simp only [hmem, not_false_eq_true, if_true]
        refine etriple_bind (Q := fun _ _ => False) (etriple_throw fun _ _ _ => ?_)
          fun _ w _ h => h.elim
        obtain ⟨cfg, hcfg⟩ : ∃ cfg, Config.pending cfg = some v.type := by
          cases v with
          | caseAnalysisReview => exact ⟨.review, rfl⟩
          | evidenceRequired => exact ⟨.evidence, rfl⟩
        exact hinvalid cfg v.type hcfg

/-- **How the requests that look end**: with a result, with a refusal, or with what a call
raised. -/
theorem triple_look (app : App) {endpoint : Endpoint} (hlook : endpoint.request = none)
    (hcovers : Covers E asks i endpoint) :
    Triple (server hashtext engine) (rules asks first fails) i (Beginning asks i)
      (Api.withSession (look app endpoint)) fun r _ => ∀ e, r = .error e → E e := by
  have hany : ∀ {α : Type} {p : ApiM α} {f : α → Payload},
      ETriple (server hashtext engine) (rules asks first fails) i (fun _ => True) p
        (fun _ _ => True) (fun e _ => E e) →
      ETriple (server hashtext engine) (rules asks first fails) i (Beginning asks i)
        (f <$> p) (fun _ _ => True) fun e _ => E e :=
    fun hp => etriple_conseq (etriple_map hp fun _ _ _ _ => trivial) (fun _ _ _ => trivial)
      (fun _ _ _ h => h) fun _ _ _ h => h
  have hread : ∀ {q : Query}, Reads q → ETriple (server hashtext engine) (rules asks first fails) i
      (fun _ => True) (ask q) (fun _ _ => True) fun e _ => E e := triple_any hdb
  have hends : ETriple (server hashtext engine) (rules asks first fails) i
      (Beginning asks i) (look app endpoint) (fun _ _ => True)
      fun e _ => E e := by
    cases endpoint with
    | createCase | updateCase | uploadEvidence | deleteEvidence => cases hlook
    | listCases offset limit => exact hany (hread fun _ _ _ => rfl)
    | getCase caseId => exact hany (triple_getCase hdb app caseId hcovers)
    | listEvidence caseId =>
      exact hany (etriple_bind (triple_requireCase hdb caseId hcovers) fun _ =>
        hread fun _ _ _ => rfl)
    | getEvidence caseId evidenceId =>
      exact hany (triple_getEvidence hdb app.evidenceService caseId evidenceId hcovers)
    | listAudit caseId =>
      refine etriple_bind (etriple_conseq (triple_getCase hdb app caseId hcovers)
        (fun _ _ _ => trivial) (fun _ _ _ h => h) fun _ _ _ h => h) fun _ => ?_
      exact etriple_map (hread fun _ _ _ => rfl) fun _ _ _ _ => trivial
    | verifyAudit caseId =>
      refine etriple_bind (etriple_conseq (triple_getCase hdb app caseId hcovers)
        (fun _ _ _ => trivial) (fun _ _ _ h => h) fun _ _ _ h => h) fun _ => ?_
      refine etriple_map (Q := fun _ _ => True) (etriple_bind (hread fun _ _ _ => rfl)
        fun events => ?_) fun _ _ _ _ => trivial
      exact etriple_pure fun _ _ _ => trivial
    | startWorkflow caseId data =>
      exact etriple_map (triple_startWorkflow hdb caseId data hcovers) fun _ _ _ _ => trivial
    | getWorkflow threadId => exact hany (triple_getWorkflow hdb threadId hcovers)
    | resumeWorkflow threadId data =>
      exact etriple_map (triple_resumeWorkflow hdb threadId data hcovers) fun _ _ _ _ => trivial
  refine triple_bind (Q := fun r _ => ∀ e, r = .error e → E e) (triple_conseq hends
    (fun _ _ h => h) fun r w _ h => ?_) fun r => ?_
  · cases r with
    | ok p => exact fun e he => by cases he
    | error x => exact fun e he => Except.error.inj he ▸ h
  · refine triple_bind (Q := fun _ _ => ∀ e, r = .error e → E e) (triple_call stable_const
      (fun _ _ _ => trivial) fun w c a v hw h _ hp => ?_) fun _ => triple_ret fun _ _ h => h
    have hd : Demand asks w i (.inl .close) := trivial
    obtain ⟨hv, hrely, -⟩ := keeps_step hw hd hp
    exact ⟨hv, hrely, h⟩

end Programs

end WhaleMas.LookEnds
