import WhaleMas.FileValidation
import WhaleMas.LookEnds
import WhaleMas.NumberedRuns

/-!
What a client of the HTTP interface can count on, whoever else is served: what becomes of the
thread of a workflow, and which responses a request can get.
-/

namespace WhaleMas.Contract

open WhaleMas.Models WhaleMas.Program WhaleMas.RelyGuarantee WhaleMas.Beside WhaleMas.Database
open WhaleMas.Services WhaleMas.UnicodeText WhaleMas.FileValidation WhaleMas.CaseGraph
open WhaleMas.WorkflowService WhaleMas.WorkflowRuns WhaleMas.Api WhaleMas.ApiRuns
open WhaleMas.NumberedRuns WhaleMas.LookEnds
open WhaleMas.RequestEnds (caseNotFound evidenceNotFound duplicateEvidence Storing Refuses)
open WhaleMas.ThreadRules (SameCase Grows Holds Ready Exists Alone Policy Moves Stands unbroken)

variable {ι : Type} [DecidableEq ι] [Fintype ι] {hashtext : String → ℤ} {engine : Engine}
  {w₀ : World ι} {threads : Threads} {i : ι}

/-! ### Threads -/

/-- A session asks to resume the thread. -/
def asksFor {ι : Type} (incoming : ι → Incoming) (i : ι) (threadId : Uuid) : Prop :=
  ∃ data, (incoming i).request.parse = some (.resumeWorkflow threadId data)

/-- The threads that are there have states, ask for what these say, or for nothing, and have
identifiers of their own. -/
structure Begun {ι : Type} (w : World ι) (threads : Threads) : Prop where
  holds : ∀ u t, threads u = some t → ∃ s, Holds t s
  ready : ∀ u t, threads u = some t → Ready t
  known : ∀ u t, threads u = some t → w.owner u ≠ .fresh

omit [DecidableEq ι] [Fintype ι] in
lemma Begun.inv (h : Begun w₀ threads) : ThreadRules.Inv threads (w₀, threads) where
  holds := fun u t ht => by
    obtain ⟨s, hs⟩ := h.holds u t ht
    exact ⟨s, hs, fun hnone => by cases hnone.symm.trans ht⟩
  known := fun u hu => by
    obtain ⟨t, ht⟩ := Option.ne_none_iff_exists'.mp hu
    exact h.known u t ht

omit [DecidableEq ι] [Fintype ι] in
lemma Begun.beginning (h : Begun w₀ threads) (asks : ι → Uuid → Prop)
    (hidle : (w₀.txn i).cases = []) : Beginning asks i (w₀, threads) :=
  ⟨hidle, fun u _ t ht => h.ready u t ht⟩

section Serve

variable {asks : ι → Uuid → Prop} {first : Threads} {fails : ι → ApiOp → Exn → Prop}

/-- A call of the services keeps the rules of the threads. -/
lemma triple_apart (o : ApiOp) (ho : ∃ o', o = .inl o') :
    Triple (server hashtext engine) (ThreadRules.rules asks first fails) i (fun _ => True)
      (.call o) fun _ _ => True := by
  obtain ⟨o, rfl⟩ := ho
  have hd : ∀ w, ThreadRules.Demand asks w i (.inl o) := fun _ => trivial
  refine triple_call stable_const (fun w _ _ => hd w) fun w c r v hw _ _ hp => ?_
  obtain ⟨hv, hrely, -⟩ := ThreadRules.keeps_step hw (hd w) hp
  exact ⟨hv, hrely, trivial⟩

/-- An endpoint for workflows, or that looks, ends as it may; nothing is said of the others. -/
lemma triple_threads (app : App) {endpoint : Endpoint} {E : Exn → Prop}
    (hdb : ∀ o, Asks o → ∀ e, fails i o e → E e) (hcovers : Covers E asks i endpoint) :
    Triple (server hashtext engine) (ThreadRules.rules asks first fails) i
      (Beginning asks i) (serve app endpoint)
      fun r _ => endpoint.request = none → ∀ e, r = .error e → E e := by
  cases h : endpoint.request with
  | none =>
    exact triple_serve_look h (triple_conseq (triple_look hdb app h hcovers) (fun _ _ h => h)
      fun _ _ _ he _ => he)
  | some request =>
    refine triple_serve_request h (triple_conseq (triple_of_calls
      (calls_inner (calls_anything (app.handle request)) fun o _ => ⟨o, rfl⟩) triple_apart)
      (fun _ _ _ => trivial) fun _ _ _ _ hnone => by cases hnone)

/-- The draw of the identifier of a request fails only as it may. -/
lemma triple_draw : Triple (server hashtext engine) (ThreadRules.rules asks first fails) i
    (Beginning asks i) (.call (.inl .uuid4))
    fun (r : Answer .uuid4) w =>
      (∀ e, r = .error e → fails i (.inl .uuid4) e) ∧ Beginning asks i w := by
  have hd : ∀ w, ThreadRules.Demand asks w i (.inl .uuid4) := fun _ => trivial
  refine triple_call stable_beginning (fun w _ _ => hd w) fun w c r v hw hbegin hc hp => ?_
  obtain ⟨hv, hrely, -⟩ := ThreadRules.keeps_step hw (hd w) hp
  obtain ⟨⟨r', v'⟩, hp', heq⟩ := Option.map_eq_some_iff.mp hp
  obtain ⟨rfl, rfl⟩ := Prod.mk.inj heq
  change perform hashtext .uuid4 i c.1 w.1 = some (r', v') at hp'
  refine ⟨hv, hrely, fun e he => ?_, ?_⟩
  · obtain ⟨hx, -⟩ | ⟨e', hf, rfl, -⟩ | ⟨e', r, hf, rfl, -⟩ := perform_cases hashtext hp'
    · obtain ⟨a, rfl⟩ := Numbering.exec_plain (o := .uuid4) trivial hx
      cases he
    · exact Except.error.inj he ▸ hc e' (.inl hf)
    · exact Except.error.inj he ▸ hc e' (.inr hf)
  · cases perform_effect hp' with
    | nothing | uuid4 => exact ⟨hbegin.cases, hbegin.ready⟩

end Serve

/-- Calls may raise anything. -/
def anything : ι → ApiOp → Exn → Prop := fun _ _ _ => True

omit [DecidableEq ι] [Fintype ι] in
lemma covers_anything {incoming : ι → Incoming} {endpoint : Endpoint}
    (h : (incoming i).request.parse = some endpoint) :
    Covers (fun _ => True) (asksFor incoming) i endpoint := by
  cases endpoint with
  | resumeWorkflow threadId data =>
    exact ⟨⟨data, h⟩, trivial, trivial, fun _ _ _ => trivial, fun _ _ => trivial⟩
  | getEvidence caseId evidenceId => exact ⟨trivial, trivial⟩
  | _ => trivial

/-- **Threads grow**: in every run of the interface, whatever calls fail and wherever an
invocation breaks off, each thread has every key set; the cases of new threads exist; and from
any moment on a thread keeps its case, its name, its scope and its limit, and stays as it is if
no request resumes it. A thread of which no invocation ends with an exception is always in a
configuration, and its rounds and its history only grow. -/
theorem threads_grow (app : App) (incoming : ι → Incoming) (htxn : ∀ i, (w₀.txn i).cases = [])
    (h₀ : Begun w₀ threads) {σ τ : Conf ι (World ι × Threads) ApiOp ApiAnswer (Option Response)}
    (hσ : Reach (server hashtext engine) (fun _ _ _ _ => True) (atStart app incoming w₀ threads) σ)
    (hτ : Reach (server hashtext engine) (fun _ _ _ _ => True) σ τ) {u : Uuid} {t : Thread}
    (ht : σ.world.2 u = some t) :
    ∃ s, Holds t s ∧ (threads u = none → Exists s.caseId σ.world.1) ∧
      (∃ t' s', τ.world.2 u = some t' ∧ Holds t' s' ∧ SameCase s s' ∧
        ((∀ i, ¬ asksFor incoming i u) → t' = t)) ∧
      (Stands u (w₀, threads) →
        Reach (server hashtext engine) (fun w _ o c => unbroken engine u w o c)
          (atStart app incoming w₀ threads) σ →
        Reach (server hashtext engine) (fun w _ o c => unbroken engine u w o c) σ τ →
        ∃ cfg cfg' s', t = checkpointOf cfg s ∧ τ.world.2 u = some (checkpointOf cfg' s') ∧
          Grows s s') := by
  have hsafe : ∀ i, Safe (server hashtext engine)
      (ThreadRules.rules (asksFor incoming) threads anything) i (fun _ _ => True)
      (respond app (incoming i)) (w₀, threads) := fun i => by
    refine triple_respond (Q := fun _ _ _ => True) triple_draw (fun _ endpoint hparse => ?_)
      (fun _ _ _ _ => trivial) (fun _ _ _ _ _ => trivial)
      (fun _ _ _ _ _ _ _ _ => trivial) _ h₀.inv (h₀.beginning _ (htxn i))
    exact triple_conseq (triple_threads app (fun _ _ _ _ => trivial) (covers_anything hparse))
      (fun _ _ h => h.2) fun _ _ _ _ => trivial
  have hbegin : (ThreadRules.rules (asksFor incoming) threads anything).inv (w₀, threads) :=
    h₀.inv
  have hreached : ∀ {ρ}, Reach (server hashtext engine) (fun _ _ _ _ => True)
      (atStart app incoming w₀ threads) ρ → ThreadRules.Inv threads ρ.world ∧
        ∀ i, Safe (server hashtext engine) (ThreadRules.rules (asksFor incoming) threads anything)
          i (fun _ _ => True) (ρ.prog i) ρ.world := fun h =>
    safe_reach (fun _ _ => stable_const) hbegin hsafe (h.mono fun _ _ _ _ _ _ _ => trivial)
  obtain ⟨hinv, hσsafe⟩ := hreached hσ
  obtain ⟨s, hs, hthere⟩ := hinv.holds u t ht
  have hmoves : Moves (asksFor incoming) σ.world τ.world :=
    moves_of_safe ThreadRules.moves_refl ThreadRules.moves_trans
      (fun w i o c r v hw hd hp => (ThreadRules.keeps_step hw hd hp).2.2)
      (fun _ _ => stable_const) hinv hσsafe (hτ.mono fun _ _ _ _ _ _ _ => trivial)
  refine ⟨s, hs, hthere, hmoves u t s ht hs, fun hstands hσunbroken hτunbroken => ?_⟩
  have hdemand : ∀ {ρ : Conf ι (World ι × Threads) ApiOp ApiAnswer (Option Response)} {j o k},
      Reach (server hashtext engine) (fun w _ o c => unbroken engine u w o c)
        (atStart app incoming w₀ threads) ρ → ρ.prog j = .op o k →
      ThreadRules.Demand (asksFor incoming) ρ.world j o := fun h hj => by
    obtain ⟨hinv, hsafe⟩ := hreached (h.mono fun _ _ _ _ _ => trivial)
    exact demand_of_safe hinv hsafe hj
  have hσstands : Stands u σ.world :=
    (ThreadRules.follows_of_reach (fun ρ j o k h => hdemand h) hstands hσunbroken).1
  obtain ⟨cfg, s', rfl⟩ := hσstands t ht
  obtain rfl := hs.unique (ThreadRules.holds_checkpointOf cfg s')
  obtain ⟨cfg', s', hs', hgrows⟩ := (ThreadRules.follows_of_reach
    (fun ρ j o k h => hdemand (hσunbroken.trans h)) hσstands hτunbroken).2 cfg s ht
  exact ⟨cfg, cfg', s', rfl, hs', hgrows⟩

section Example

open WhaleMas.AuditReports

/-- A case is created, a workflow started for it, and its review approved. -/
def createStartApprove : Fin 3 → Incoming
  | 0 => ⟨none, .createCase "Shipment" none none⟩
  | 1 => ⟨none, .startWorkflow 3 none⟩
  | 2 => ⟨some "7", .resumeWorkflow 103 (some .approve) none none none⟩

def createStartApproveApp (app : App) : Conf (Fin 3) (World (Fin 3) × Threads) ApiOp ApiAnswer
    (Option Response) :=
  ⟨(World.empty, fun _ => none), fun i => respond app (createStartApprove i)⟩

omit [DecidableEq ι] [Fintype ι] in
lemma begun_none : Begun w₀ fun _ => none where
  holds := fun _ _ h => by cases h
  ready := fun _ _ h => by cases h
  known := fun _ _ h => by cases h

/-- What is asked of the choices so that no invocation of the thread ends with an exception. -/
def calm (w : World (Fin 3) × Threads) (_ : Fin 3) (o : ApiOp) (c : Choice × Draw) : Prop :=
  unbroken langGraph 103 w o c

instance (w : World (Fin 3) × Threads) (i : Fin 3) (o : ApiOp) (c : Choice × Draw) :
    Decidable (calm w i o c) := inferInstanceAs (Decidable (unbroken langGraph 103 w o c = true))

lemma createStartApprove_runs : ((runUnder (server (fun _ => 0) langGraph) calm
    (createStartApproveApp SessionRuns.textApp) (quietCalls 0 0 12 ++ quietCalls 1 100 7)).bind
      fun σ => (runUnder (server (fun _ => 0) langGraph) calm σ (quietCalls 2 200 6)).map
        fun τ => ((σ.world.2 103).isSome, ((τ.world.2 103).bind fun t => t.next).isSome)) =
    some (true, false) := by
  decide

/-- The thread that waits for its review is approved, and grows. -/
theorem threads_grow_createStartApprove : ∃ σ τ cfg cfg' s s',
    runUnder (server (fun _ => 0) langGraph) calm (createStartApproveApp SessionRuns.textApp)
      (quietCalls 0 0 12 ++ quietCalls 1 100 7) = some σ ∧
    runUnder (server (fun _ => 0) langGraph) calm σ (quietCalls 2 200 6) = some τ ∧
    σ.world.2 103 = some (checkpointOf cfg s) ∧ τ.world.2 103 = some (checkpointOf cfg' s') ∧
    Grows s s' := by
  obtain ⟨σ, hσ, hτmap⟩ := Option.bind_eq_some_iff.mp createStartApprove_runs
  obtain ⟨τ, hτ, hsome⟩ := Option.map_eq_some_iff.mp hτmap
  obtain ⟨t, ht⟩ := Option.isSome_iff_exists.mp (congrArg Prod.fst hsome)
  have hσreach := reach_of_runUnder .refl hσ
  have hτreach := reach_of_runUnder .refl hτ
  obtain ⟨s, -, -, -, hgrows⟩ := threads_grow SessionRuns.textApp createStartApprove
    (fun _ => rfl) begun_none (hσreach.mono fun _ _ _ _ _ => trivial)
    (hτreach.mono fun _ _ _ _ _ => trivial) ht
  obtain ⟨cfg, cfg', s', rfl, ht', h⟩ := hgrows (fun _ h => by cases h) hσreach hτreach
  exact ⟨σ, τ, cfg, cfg', s, s', hσ, hτ, ht, ht', h⟩

end Example

/-! ### Responses -/

/-- The services as they are put together for a request. -/
def application (u : Unicode) (allowedExtensions : List String) (maxSizeBytes : ℕ)
    (chainEnabled : Bool) : App where
  caseService := ⟨⟨chainEnabled⟩⟩
  evidenceService := ⟨⟨chainEnabled⟩, fileValidator u allowedExtensions maxSizeBytes⟩

def cannotStore : DomainError := storageError "Unable to store evidence object"

def cannotDelete : DomainError := storageError "Unable to delete evidence object"

/-- The errors of the validator. -/
def invalidUploads : List DomainError := [
  evidenceValidationError "EVIDENCE_FILENAME_REQUIRED" "Filename is required",
  evidenceValidationError "EVIDENCE_INVALID_TYPE" "Unsupported evidence file type",
  evidenceValidationError "EVIDENCE_MIME_MISMATCH"
    "Declared MIME type does not match file extension",
  evidenceValidationError "EVIDENCE_EMPTY" "Evidence file is empty",
  evidenceValidationError "EVIDENCE_TOO_LARGE" "Evidence file is too large"]

def threadNotFound : DomainError := notFoundError "WORKFLOW_NOT_FOUND" "Workflow thread not found"

/-- The errors with which an endpoint refuses a request. -/
def refusals : Endpoint → List DomainError
  | .createCase _ | .listCases _ _ => []
  | .getCase _ | .updateCase _ _ | .listEvidence _ | .listAudit _ | .verifyAudit _
  | .startWorkflow _ _ => [caseNotFound]
  | .getEvidence _ _ => [caseNotFound, evidenceNotFound]
  | .deleteEvidence _ _ => [caseNotFound, evidenceNotFound, cannotDelete]
  | .uploadEvidence _ _ _ _ _ => caseNotFound :: duplicateEvidence :: cannotStore :: invalidUploads
  | .getWorkflow _ => [threadNotFound]
  | .resumeWorkflow _ data => [threadNotFound, workflowNotWaiting,
      invalidDecision data.resolvedDecision "CASE_ANALYSIS_REVIEW",
      invalidDecision data.resolvedDecision "EVIDENCE_REQUIRED"]

/-- The request would set a name or a status to null. -/
def SetsNull : Endpoint → Prop
  | .updateCase _ data => data.name = some none ∨ data.status = some none
  | _ => False

/-- The payload is of the kind that the endpoint returns. -/
def Fits : Endpoint → Payload → Prop
  | .createCase _, p | .getCase _, p | .updateCase _ _, p => ∃ c, p = .case c
  | .listCases _ _, p => ∃ l, p = .cases l
  | .uploadEvidence .., p | .getEvidence _ _, p => ∃ e, p = .evidence e
  | .listEvidence _, p => ∃ l, p = .evidences l
  | .deleteEvidence _ _, p => p = .noContent
  | .listAudit _, p => ∃ l, p = .events l
  | .verifyAudit _, p => ∃ v, p = .verification v
  | .startWorkflow _ _, p | .getWorkflow _, p | .resumeWorkflow _ _, p => ∃ r, p = .workflow r

/-- What the storage raises where it fails. -/
def storageFailure : ApiOp → Option DomainError
  | .inl (.putObject _ _ _) => some cannotStore
  | .inl (.deleteObject _) => some cannotDelete
  | _ => none

/-- What a call may raise by itself: the storage its error, and in a session that is not smooth
any call any exception but those of the domain. -/
def mayRaise {ι : Type} (smooth : ι → Prop) (i : ι) (o : ApiOp) (e : Exn) : Prop :=
  (∃ d, storageFailure o = some d ∧ e = .domain d) ∨ ¬ smooth i ∧ ∀ d, e ≠ .domain d

/-- Another session asks to resume the same thread. -/
def Contested {ι : Type} (incoming : ι → Incoming) (i : ι) : Prop :=
  ∃ threadId, asksFor incoming i threadId ∧ ¬ Alone (asksFor incoming) i threadId

/-- The responses a request may get. -/
inductive Conforms (smooth contested : Prop) (incoming : Incoming) : Option Response → Prop
  | invalid {requestId : String} (hid : ∀ id ∈ incoming.requestId, requestId = id)
      (hparse : incoming.request.parse = none) :
      Conforms smooth contested incoming (some ⟨422, .error ⟨"REQUEST_VALIDATION_ERROR",
        "Request validation failed", requestId⟩, some requestId⟩)
  | ok {requestId : String} {endpoint : Endpoint} {p : Payload}
      (hid : ∀ id ∈ incoming.requestId, requestId = id)
      (hparse : incoming.request.parse = some endpoint) (hp : Fits endpoint p) :
      Conforms smooth contested incoming (some ⟨endpoint.statusCode, .payload p, some requestId⟩)
  | refused {requestId : String} {endpoint : Endpoint} {d : DomainError}
      (hid : ∀ id ∈ incoming.requestId, requestId = id)
      (hparse : incoming.request.parse = some endpoint) (hd : d ∈ refusals endpoint) :
      Conforms smooth contested incoming
        (some ⟨d.statusCode, .error ⟨d.code, d.message, requestId⟩, some requestId⟩)
  | broken {requestId : String} (hwhy : ¬ smooth ∨ contested ∨
      ∃ endpoint, incoming.request.parse = some endpoint ∧ SetsNull endpoint) :
      Conforms smooth contested incoming
        (some ⟨500, .error ⟨"INTERNAL_ERROR", "Internal server error", requestId⟩, none⟩)
  | unanswered (hwhy : ¬ smooth) : Conforms smooth contested incoming none

/-- What an endpoint may raise. -/
inductive Raises (smooth contested : Prop) (endpoint : Endpoint) : Exn → Prop
  | refused {d : DomainError} (hd : d ∈ refusals endpoint) :
      Raises smooth contested endpoint (.domain d)
  | failed {e : Exn} (hsmooth : ¬ smooth) (he : ∀ d, e ≠ .domain d) :
      Raises smooth contested endpoint e
  | null (hnull : SetsNull endpoint) : Raises smooth contested endpoint .integrity
  | race {name : String} (hrace : contested) : Raises smooth contested endpoint (.other name)

section Endpoints

variable {smooth : ι → Prop} {contested : Prop} {endpoint : Endpoint} {u : Unicode}
  {exts : List String} {maxSizeBytes : ℕ} {chainEnabled : Bool}

omit [DecidableEq ι] [Fintype ι] in
/-- What a call raises by itself an endpoint may raise that refuses with its failure. -/
lemma raises_of_mayRaise {o : ApiOp} {e : Exn} (h : mayRaise smooth i o e)
    (ho : ∀ d, storageFailure o = some d → d ∈ refusals endpoint) :
    Raises (smooth i) contested endpoint e := by
  obtain ⟨d, hd, rfl⟩ | ⟨hsmooth, he⟩ := h
  · exact .refused (ho d hd)
  · exact .failed hsmooth he

lemma storageFailure_asks {o : ApiOp} (h : Asks o) : storageFailure o = none := by
  match o with
  | .inr q => rfl
  | .inl o => cases o <;> first | rfl | exact h.elim

lemma storageFailure_database {o : Op} (h : ¬ Storing o) :
    storageFailure (.inl o) = none := by
  cases o <;> first | rfl | exact absurd trivial h

lemma validateMetadata_error {allowed : List String} {filename contentType : Option String}
    {d : DomainError} (h : validateMetadata u allowed filename contentType = .error d) :
    d ∈ invalidUploads := by
  unfold validateMetadata at h
  dsimp only at h
  split_ifs at h <;> obtain rfl := Except.error.inj h <;> simp [invalidUploads]

lemma validateSize_error {v : FileValidator} {size : ℕ} {d : DomainError}
    (h : v.validateSize size = .error d) : d ∈ invalidUploads := by
  unfold FileValidator.validateSize at h
  split_ifs at h <;> obtain rfl := Except.error.inj h <;> simp [invalidUploads]

omit [DecidableEq ι] [Fintype ι] in
/-- The requests to the services end with what their endpoints may raise. -/
lemma covers_request {request : Services.Request} (h : endpoint.request = some request) :
    RequestEnds.Covers (Raises (smooth i) contested endpoint)
      (application u exts maxSizeBytes chainEnabled)
      (fun i o => mayRaise smooth i (.inl o)) i request := by
  cases endpoint with
  | createCase data =>
    obtain rfl := Option.some.inj h
    trivial
  | updateCase caseId data =>
    obtain rfl := Option.some.inj h
    exact ⟨.refused (by simp [refusals]), fun hnull => .null hnull⟩
  | uploadEvidence caseId file sourceType createdBy parentEvidenceId =>
    obtain rfl := Option.some.inj h
    refine ⟨⟨.refused (by simp [refusals]), fun d hd => .refused ?_, fun n d hd => .refused ?_,
      .refused (by simp [refusals])⟩, fun key data contentType e he => ?_, fun key e hno he => ?_⟩
    · simp [refusals, validateMetadata_error hd]
    · simp [refusals, validateSize_error hd]
    · refine raises_of_mayRaise he fun d hd => ?_
      obtain rfl := Option.some.inj hd
      simp [refusals]
    · obtain ⟨d, -, rfl⟩ | ⟨hsmooth, hdomain⟩ := he
      · cases hno
      · exact .failed hsmooth hdomain
  | deleteEvidence caseId evidenceId =>
    obtain rfl := Option.some.inj h
    refine ⟨⟨.refused (by simp [refusals]), .refused (by simp [refusals])⟩, fun key e he => ?_⟩
    refine raises_of_mayRaise he fun d hd => ?_
    obtain rfl := Option.some.inj hd
    simp [refusals]
  | _ => cases h

omit [DecidableEq ι] [Fintype ι] in
/-- So do the requests that look, and those for workflows. -/
lemma covers_endpoint {incoming : ι → Incoming}
    (h : (incoming i).request.parse = some endpoint) :
    Covers (Raises (smooth i) (Contested incoming i) endpoint) (asksFor incoming) i endpoint := by
  cases endpoint with
  | getCase caseId | listEvidence caseId | listAudit caseId | verifyAudit caseId
  | startWorkflow caseId data => exact .refused (by simp [refusals])
  | getWorkflow threadId => exact .refused (List.mem_singleton_self threadNotFound)
  | getEvidence caseId evidenceId =>
    exact ⟨.refused (by simp [refusals]), .refused (by simp [refusals])⟩
  | resumeWorkflow threadId data =>
    have hasks : asksFor incoming i threadId := ⟨data, h⟩
    refine ⟨hasks, .refused List.mem_cons_self, .refused (by simp [refusals]), ?_,
      fun halone name => .race ⟨threadId, hasks, halone⟩⟩
    intro cfg type hpending
    cases cfg with
    | review =>
      obtain rfl := Option.some.inj hpending
      exact .refused (by simp [refusals])
    | evidence =>
      obtain rfl := Option.some.inj hpending
      exact .refused (by simp [refusals])
    | completed | cancelled => cases hpending
  | _ => trivial

end Endpoints

/-- An endpoint returns a payload of its kind. -/
lemma returns_serve (app : App) (endpoint : Endpoint) :
    Returns (Yields (Fits endpoint)) (serve app endpoint) := by
  have hservice : ∀ {α : Type} (p : M α) (f : α → Services.Result),
      (∀ a, Fits endpoint (Payload.ofResult (f a))) → Returns (Yields (Fits endpoint))
        (Except.map Payload.ofResult <$> inner (Database.withSession (f <$> p)) :
          Prog ApiOp ApiAnswer _) := by
    intro α p f h
    have hends : Returns (Yields fun b => Fits endpoint (Payload.ofResult b))
        (Database.withSession (f <$> p)) :=
      returns_bind (returns_emap p h) fun _ hr => returns_bind (returns_any _) fun _ _ => hr
    refine returns_bind (returns_inner hends) fun r hr b hb => ?_
    cases r with
    | ok a => exact Except.ok.inj hb ▸ hr a rfl
    | error e => cases hb
  have hlook : ∀ p : ApiM Payload, Returns (Yields (Fits endpoint)) p.run →
      Returns (Yields (Fits endpoint)) (Api.withSession p) := fun p h =>
    returns_bind h fun r hr => returns_bind (returns_any _) fun _ _ => hr
  cases endpoint with
  | createCase | updateCase => exact hservice _ .case fun c => ⟨c, rfl⟩
  | uploadEvidence => exact hservice _ .evidence fun e => ⟨e, rfl⟩
  | deleteEvidence => exact hservice _ (fun _ => .deleted) fun _ => rfl
  | listCases | getCase | listEvidence | getEvidence | startWorkflow | getWorkflow
  | resumeWorkflow => exact hlook _ (returns_emap _ fun a => ⟨a, rfl⟩)
  | listAudit | verifyAudit =>
    exact hlook _ (returns_ebind _ fun _ => returns_emap _ fun a => ⟨a, rfl⟩)

/-! ### Every run -/

section Runs

variable {smooth : ι → Prop} {incoming : ι → Incoming} {u : Unicode} {exts : List String}
  {maxSizeBytes : ℕ} {chainEnabled : Bool}

/-- The rules of the numbers of cases and those of threads. -/
def rules (smooth : ι → Prop) (incoming : ι → Incoming) (w₀ : World ι) (threads : Threads) :
    Rules ι (Recorded ι (Numbering.Drawn ι)) (Choice × Draw) ApiOp :=
  (outer (Numbering.rules w₀ fun i o => mayRaise smooth i (.inl o)) rows Prod.fst).and
    ((ThreadRules.rules (asksFor incoming) threads (mayRaise smooth)).comap Prod.fst)

/-- An endpoint ends with a payload of its kind or with what it may raise. -/
def Concludes (smooth contested : Prop) (endpoint : Endpoint) (r : Except Exn Payload) : Prop :=
  Yields (Fits endpoint) r ∧ ∀ e, r = .error e → Raises smooth contested endpoint e

lemma triple_concludes {endpoint : Endpoint} (h : (incoming i).request.parse = some endpoint) :
    Triple (recorded hashtext engine Numbering.noteDrawn) (rules smooth incoming w₀ threads) i
      (fun w => Numbering.Idle i (rows w) ∧ Beginning (asksFor incoming) i w.1)
      (serve (application u exts maxSizeBytes chainEnabled) endpoint)
      fun r _ => Concludes (smooth i) (Contested incoming i) endpoint r := by
  have hserved : Triple (recorded hashtext engine Numbering.noteDrawn)
      (outer (Numbering.rules w₀ fun i o => mayRaise smooth i (.inl o)) rows Prod.fst) i
      (fun w => Numbering.Idle i (rows w))
      (serve (application u exts maxSizeBytes chainEnabled) endpoint) fun r w =>
        Served (Raises (smooth i) (Contested incoming i) endpoint) endpoint r (rows w) := by
    refine triple_served (fun o ho e he => raises_of_mayRaise he fun d hd => ?_)
      fun request hrequest => covers_request hrequest
    simp [storageFailure_database ho] at hd
  have hthreads : Triple (recorded hashtext engine Numbering.noteDrawn)
      ((ThreadRules.rules (asksFor incoming) threads (mayRaise smooth)).comap Prod.fst) i
      (fun w => Beginning (asksFor incoming) i w.1)
      (serve (application u exts maxSizeBytes chainEnabled) endpoint) fun r _ =>
        endpoint.request = none →
          ∀ e, r = .error e → Raises (smooth i) (Contested incoming i) endpoint e := by
    refine triple_recording (triple_threads _ (fun o ho e he => raises_of_mayRaise he
      fun d hd => ?_) (covers_endpoint h))
    simp [storageFailure_asks ho] at hd
  refine triple_conseq (triple_returns (hserved.and hthreads) (returns_serve _ endpoint))
    (fun _ _ h => h) fun r w _ ⟨hyields, hs, ht⟩ => ⟨hyields, fun e he => ?_⟩
  cases hrequest : endpoint.request with
  | none => exact ht hrequest e he
  | some request => exact (hs (by simp [hrequest])).1 e he

omit [DecidableEq ι] [Fintype ι] in
lemma conforms_unexpected {requestId : String} {e : Exn} (hsmooth : ¬ smooth i) :
    Conforms (smooth i) (Contested incoming i) (incoming i) (unexpected requestId e) := by
  unfold unexpected
  split_ifs
  · exact .broken (.inl hsmooth)
  · exact .unanswered hsmooth

omit [DecidableEq ι] [Fintype ι] in
lemma conforms_conclude {endpoint : Endpoint} {requestId : String} {r : Except Exn Payload}
    (hid : ∀ id ∈ (incoming i).requestId, requestId = id)
    (hparse : (incoming i).request.parse = some endpoint)
    (h : Concludes (smooth i) (Contested incoming i) endpoint r) :
    Conforms (smooth i) (Contested incoming i) (incoming i) (conclude endpoint requestId r) := by
  obtain ⟨hfits, hraises⟩ := h
  cases r with
  | ok p => exact .ok hid hparse (hfits p rfl)
  | error e =>
    cases hraises e rfl with
    | refused hd => exact .refused hid hparse hd
    | null hnull => exact .broken (.inr (.inr ⟨endpoint, hparse, hnull⟩))
    | race hrace => exact .broken (.inr (.inl hrace))
    | failed hsmooth hdomain =>
      cases e with
      | domain d => exact absurd rfl (hdomain d)
      | _ => exact conforms_unexpected hsmooth

/-- **The contract**: in every run of the interface, however requests interleave, a request is
answered by 422 if it is not valid, by the status of its endpoint with a payload of its kind,
or by one of the refusals of its endpoint; a request that names itself finds its name in the
response. An internal error needs a call that raises what it should not, an update that sets
what must not be null, or another request to resume the same thread. -/
theorem responses_conform (smooth : ι → Prop) (incoming : ι → Incoming) (u : Unicode)
    (exts : List String) (maxSizeBytes : ℕ) (chainEnabled : Bool) (h₀ : Numbered w₀)
    (hthreads : Begun w₀ threads)
    {σ : Conf ι (World ι × Threads) ApiOp ApiAnswer (Option Response)}
    (hσ : Reach (server hashtext engine) (fun _ => Policy (mayRaise smooth))
      ⟨(w₀, threads), fun i => respond (application u exts maxSizeBytes chainEnabled)
        (incoming i)⟩ σ) {i : ι} {response : Option Response}
    (hi : σ.prog i = .ret response) :
    Conforms (smooth i) (Contested incoming i) (incoming i) response := by
  obtain ⟨g, hrun⟩ := reach_recording (noteWithin Numbering.noteDrawn) (fun _ => none) hσ
  have hbegin : (rules smooth incoming w₀ threads).inv ((w₀, threads), fun _ => none) :=
    ⟨h₀.inv, hthreads.inv⟩
  have hsafe : ∀ i, Safe (recorded hashtext engine Numbering.noteDrawn)
      (rules smooth incoming w₀ threads) i
      (fun response _ => Conforms (smooth i) (Contested incoming i) (incoming i) response)
      (respond (application u exts maxSizeBytes chainEnabled) (incoming i))
      ((w₀, threads), fun _ => none) := fun i => by
    have hidle : (w₀.txn i).cases = [] := by simp [h₀.txn i]
    refine triple_respond
      (P := fun w => Numbering.Idle i (rows w) ∧ Beginning (asksFor incoming) i w.1)
      (D := fun r w => Numbering.Idle i (rows w) ∧
        (∀ e, r = .error e → mayRaise smooth i (.inl .uuid4) e) ∧
          Beginning (asksFor incoming) i w.1)
      (Q := fun endpoint r _ => Concludes (smooth i) (Contested incoming i) endpoint r)
      ((triple_asks (extends_recorded Numbering.noteDrawn) RequestEnds.stable_idle triple_looks
        (.inl .uuid4) trivial).and (triple_recording triple_draw))
      (fun _ endpoint hparse => triple_conseq (triple_concludes hparse)
        (fun _ _ h => ⟨h.1, h.2.2⟩) fun _ _ _ h => h) (fun e w _ h => ?_) (fun _ _ hid _ hparse =>
        .invalid hid hparse) (fun _ _ _ _ hid _ hparse h => conforms_conclude hid hparse h) _
      hbegin ⟨hidle, hthreads.beginning _ hidle⟩
    obtain ⟨d, hd, -⟩ | ⟨hsmooth, -⟩ := h.2.1 e rfl
    · cases hd
    · exact conforms_unexpected hsmooth
  have hpolicy : Reach (recorded hashtext engine Numbering.noteDrawn)
      (rules smooth incoming w₀ threads).policy
      ⟨((w₀, threads), fun _ => none), fun i => respond
        (application u exts maxSizeBytes chainEnabled) (incoming i)⟩ ⟨(σ.world, g), σ.prog⟩ := by
    refine hrun.mono fun w i o c h => ⟨fun o' ho e hf => ?_, h⟩
    subst ho
    exact h e hf
  obtain ⟨-, hends⟩ := safe_reach (fun _ _ => stable_const) hbegin hsafe hpolicy
  exact post_of_safe (σ := ⟨(σ.world, g), σ.prog⟩) hends hi

section Example

open WhaleMas.AuditReports

/-- The status of a response. -/
def statusOf : Prog ApiOp ApiAnswer (Option Response) → Option ℕ
  | .ret (some r) => some r.statusCode
  | _ => none

def textApplication : App := application ascii defaultExtensions 1000 true

lemma createStartApprove_ends : (run (server (fun _ => 0) langGraph)
    (createStartApproveApp textApplication) (quietCalls 0 0 12 ++ quietCalls 1 100 7 ++
      quietCalls 2 200 6)).map (fun σ => statusOf (σ.prog 2)) = some (some 200) := by
  decide

omit [DecidableEq ι] [Fintype ι] in
lemma fault_of_mem_quietCalls {first n : ℕ} {s : ι × Choice × Draw}
    (h : s ∈ quietCalls i first n) : s.2.1.fault = .none := by
  simp only [quietCalls, SessionRuns.calls, List.map_map, List.mem_map] at h
  obtain ⟨k, -, rfl⟩ := h
  rfl

theorem responses_conform_createStartApprove : ∃ σ response,
    run (server (fun _ => 0) langGraph) (createStartApproveApp textApplication)
      (quietCalls 0 0 12 ++ quietCalls 1 100 7 ++ quietCalls 2 200 6) = some σ ∧
    σ.prog 2 = .ret (some response) ∧ response.statusCode = 200 ∧
    Conforms True (Contested createStartApprove 2) (createStartApprove 2) (some response) := by
  obtain ⟨σ, hσ, hstatus⟩ := Option.map_eq_some_iff.mp createStartApprove_ends
  cases hi : σ.prog 2 with
  | op o k => simp [hi, statusOf] at hstatus
  | ret r =>
    cases r with
    | none => simp [hi, statusOf] at hstatus
    | some response =>
      rw [hi] at hstatus
      refine ⟨σ, response, hσ, hi, Option.some.inj hstatus, ?_⟩
      refine responses_conform (fun _ => True) createStartApprove ascii defaultExtensions 1000 true
        numbered_empty begun_none (reach_of_run .refl (fun s hs _ _ e he => ?_) hσ) hi
      have hquiet : s.2.1.fault = .none := by
        simp only [List.mem_append] at hs
        rcases hs with (hs | hs) | hs <;> exact fault_of_mem_quietCalls hs
      simp [hquiet] at he

end Example

end Runs

end WhaleMas.Contract
