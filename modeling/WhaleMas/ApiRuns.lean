import WhaleMas.Api

/-!
What runs of the HTTP interface are made of.

A request that changes something is made of appends to audit logs and of other calls, one after
the other; every other request calls nothing that changes the database. So a property of
programs that is closed under sequences holds of all requests when it holds of these.
-/

namespace WhaleMas.ApiRuns

open WhaleMas.Models WhaleMas.AuditLog WhaleMas.Program WhaleMas.RelyGuarantee
open WhaleMas.Beside WhaleMas.Database WhaleMas.Services WhaleMas.CaseGraph
open WhaleMas.WorkflowService WhaleMas.Api

/-! ### Requests that change something -/

/-- The calls that a request makes itself, and not in an append. -/
def Direct : Op → Prop
  | .lockCaseChain _ | .latest _ | .appendEvent _ => False
  | _ => True

/-- The property holds of sequences of programs it holds of, and of direct calls. -/
structure Closed (Φ : {α : Type} → Prog Op Answer α → Prop) : Prop where
  ret : ∀ {α : Type} (a : α), Φ (.ret a)
  bind : ∀ {α β : Type} (p : Prog Op Answer α) (f : α → Prog Op Answer β),
    Φ p → (∀ a, Φ (f a)) → Φ (p >>= f)
  direct : ∀ o, Direct o → Φ (.call o)

namespace Closed

variable {Φ : {α : Type} → Prog Op Answer α → Prop} (h : Closed Φ) {α β ε : Type}

include h

lemma ebind {p : ExceptT ε (Prog Op Answer) α} {f : α → ExceptT ε (Prog Op Answer) β}
    (hp : Φ p.run) (hf : ∀ a, Φ (f a).run) : Φ (p >>= f).run := by
  refine h.bind _ _ hp fun r => ?_
  cases r with
  | ok a => exact hf a
  | error e => exact h.ret _

lemma etryCatch {p : ExceptT ε (Prog Op Answer) α} {handler : ε → ExceptT ε (Prog Op Answer) α}
    (hp : Φ p.run) (hh : ∀ e, Φ (handler e).run) : Φ (tryCatch p handler).run := by
  refine h.bind _ _ hp fun r => ?_
  cases r with
  | ok a => exact h.ret _
  | error e => exact hh e

lemma ewithin {l : Locals} {p : M α} (hp : Φ p.run) : Φ (within l p).run :=
  h.bind _ _ hp fun r => by cases r <;> exact h.ret _

lemma eofExcept (r : Except DomainError α) : Φ (ofExcept r).run := by
  cases r <;> exact h.ret _

/-- A check that may raise, before the rest. -/
lemma eguard {c : Prop} [Decidable c] {e : Exn} {p : M α} (hp : Φ p.run) :
    Φ (if c then (throw e : M Unit) >>= fun _ => p else p : M α).run := by
  split_ifs
  · exact h.ebind (h.ret _) fun _ => hp
  · exact hp

lemma efinally {p : M α} {q : M Unit} (hp : Φ p.run) (hq : Φ q.run) :
    Φ (withFinally p q).run :=
  h.bind _ _ hp fun _ => h.bind _ _ hq fun r => by cases r <;> exact h.ret _

lemma requireCase (caseId : Uuid) : Φ (Services.requireCase caseId).run :=
  h.ebind (h.direct (.getCase caseId) trivial) fun c => by cases c <;> exact h.ret _

lemma getCase (self : CaseService) (caseId : Uuid) : Φ (self.getCase caseId).run :=
  h.ebind (h.direct (.getCase caseId) trivial) fun c => by cases c <;> exact h.ret _

lemma getEvidence (self : EvidenceService) (caseId evidenceId : Uuid) :
    Φ (self.getEvidence caseId evidenceId).run := by
  refine h.ebind (h.requireCase caseId) fun _ => ?_
  refine h.ebind (h.direct (.getEvidence caseId evidenceId) trivial) fun r => ?_
  cases r <;> exact h.ret _

lemma createCase {self : CaseService} (append : ∀ a, Φ (self.auditService.append a).run)
    (data : CaseCreate) : Φ (self.createCase data).run := by
  refine h.ebind (h.direct .nextSequenceValue trivial) fun (sequence : ℕ) => ?_
  refine h.ebind (h.direct .now trivial) fun current => ?_
  refine h.eguard ?_
  refine h.ebind (h.direct .uuid4 trivial) fun id => ?_
  refine h.ebind (h.direct (.createCase _) trivial) fun case => ?_
  refine h.ebind (append _) fun _ => ?_
  exact h.ebind (h.direct .commit trivial) fun _ => h.ret _

lemma updateCase {self : CaseService} (append : ∀ a, Φ (self.auditService.append a).run)
    (caseId : Uuid) (data : CaseUpdate) : Φ (self.updateCase caseId data).run := by
  refine h.ebind (h.getCase self caseId) fun case => ?_
  have hflush : Φ (flushCase case data).run :=
    h.ebind (h.direct (.flushCase case data) trivial)
      fun (_ : Unit) => h.direct (.refreshCase case.id) trivial
  refine h.ebind hflush fun (row : Case) => ?_
  refine h.ebind (append _) fun _ => ?_
  exact h.ebind (h.direct .commit trivial) fun _ => h.ret _

lemma readUpload (v : FileValidator) (chunks : List (List UInt8)) (size : ℕ)
    (content : List UInt8) : Φ (Services.readUpload v chunks size content).run := by
  induction chunks generalizing size content with
  | nil => exact h.ebind (h.direct (.localCall .readUpload) trivial) fun _ => h.ret _
  | cons chunk chunks ih =>
    have hrest : Φ (do
        call (.localCall (.writeTemp chunk))
        Services.readUpload v chunks (size + chunk.length) (content ++ chunk) : M _).run :=
      h.ebind (h.direct (.localCall (.writeTemp chunk)) trivial) fun _ => ih _ _
    refine h.ebind (h.direct (.localCall .readUpload) trivial) fun _ => ?_
    by_cases hlarge : v.maxSizeBytes < size + chunk.length
    · simp only [hlarge, if_true]
      exact h.ebind (h.eofExcept _) fun _ => hrest
    · simp only [hlarge, if_false]
      exact hrest

variable {self : EvidenceService} (append : ∀ a, Φ (self.auditService.append a).run)

include append

lemma deleteEvidence (caseId evidenceId : Uuid) :
    Φ (self.deleteEvidence caseId evidenceId).run := by
  refine h.ebind (h.getEvidence self caseId evidenceId) fun e => ?_
  refine h.ebind (h.direct (.deleteObject e.objectKey) trivial) fun _ => ?_
  refine h.ebind (h.direct (.deleteEvidence e.id) trivial) fun _ => ?_
  exact h.ebind (append _) fun _ => h.direct .commit trivial

lemma receiveUpload (caseId evidenceId : Uuid) (upload : UploadFile)
    (createdBy : Option String) :
    Φ (Services.receiveUpload self caseId evidenceId upload createdBy).run := by
  refine h.ebind (h.readUpload _ _ _ _) fun ⟨size, content⟩ => ?_
  refine h.ebind (h.direct (.localCall .closeTemp) trivial) fun _ => ?_
  refine h.ebind (h.eofExcept _) fun _ => ?_
  refine h.ebind (h.direct (.localCall .hashFile) trivial) fun _ => ?_
  refine h.ebind (h.direct (.getByHash caseId _) trivial) fun (r : Option Evidence) => ?_
  refine h.eguard ?_
  refine h.ebind (append _) fun _ => ?_
  exact h.ebind (h.direct .commit trivial) fun _ => h.ret _

lemma recordUpload (caseId evidenceId : Uuid) (objectKey digest : String)
    (row : Datetime → Evidence) (createdBy : Option String) :
    Φ (Services.recordUpload self caseId evidenceId objectKey digest row createdBy).run := by
  refine h.ebind (h.direct (.createEvidence row) trivial) fun (r : Evidence) => ?_
  refine h.ebind (append _) fun _ => ?_
  refine h.ebind (append _) fun _ => ?_
  exact h.ebind (h.direct .commit trivial) fun _ => h.ret _

/-- The handlers of an upload undo it, or hand the exception on. -/
lemma handleUpload (caseId evidenceId : Uuid) (createdBy : Option String)
    (outcome : Except (Exn × Locals) Evidence) :
    Φ (Services.handleUpload self caseId evidenceId createdBy outcome).run := by
  have hcompensate : ∀ objectKey stored, Φ (compensateStorage objectKey stored).run := by
    intro objectKey stored
    match objectKey, stored with
    | none, _ | some _, false => exact h.ret _
    | some key, true =>
      refine h.etryCatch (h.direct (.deleteObject key) trivial) fun e => ?_
      split_ifs <;> exact h.ret _
  have hrecord : ∀ reason, Φ (recordFailure self caseId evidenceId createdBy reason).run := by
    intro reason
    refine h.etryCatch (h.ebind (append _) fun _ => h.direct .commit trivial) fun e => ?_
    split_ifs
    · exact h.direct .rollback trivial
    · exact h.ret _
  have hundo : ∀ (l : Locals) (reason : String) (y : Exn), Φ (do
      call .rollback
      compensateStorage l.objectKey l.stored
      recordFailure self caseId evidenceId createdBy reason
      throw y : M Evidence).run := by
    intro l reason y
    refine h.ebind (h.direct .rollback trivial) fun _ => ?_
    refine h.ebind (hcompensate _ _) fun _ => ?_
    exact h.ebind (hrecord _) fun _ => h.ret _
  match outcome with
  | .ok r => exact h.ret _
  | .error (x, l) =>
    dsimp only [Services.handleUpload]
    split_ifs
    · exact hundo l _ _
    · exact hundo l _ _
    · exact h.ret _

lemma uploadEvidence (caseId : Uuid) (upload : UploadFile) (sourceType : EvidenceSourceType)
    (createdBy : Option String) (parentEvidenceId : Option Uuid) :
    Φ (self.uploadEvidence caseId upload sourceType createdBy parentEvidenceId).run := by
  refine h.ebind (h.requireCase caseId) fun _ => ?_
  refine h.ebind (h.eofExcept _) fun ⟨cleanedName, extension⟩ => ?_
  refine h.ebind (h.direct .uuid4 trivial) fun (evidenceId : Uuid) => ?_
  refine h.ebind (append _) fun _ => ?_
  refine h.ebind (h.direct .commit trivial) fun _ => ?_
  refine h.ebind (h.bind _ _ ?_ fun _ => h.ret _) fun outcome => ?_
  · refine h.ebind (h.ewithin (h.direct (.localCall .openTemp) trivial)) fun _ => ?_
    refine h.ebind (h.ewithin (h.receiveUpload append caseId evidenceId upload createdBy))
      fun ⟨size, content, digest⟩ => ?_
    refine h.ebind (h.ewithin (h.direct (.putObject _ _ _) trivial)) fun _ => ?_
    exact h.ewithin (h.recordUpload append _ _ _ _ _ _)
  · refine h.efinally (h.handleUpload append caseId evidenceId createdBy outcome) ?_
    refine h.ebind (h.direct (.localCall .closeUpload) trivial) fun _ => ?_
    split_ifs
    · exact h.direct (.localCall .unlinkTemp) trivial
    · exact h.ret _

omit append

/-- **A request is made of appends and of direct calls.** -/
theorem handle {app : App} (case_append : ∀ a, Φ (app.caseService.auditService.append a).run)
    (evidence_append : ∀ a, Φ (app.evidenceService.auditService.append a).run)
    (request : Services.Request) : Φ (app.handle request) := by
  have hsession : ∀ {α : Type} {p : M α} {f : α → Services.Result}, Φ p.run →
      Φ (Database.withSession (f <$> p)) := by
    intro α p f hp
    refine h.bind _ _ (h.bind _ _ hp fun r => ?_) fun _ =>
      h.bind _ _ (h.direct .close trivial) fun _ => h.ret _
    cases r <;> exact h.ret _
  cases request with
  | upload caseId upload sourceType createdBy parentEvidenceId =>
    exact hsession (h.uploadEvidence evidence_append _ _ _ _ _)
  | delete caseId evidenceId => exact hsession (h.deleteEvidence evidence_append _ _)
  | createCase data => exact hsession (h.createCase case_append data)
  | updateCase caseId data => exact hsession (h.updateCase case_append _ _)

end Closed

/-! ### Requests that read, and those of the workflows -/

/-- The calls that leave rows, logs and objects as they are. -/
def Looks : Op → Prop
  | .getCase _ | .getEvidence _ _ | .uuid4 | .now | .close => True
  | _ => False

def Asks : ApiOp → Prop := Sum.elim Looks fun _ => True

lemma lift_bind {α β : Type} (p : M α) (f : α → M β) :
    lift (p >>= f) = lift p >>= fun a => lift (f a) := by
  refine (inner_bind p.run _).trans (congrArg (inner p.run >>= ·) (funext fun r => ?_))
  cases r <;> rfl

lemma calls_lift {α : Type} {p : M α} (hp : Calls Looks p.run) : Calls Asks (lift p).run :=
  calls_inner hp fun _ h => h

lemma calls_ask (q : Query) : Calls Asks (ask q).run :=
  calls_call (S := Asks) (o := Sum.inr q) trivial

lemma calls_emap {α β : Type} {p : ApiM α} {f : α → β} (hp : Calls Asks p.run) :
    Calls Asks (f <$> p).run :=
  calls_ebind hp fun _ => trivial

/-- A check that may raise, before the rest. -/
lemma calls_eguard {α : Type} {c : Prop} [Decidable c] {e : Exn} {p : ApiM α}
    (hp : Calls Asks p.run) :
    Calls Asks (if c then (throw e : ApiM Unit) >>= fun _ => p else p : ApiM α).run := by
  split_ifs
  · trivial
  · exact hp

lemma calls_ofService {α : Type} (r : Except ServiceError α) : Calls Asks (ofService r).run := by
  match r with
  | .ok a | .error (.domain e) | .error (.keyError key) | .error (.graph e) => trivial

lemma calls_snapshotResponse (threadId : Uuid) (snapshot : Option Thread) :
    Calls Asks (snapshotResponse threadId snapshot).run := by
  cases snapshot with
  | none => trivial
  | some snapshot => exact calls_ofService _

lemma calls_requireCase (caseId : Uuid) : Calls Looks (requireCase caseId).run :=
  calls_ebind (p := call (.getCase caseId)) (calls_call trivial) fun c => by cases c <;> trivial

lemma calls_getCase (app : App) (caseId : Uuid) : Calls Asks (getCase app caseId).run :=
  calls_lift (calls_ebind (p := call (.getCase caseId)) (calls_call trivial)
    fun c => by cases c <;> trivial)

lemma calls_getEvidence (self : EvidenceService) (caseId evidenceId : Uuid) :
    Calls Looks (self.getEvidence caseId evidenceId).run := by
  refine calls_ebind (calls_requireCase caseId) fun _ => ?_
  refine calls_ebind (p := call (.getEvidence caseId evidenceId)) (calls_call trivial) fun r => ?_
  cases r <;> trivial

lemma calls_startWorkflow (caseId : Uuid) (data : WorkflowStart) :
    Calls Asks (startWorkflow caseId data).run := by
  refine calls_ebind (calls_lift (p := call (.getCase caseId)) (calls_call trivial)) fun c => ?_
  cases c with
  | none => trivial
  | some case =>
    refine calls_ebind (calls_ask _) fun evidence => ?_
    refine calls_ebind (calls_lift (p := call .uuid4) (calls_call trivial)) fun threadId => ?_
    refine calls_ebind (calls_ask _) fun _ => ?_
    exact calls_ebind (calls_ask _) fun snapshot => calls_snapshotResponse _ _

lemma calls_getWorkflow (threadId : Uuid) : Calls Asks (getWorkflow threadId).run := by
  refine calls_ebind (calls_ask _) fun snapshot => ?_
  cases snapshot with
  | none => trivial
  | some snapshot => exact calls_snapshotResponse _ _

lemma calls_resumeWorkflow (threadId : Uuid) (data : WorkflowResume) :
    Calls Asks (resumeWorkflow threadId data).run := by
  refine calls_ebind (calls_ask _) fun snapshot => ?_
  cases snapshot with
  | none => trivial
  | some snapshot =>
    cases hinterrupt : snapshot.interrupt with
    | none => simp only [hinterrupt]; trivial
    | some v =>
      simp only [hinterrupt]
      refine calls_eguard ?_
      refine calls_ebind (calls_lift (p := call .now) (calls_call trivial)) fun now => ?_
      have hhand : ∀ d : Decision, Calls Asks (do
          ask (.resume threadId d)
          snapshotResponse threadId (← ask (.getState threadId)) : ApiM _).run := fun d =>
        calls_ebind (calls_ask _) fun _ => calls_ebind (calls_ask _) fun _ =>
          calls_snapshotResponse _ _
      split_ifs
      · refine calls_ebind (calls_ofService _) fun caseId => ?_
        exact calls_ebind (calls_ask _) fun evidence => hhand _
      · exact hhand _

/-- An endpoint that hands no request to the services changes no row. -/
lemma calls_look (app : App) (endpoint : Endpoint) (h : endpoint.request = none) :
    Calls Asks (Api.withSession (look app endpoint)) := by
  have hlook : Calls Asks (look app endpoint).run := by
    cases endpoint with
    | createCase | updateCase | uploadEvidence | deleteEvidence => trivial
    | listCases offset limit => exact calls_emap (calls_ask _)
    | getCase caseId => exact calls_emap (calls_getCase app caseId)
    | listEvidence caseId =>
      exact calls_emap (calls_ebind (calls_lift (calls_requireCase caseId)) fun _ => calls_ask _)
    | getEvidence caseId evidenceId =>
      exact calls_emap (calls_lift (calls_getEvidence app.evidenceService caseId evidenceId))
    | listAudit caseId =>
      exact calls_ebind (calls_getCase app caseId) fun _ => calls_emap (calls_ask _)
    | verifyAudit caseId =>
      exact calls_ebind (calls_getCase app caseId) fun _ =>
        calls_emap (calls_ebind (calls_ask _) fun _ => trivial)
    | startWorkflow caseId data => exact calls_emap (calls_startWorkflow caseId data)
    | getWorkflow threadId => exact calls_emap (calls_getWorkflow threadId)
    | resumeWorkflow threadId data => exact calls_emap (calls_resumeWorkflow threadId data)
  exact calls_bind hlook fun _ => calls_bind (calls_call trivial) fun _ => trivial

/-! ### Rules for requests -/

section Rules

variable {ι W C : Type} {N : Machine ι W C ApiOp ApiAnswer} {R : Rules ι W C ApiOp} {i : ι}
  {app : App} {incoming : Incoming} {P : W → Prop}

/-- A request ends as its endpoint does, if it has one. -/
lemma triple_respond {D : Answer .uuid4 → W → Prop} {Q : Endpoint → Except Exn Payload → W → Prop}
    {Q' : Option Response → W → Prop}
    (hdraw : Triple N R i P (.call (.inl .uuid4)) D)
    (hserve : ∀ u endpoint, incoming.request.parse = some endpoint →
      Triple N R i (D (.ok u)) (serve app endpoint) (Q endpoint))
    (hraise : ∀ e w, R.inv w → D (.error e) w → Q' (unexpected "unknown" e) w)
    (hinvalid : ∀ requestId w, (∀ id ∈ incoming.requestId, requestId = id) → R.inv w →
      incoming.request.parse = none →
      Q' (some { validationErrorHandler requestId with requestId := some requestId }) w)
    (hconclude : ∀ endpoint requestId r w, (∀ id ∈ incoming.requestId, requestId = id) →
      R.inv w → incoming.request.parse = some endpoint → Q endpoint r w →
      Q' (conclude endpoint requestId r) w) :
    Triple N R i P (respond app incoming) Q' := by
  refine triple_bind hdraw fun r => ?_
  match r with
  | .error e => exact triple_ret fun w hw hD => hraise e w hw hD
  | .ok u =>
    have hid : ∀ id ∈ incoming.requestId, incoming.requestId.getD u.str = id := by
      intro id h
      rw [Option.mem_def.mp h]
      rfl
    cases hparse : incoming.request.parse with
    | none => exact triple_ret fun w hw _ => hinvalid _ w hid hw hparse
    | some endpoint =>
      refine triple_bind (hserve u endpoint hparse) fun r => ?_
      exact triple_ret fun w hw hQ => hconclude endpoint _ r w hid hw hparse hQ

/-- A request handed to the services ends as they end it. -/
lemma triple_serve_request {endpoint : Endpoint} {request : Services.Request}
    (h : endpoint.request = some request) {Q : Except Exn Payload → W → Prop}
    (hhandle : Triple N R i P (inner (app.handle request))
      fun r => Q (Except.map Payload.ofResult r)) :
    Triple N R i P (serve app endpoint) Q := by
  unfold serve
  simp only [h]
  exact triple_bind hhandle fun r => triple_ret fun _ _ hQ => hQ

/-- Any other request looks. -/
lemma triple_serve_look {endpoint : Endpoint} (h : endpoint.request = none)
    {Q : Except Exn Payload → W → Prop}
    (hlook : Triple N R i P (Api.withSession (look app endpoint)) Q) :
    Triple N R i P (serve app endpoint) Q := by
  unfold serve
  simp only [h]
  exact hlook

end Rules

section Extends

variable {ι V D W C : Type} {M : Machine ι V D Op Answer} {N : Machine ι W C ApiOp ApiAnswer}
  {shown : W → V} {drawn : C → D} {R : Rules ι V D Op} {i : ι} {app : App} {P : V → Prop}

/-- What the services call within an endpoint does what it does on its own. -/
lemma triple_within_services (hext : Extends M N shown drawn) {α : Type} {p : Database.M α}
    {Q : α → V → Prop} {F : Exn → V → Prop} (h : ETriple M R i P p Q F) :
    ETriple N (outer R shown drawn) i (fun w => P (shown w)) (lift p)
      (fun a w => Q a (shown w)) fun e w => F e (shown w) := by
  refine triple_conseq (triple_inner hext h) (fun _ _ h => h) fun r w _ h => ?_
  cases r <;> exact h

/-- What the looking calls keep is kept by all queries. -/
lemma triple_asks (hext : Extends M N shown drawn) (hstable : Stable R i P)
    (hlooks : ∀ o, Looks o → Triple M R i P (.call o) fun _ => P) (o : ApiOp)
    (ho : Asks o) : Triple N (outer R shown drawn) i (fun w => P (shown w)) (.call o)
      fun _ w => P (shown w) := by
  cases o with
  | inl o => exact triple_inner hext (hlooks o ho)
  | inr q =>
    refine triple_beside hext (stable_outer hstable) fun w c r v _ hP hp => ?_
    rwa [hext.beside q i c w r v hp]

/-- What the looking calls and the requests to the services keep is kept by all requests. -/
lemma triple_serve (hext : Extends M N shown drawn) (hstable : Stable R i P)
    (hlooks : ∀ o, Looks o → Triple M R i P (.call o) fun _ => P)
    (hhandle : ∀ request, Triple M R i P (app.handle request) fun _ => P)
    (endpoint : Endpoint) :
    Triple N (outer R shown drawn) i (fun w => P (shown w)) (serve app endpoint)
      fun _ w => P (shown w) := by
  cases h : endpoint.request with
  | none =>
    exact triple_serve_look h (triple_of_calls (calls_look app endpoint h)
      (triple_asks hext hstable hlooks))
  | some request => exact triple_serve_request h (triple_inner hext (hhandle request))

end Extends

/-! ### Runs -/

section Runs

variable {ι : Type} [DecidableEq ι] [Fintype ι] {hashtext : String → ℤ} {engine : Engine}
  {i : ι}

/-- The server as a run begins. -/
def atStart (app : App) (incoming : ι → Incoming) (w₀ : World ι) (threads : Threads) :
    Conf ι (World ι × Threads) ApiOp ApiAnswer (Option Response) :=
  ⟨(w₀, threads), fun i => respond app (incoming i)⟩

/-- A run in which session `i` calls nothing leaves its request and its transaction alone. -/
lemma untouched {σ₀ σ : Conf ι (World ι × Threads) ApiOp ApiAnswer (Option Response)}
    {policy : ι → ApiOp → Choice × Draw → Prop} (hpolicy : ∀ o c, ¬ policy i o c)
    (h : Reach (server hashtext engine) (fun _ => policy) σ₀ σ) :
    σ.prog i = σ₀.prog i ∧ σ.world.1.txn i = σ₀.world.1.txn i := by
  induction h with
  | refl => exact ⟨rfl, rfl⟩
  | @step σ j o k c a v _ hj hc hp ih =>
    obtain ⟨hprog, htxn⟩ := ih
    have hij : i ≠ j := by
      rintro rfl
      exact hpolicy o c hc
    refine ⟨by simp [Function.update_of_ne hij, hprog], ?_⟩
    have hext : Extends (machine (ι := ι) hashtext) (server hashtext engine) Prod.fst Prod.fst :=
      extends_beside _ _
    cases o with
    | inl o =>
      exact ((perform_effect (hext.within o j c σ.world a v hp)).others hij).trans htxn
    | inr q => rw [← htxn, ← hext.beside q j c σ.world a v hp]

end Runs

/-! ### Records -/

section Records

variable {ι G : Type}

/-- A world with its threads and a record. -/
abbrev Recorded (ι G : Type) : Type := (World ι × Threads) × G

/-- The rows and the record. -/
def rows (w : Recorded ι G) : World ι × G := (w.1.1, w.2)

/-- The server, with a record of the calls of the services. -/
def recorded [DecidableEq ι] [Fintype ι] (hashtext : String → ℤ) (engine : Engine)
    (note : ι → (o : Op) → Answer o → G → G) :
    Machine ι (Recorded ι G) (Choice × Draw) ApiOp ApiAnswer :=
  recording (server hashtext engine) (noteWithin note)

lemma extends_recorded [DecidableEq ι] [Fintype ι] {hashtext : String → ℤ}
    {engine : Engine} (note : ι → (o : Op) → Answer o → G → G) :
    Extends (recording (machine hashtext) note) (recorded hashtext engine note) rows Prod.fst :=
  extends_recording (extends_beside _ _) note

end Records

end WhaleMas.ApiRuns
