import WhaleMas.ApiRuns
import WhaleMas.ConcurrentAppend
import WhaleMas.Plays
import WhaleMas.SessionRuns

/-!
What the interface reports about audit logs. Every request that changes something keeps the
logs chained, whatever calls fail, and what is answered to a request for the log of a case, or
for its verification, is about the log as it was committed when the request read it.
-/

namespace WhaleMas.AuditReports

open WhaleMas.Models WhaleMas.HashChain WhaleMas.AuditLog WhaleMas.AuditOrder WhaleMas.Program
open WhaleMas.RelyGuarantee WhaleMas.Beside WhaleMas.Plays WhaleMas.Database WhaleMas.Services
open WhaleMas.WorkflowService WhaleMas.ConcurrentAppend WhaleMas.Api WhaleMas.ApiRuns

variable {ι : Type} {hashtext : String → ℤ} {i : ι} {w v : World ι}

/-! ### Where runs begin -/

/-- No session has begun, and the logs were grown one by one. -/
structure Resting (w : World ι) : Prop where
  txn : ∀ i, w.txn i = {}
  grows : Grows w.appended w.audit
  nodup : (w.appended.map AuditEvent.id).Nodup
  issued : ∀ e ∈ w.appended, w.owner e.id ≠ .fresh

lemma Resting.inv (h : Resting w) : Inv hashtext w where
  exclusive := fun i j _ k hk => by simp [h.txn] at hk
  locked := fun i e he => by simp [h.txn] at he
  committed := h.grows
  pending := fun i => by simpa [World.auditFor, h.txn] using h.grows
  nodup := h.nodup
  issued := h.issued

lemma resting_empty : Resting (World.empty : World ι) where
  txn := fun _ => rfl
  grows := ⟨fun _ => by simp [World.empty, ofCase, grown_nil], by simp [World.empty, ofCase]⟩
  nodup := by simp [World.empty]
  issued := by simp [World.empty]

/-! ### Requests keep the chain -/

/-- The session has no events that are not committed. -/
def Clear (i : ι) (w : World ι) : Prop := (w.txn i).events = []

variable [DecidableEq ι]

/-- A session changes its rows only. -/
lemma keeps_rows {t : Txn} (h : Inv hashtext w) (hl : t.locks = (w.txn i).locks)
    (he : t.events = (w.txn i).events) : Inv hashtext (w.setTxn i t) := by
  refine h.setTxn (fun k hk j hj => ?_) (fun e hmem => ?_) ?_
  · rw [hl] at hk
    exact h.exclusive i j hj.symm k hk
  · rw [he] at hmem
    rw [hl]
    exact h.locked i e hmem
  · rw [he]
    exact h.pending i

/-- A call outside an append keeps the chain. -/
lemma effect_direct {o : Op} {c : Choice} (ho : Direct o) (hw : Inv hashtext w)
    (h : Effect i c w o v) : Inv hashtext v ∧ ∀ j, j ≠ i → Rely hashtext j w v := by
  have hsame : Inv hashtext v → v.txn = w.txn → v.audit = w.audit → v.owner = w.owner →
      v.appended = w.appended → Inv hashtext v ∧ ∀ j, j ≠ i → Rely hashtext j w v := by
    intro hv htxn haudit howner happended
    refine ⟨hv, fun j _ => ⟨by rw [htxn], fun _ _ => by rw [haudit], fun u hu => ?_,
      fun u _ hn => by rwa [happended]⟩⟩
    rwa [howner]
  cases h with
  | nothing => exact ⟨hw, fun j _ => (rules hashtext).refl j _⟩
  | nextSequenceValue =>
    exact hsame ⟨hw.exclusive, hw.locked, hw.committed, hw.pending, hw.nodup, hw.issued⟩
      rfl rfl rfl rfl
  | putObject | deleteObject =>
    exact hsame ⟨hw.exclusive, hw.locked, hw.committed, hw.pending, hw.nodup, hw.issued⟩
      rfl rfl rfl rfl
  | createCase | flushCase | createEvidence | deleteEvidence =>
    exact ⟨keeps_rows hw rfl rfl, fun j hj => rely_setTxn hj⟩
  | commit => exact ⟨hw.commit, fun j hj => rely_commit hw hj⟩
  | rollback | close => exact ⟨hw.clear, fun j hj => rely_setTxn hj⟩
  | uuid4 hfresh => exact ⟨hw.draw hfresh, fun j _ => rely_draw hfresh⟩
  | lockCaseChain | appendEvent => exact ho.elim

variable [Fintype ι]

lemma triple_direct {o : Op} (ho : Direct o) {P : World ι → Prop}
    (hP : Stable (rules hashtext) i P) (hkeep : ∀ w c v, P w → Effect i c w o v → P v) :
    Triple (machine hashtext) (rules hashtext) i P (.call o) fun _ => P := by
  refine triple_call hP (fun _ _ _ => trivial) fun w c r v hw hPw _ hp => ?_
  have heffect := perform_effect hp
  obtain ⟨hv, hrely⟩ := effect_direct ho hw heffect
  exact ⟨hv, hrely, hkeep w c v hPw heffect⟩

/-- What the services do keeps the chain where it is enabled. -/
lemma triple_handle {app : App} (hcase : app.caseService.auditService.chainEnabled = true)
    (hevidence : app.evidenceService.auditService.chainEnabled = true)
    (request : Services.Request) :
    Triple (machine hashtext) (rules hashtext) i (fun _ => True) (app.handle request)
      fun _ _ => True := by
  have hclosed : Closed fun {α} (p : Prog Op Answer α) =>
      Triple (machine hashtext) (rules hashtext) i (fun _ => True) p fun _ _ => True :=
    ⟨fun _ => triple_ret fun _ _ _ => trivial, fun _ _ hp hf => triple_bind hp hf,
      fun o ho => triple_direct ho stable_const fun _ _ _ _ _ => trivial⟩
  have happend : ∀ (self : AuditService), self.chainEnabled = true → ∀ a,
      Triple (machine hashtext) (rules hashtext) i (fun _ => True) (self.append a).run
        fun _ _ => True := by
    rintro ⟨chainEnabled⟩ rfl a
    exact triple_conseq (triple_append a) (fun _ _ h => h) fun _ _ _ _ => trivial
  exact hclosed.handle (happend _ hcase) (happend _ hevidence) request

variable {engine : Engine}

/-- Every request keeps the chain where it is enabled. -/
lemma triple_request {app : App} (hcase : app.caseService.auditService.chainEnabled = true)
    (hevidence : app.evidenceService.auditService.chainEnabled = true) (incoming : Incoming) :
    Triple (server hashtext engine) (outer (rules hashtext) Prod.fst Prod.fst) i (fun _ => True)
      (respond app incoming) fun _ _ => True := by
  have hlooks : ∀ o, Looks o → Triple (machine hashtext) (rules hashtext) i (fun _ => True)
      (.call o) fun _ _ => True := fun o ho =>
    triple_direct (by cases o <;> trivial) stable_const fun _ _ _ _ _ => trivial
  refine triple_respond (D := fun _ _ => True) (Q := fun _ _ _ => True) ?_
    (fun _ endpoint _ => ?_) (fun _ _ _ _ => trivial) (fun _ _ _ _ _ => trivial)
    fun _ _ _ _ _ _ _ _ => trivial
  · exact triple_inner (extends_beside _ _) (hlooks .uuid4 trivial)
  · exact triple_serve (extends_beside _ _) stable_const hlooks
      (fun request => triple_handle hcase hevidence request) endpoint

/-! ### What the interface reports -/

/-- The case whose log an endpoint reports, and what its answer makes of the log. -/
def reports : Endpoint → Option (Uuid × (List AuditEvent → Payload))
  | .listAudit caseId => some (caseId, .events)
  | .verifyAudit caseId => some (caseId, fun l => .verification (verify l))
  | _ => none

/-- What ends the request was made of a log that was read for it. -/
def FromLog (caseId : Uuid) (report : List AuditEvent → Payload) (r : Except Exn Payload)
    (t : Exchange ApiOp ApiAnswer) : Prop :=
  ∀ p, r = .ok p → ∃ events, ⟨.inr (.listAudit caseId), .ok events⟩ ∈ t ∧ p = report events

/-- What a response says where its endpoint reports a log. -/
def Answers (incoming : Incoming) (response : Option Response)
    (t : Exchange ApiOp ApiAnswer) : Prop :=
  ∀ endpoint caseId report, incoming.request.parse = some endpoint →
    reports endpoint = some (caseId, report) →
    ∀ code p requestId, response = some ⟨code, .payload p, requestId⟩ →
      ∃ events, ⟨.inr (.listAudit caseId), .ok events⟩ ∈ t ∧ p = report events

omit [Fintype ι] [DecidableEq ι] in
lemma answers_conclude {incoming : Incoming} {endpoint : Endpoint} {requestId : String}
    {r : Except Exn Payload} {t : Exchange ApiOp ApiAnswer}
    (hparse : incoming.request.parse = some endpoint)
    (hr : ∀ caseId report, reports endpoint = some (caseId, report) →
      FromLog caseId report r t) :
    Answers incoming (conclude endpoint requestId r) t := by
  intro endpoint' caseId report hparse' hreport code p id hresponse
  obtain rfl := Option.some.inj (hparse.symm.trans hparse')
  match r with
  | .ok q =>
    obtain ⟨-, hq, -⟩ := Response.mk.inj (Option.some.inj hresponse)
    obtain rfl := Body.payload.inj hq
    exact hr caseId report hreport q rfl
  | .error (.domain e) => simp [conclude, domainErrorHandler] at hresponse
  | .error .integrity | .error (.sqlalchemy _) | .error (.other _) | .error .cancelled =>
    simp [conclude, unexpected, unexpectedErrorHandler, Exn.isException] at hresponse

/-- Plays are asked to keep nothing. -/
abbrev free : Rules Unit (Exchange ApiOp ApiAnswer) ((o : ApiOp) → Option (ApiAnswer o)) ApiOp :=
  keeping fun _ => True

omit [Fintype ι] [DecidableEq ι] in
/-- The log is read, and what is read ends up in the play. -/
lemma triple_listAudit (caseId : Uuid) :
    ETriple anything free () (fun _ => True) (ask (.listAudit caseId))
      (fun events t => ⟨.inr (.listAudit caseId), .ok events⟩ ∈ t) fun _ _ => True := by
  refine triple_play fun t r _ _ => ⟨trivial, ?_⟩
  cases r with
  | error e => trivial
  | ok events => exact List.mem_append_right _ (List.mem_singleton_self _)

omit [Fintype ι] [DecidableEq ι] in
/-- The case is looked for, the log is read, and the session is closed. -/
lemma triple_readLog (app : App) (caseId : Uuid) (report : List AuditEvent → Payload) :
    Triple anything free () (fun _ => True)
      (Api.withSession (getCase app caseId >>= fun _ => report <$> ask (.listAudit caseId)))
      (FromLog caseId report) := by
  have hget : ETriple anything free () (fun _ => True) (getCase app caseId)
      (fun _ _ => True) fun _ _ => True :=
    triple_conseq (triple_free _) (fun _ _ h => h) fun r _ _ _ => by cases r <;> trivial
  have hread : Triple anything free () (fun _ => True)
      (getCase app caseId >>= fun _ => report <$> ask (.listAudit caseId)).run
      (FromLog caseId report) := by
    refine triple_conseq (etriple_bind hget fun _ => etriple_map (H := fun p t =>
      ∃ events, ⟨.inr (.listAudit caseId), .ok events⟩ ∈ t ∧ p = report events)
      (triple_listAudit caseId) fun events _ _ h => ⟨events, h, rfl⟩) (fun _ _ h => h) ?_
    rintro r t - hr p rfl
    exact hr
  refine triple_bind hread fun r => triple_bind (triple_play fun t _ _ hr => ⟨trivial, ?_⟩)
    fun _ => triple_ret fun _ _ h => h
  intro p hp
  obtain ⟨events, hmem, heq⟩ := hr p hp
  exact ⟨events, List.mem_append_left _ hmem, heq⟩

omit [Fintype ι] [DecidableEq ι] in
lemma verification_eq (self : AuditService) (caseId : Uuid) :
    (Payload.verification <$> AuditService.verify self caseId : ApiM Payload) =
      (fun l => Payload.verification (verify l)) <$> ask (.listAudit caseId) :=
  congrArg (Prog.op (Sum.inr (Query.listAudit caseId) : ApiOp))
    (funext fun r => by cases r <;> rfl)

omit [Fintype ι] [DecidableEq ι] in
/-- What a request for a log ends with. -/
lemma triple_reports {app : App} {endpoint : Endpoint} {caseId : Uuid}
    {report : List AuditEvent → Payload} (h : reports endpoint = some (caseId, report)) :
    Triple anything free () (fun _ => True) (serve app endpoint) (FromLog caseId report) := by
  cases endpoint with
  | listAudit caseId' =>
    obtain ⟨rfl, rfl⟩ := Prod.mk.inj (Option.some.inj h)
    exact triple_serve_look rfl (triple_readLog app caseId' .events)
  | verifyAudit caseId' =>
    obtain ⟨rfl, rfl⟩ := Prod.mk.inj (Option.some.inj h)
    refine triple_serve_look rfl ?_
    change Triple _ _ _ _ (Api.withSession (getCase app caseId' >>= fun _ =>
      Payload.verification <$> AuditService.verify app.caseService.auditService caseId')) _
    rw [verification_eq]
    exact triple_readLog app caseId' fun l => .verification (verify l)
  | _ => cases h

omit [Fintype ι] [DecidableEq ι] in
/-- Every response that reports a log is made of a log that was read for it. -/
lemma triple_answers {app : App} (incoming : Incoming) :
    Triple anything free () (fun _ => True) (respond app incoming) (Answers incoming) := by
  refine triple_respond (D := fun _ _ => True) (Q := fun endpoint r t =>
    ∀ caseId report, reports endpoint = some (caseId, report) → FromLog caseId report r t)
    (triple_free _) (fun _ endpoint _ => ?_) ?_ ?_ ?_
  · cases h : reports endpoint with
    | some reported =>
      obtain ⟨caseId, report⟩ := reported
      refine triple_conseq (triple_reports h) (fun _ _ h => h) fun r t _ hr caseId' report' h' => ?_
      obtain ⟨rfl, rfl⟩ := Prod.mk.inj (Option.some.inj h')
      exact hr
    | none =>
      exact triple_conseq (triple_free _) (fun _ _ h => h) fun _ _ _ _ _ _ h' => by cases h'
  · intro e w _ _ endpoint caseId report _ _ code p requestId hresponse
    cases e <;> simp [unexpected, unexpectedErrorHandler, Exn.isException] at hresponse
  · intro requestId w _ _ _ endpoint caseId report _ _ code p id hresponse
    simp [validationErrorHandler] at hresponse
  · exact fun endpoint requestId r w _ _ hparse hr => answers_conclude hparse hr

/-! ### Every run -/

omit [Fintype ι] in
lemma Clear.looks {o : Op} {c : Choice} (ho : Looks o) (hw : Clear i w)
    (h : Effect i c w o v) : Clear i v := by
  cases h with
  | rollback | close => simp [Clear]
  | nothing | uuid4 => exact hw
  | _ => exact ho.elim

/-- In every state of a run the logs are chained. -/
lemma inv_reach {app : App} (hcase : app.caseService.auditService.chainEnabled = true)
    (hevidence : app.evidenceService.auditService.chainEnabled = true) {incoming : ι → Incoming}
    {w₀ : World ι} (h₀ : Resting w₀) {threads : Threads}
    {σ : Conf ι (World ι × Threads) ApiOp ApiAnswer (Option Response)}
    (hσ : Reach (server hashtext engine) (fun _ _ _ _ => True)
      (atStart app incoming w₀ threads) σ) : Inv hashtext σ.world.1 := by
  have hinv : (outer (rules hashtext) Prod.fst Prod.fst :
      Rules ι (World ι × Threads) (Choice × Draw) ApiOp).inv (w₀, threads) := h₀.inv
  exact (safe_reach (Q := fun _ _ _ => True) (fun _ _ => stable_const) hinv
    (fun i => triple_request hcase hevidence (incoming i) (w₀, threads) hinv trivial)
    (hσ.mono fun _ _ _ _ _ _ _ => trivial)).1

/-- A request that only looks has nothing that is not committed. -/
lemma looking {σ₀ σ : Conf ι (World ι × Threads) ApiOp ApiAnswer (Option Response)}
    {policy : World ι × Threads → ι → ApiOp → Choice × Draw → Prop}
    (h₀ : Calls Asks (σ₀.prog i)) (hclear : Clear i σ₀.world.1)
    (h : Reach (server hashtext engine) policy σ₀ σ) :
    Calls Asks (σ.prog i) ∧ Clear i σ.world.1 := by
  induction h with
  | refl => exact ⟨h₀, hclear⟩
  | @step σ j o k c a v _ hj _ hp ih =>
    obtain ⟨hcalls, hc⟩ := ih
    have hext : Extends (machine (ι := ι) hashtext) (server hashtext engine) Prod.fst Prod.fst :=
      extends_beside _ _
    have hkept : (i = j → Asks o) → Clear i v.1 := by
      intro hasks
      cases o with
      | inr q => exact (hext.beside q j c σ.world a v hp).symm ▸ hc
      | inl o =>
        have heffect := perform_effect (hext.within o j c σ.world a v hp)
        by_cases hij : i = j
        · subst hij
          exact hc.looks (hasks rfl) heffect
        · rw [Clear, heffect.others hij]
          exact hc
    by_cases hij : i = j
    · subst hij
      rw [hj] at hcalls
      exact ⟨by simpa using hcalls.2 a, hkept fun _ => hcalls.1⟩
    · exact ⟨by simpa [Function.update_of_ne hij] using hcalls, hkept fun h => absurd h hij⟩

lemma calls_respond (app : App) {incoming : Incoming}
    (h : ∀ endpoint, incoming.request.parse = some endpoint → endpoint.request = none) :
    Calls Asks (respond app incoming) := by
  refine calls_bind (calls_call trivial) fun r => ?_
  cases r with
  | error e => trivial
  | ok u =>
    cases hparse : incoming.request.parse with
    | none => trivial
    | some endpoint =>
      have hserve : serve app endpoint = Api.withSession (look app endpoint) := by
        simp only [serve, h endpoint hparse]
      refine calls_bind ?_ fun _ => trivial
      rw [hserve]
      exact calls_look app endpoint (h endpoint hparse)

omit [Fintype ι] in
/-- The committed log only grows. -/
lemma effect_prefix {o : Op} {c : Choice} (h : Effect i c w o v) : w.audit <+: v.audit := by
  cases h with
  | commit => exact List.prefix_append _ _
  | _ => exact List.prefix_rfl

lemma audit_prefix {σ₀ σ : Conf ι (World ι × Threads) ApiOp ApiAnswer (Option Response)}
    {policy : World ι × Threads → ι → ApiOp → Choice × Draw → Prop}
    (h : Reach (server hashtext engine) policy σ₀ σ) :
    σ₀.world.1.audit <+: σ.world.1.audit := by
  induction h with
  | refl => exact List.prefix_rfl
  | @step σ j o k c a v _ _ _ hp ih =>
    have hext : Extends (machine (ι := ι) hashtext) (server hashtext engine) Prod.fst Prod.fst :=
      extends_beside _ _
    refine ih.trans ?_
    cases o with
    | inr q => rw [hext.beside q j c σ.world a v hp]
    | inl o => exact effect_prefix (perform_effect (hext.within o j c σ.world a v hp))

/-- The query for the log of a case answers what is committed. -/
lemma listAudit_answer {caseId : Uuid} {c : Choice × Draw} {w v : World ι × Threads}
    {events : List AuditEvent} (hclear : Clear i w.1)
    (h : (server hashtext engine).perform (.inr (.listAudit caseId)) i c w =
      some (.ok events, v)) : events = AuditLog.list caseId w.1.audit := by
  obtain ⟨⟨r, u⟩, hq, heq⟩ := Option.map_eq_some_iff.mp h
  obtain ⟨rfl, -⟩ := Prod.mk.inj heq
  simp only [execQuery] at hq
  split at hq
  · obtain ⟨hr, -⟩ := Prod.mk.inj (Option.some.inj hq)
    have hevents : (w.1.txn i).events = [] := hclear
    simpa [Query.look, World.auditFor, hevents] using (Except.ok.inj hr).symm
  · obtain ⟨hr, -⟩ := Prod.mk.inj (Option.some.inj hq)
    cases hr
  · obtain ⟨hr, -⟩ := Prod.mk.inj (Option.some.inj hq)
    cases hr

/-- A log that a request read was committed at a moment of the run at which it read it. -/
lemma committed_when_read {app : App} {incoming : ι → Incoming} {w₀ : World ι}
    (h₀ : Resting w₀) {threads : Threads}
    {σ : Conf ι (World ι × Threads) ApiOp ApiAnswer (Option Response)}
    (hσ : Reach (server hashtext engine) (fun _ _ _ _ => True)
      (atStart app incoming w₀ threads) σ)
    {endpoint : Endpoint} {caseId : Uuid} {report : List AuditEvent → Payload}
    (hparse : (incoming i).request.parse = some endpoint)
    (hreport : reports endpoint = some (caseId, report)) {code : ℕ} {p : Payload}
    {id : Option String}
    (hi : σ.prog i = .ret (some ⟨code, .payload p, id⟩)) :
    ∃ ρ, Calling (server hashtext engine) (fun _ _ _ _ => True)
        (atStart app incoming w₀ threads) σ ρ i (.inr (.listAudit caseId)) ∧
      p = report (AuditLog.list caseId ρ.world.1.audit) := by
  obtain ⟨t, ht, hanswered⟩ := plays_of_reach hσ i
  have hanswers := (plays_post (triple_answers (incoming i)) ht trivial trivial).2 _ hi
  obtain ⟨events, hmem, rfl⟩ := hanswers endpoint caseId report hparse hreport code p id rfl
  obtain ⟨ρ, hcalling, c, v, hp⟩ := hanswered _ hmem
  have hlook : endpoint.request = none := by
    cases endpoint <;> first | rfl | cases hreport
  have hclear : Clear i ρ.world.1 := by
    refine (looking (calls_respond app fun endpoint' h => ?_) ?_ hcalling.before).2
    · rw [← Option.some.inj (hparse.symm.trans h), hlook]
    · rw [Clear, atStart, h₀.txn i]
  exact ⟨ρ, hcalling, by rw [listAudit_answer hclear hp]⟩

omit [DecidableEq ι] [Fintype ι] in
lemma nodup_ofCase (h : Inv hashtext w) (caseId : Uuid) :
    ((ofCase caseId w.audit).map AuditEvent.id).Nodup :=
  h.nodup.sublist (((h.committed.sublist caseId).trans List.filter_sublist).map _)

/-- **Reports of the audit logs are true.** In every state that requests to any endpoints reach,
whatever calls fail, at most one session has uncommitted events of a case, and every committed
event is linked to the greatest of its case committed before it. A list of the events of a case
is the log as it was committed at the moment of the run at which the request read it. So is what
a verification is about: it counts the events of that moment, accepts them if the events of the
case increase, and, where the hash is injective, only then. -/
theorem audit_reports {app : App} (hcase : app.caseService.auditService.chainEnabled = true)
    (hevidence : app.evidenceService.auditService.chainEnabled = true) (incoming : ι → Incoming)
    {w₀ : World ι} (h₀ : Resting w₀) (threads : Threads)
    {σ : Conf ι (World ι × Threads) ApiOp ApiAnswer (Option Response)}
    (hσ : Reach (server hashtext engine) (fun _ _ _ _ => True)
      (atStart app incoming w₀ threads) σ) (caseId : Uuid) :
    (∀ i j, i ≠ j → ofCase caseId (σ.world.1.txn i).events = [] ∨
      ofCase caseId (σ.world.1.txn j).events = []) ∧
    (∀ pre e post, σ.world.1.audit = pre ++ e :: post → e.caseId = some caseId →
      e.previousHash = (latest caseId pre).map AuditEvent.eventHash) ∧
    (∀ i code l id, (incoming i).request = .listAudit caseId →
      σ.prog i = .ret (some ⟨code, .payload (.events l), id⟩) →
      ∃ ρ, Calling (server hashtext engine) (fun _ _ _ _ => True)
          (atStart app incoming w₀ threads) σ ρ i (.inr (.listAudit caseId)) ∧
        ρ.world.1.audit <+: σ.world.1.audit ∧
        l = AuditLog.list caseId ρ.world.1.audit) ∧
    ∀ i code v id, (incoming i).request = .verifyAudit caseId →
      σ.prog i = .ret (some ⟨code, .payload (.verification v), id⟩) →
      ∃ ρ, Calling (server hashtext engine) (fun _ _ _ _ => True)
          (atStart app incoming w₀ threads) σ ρ i (.inr (.listAudit caseId)) ∧
        ρ.world.1.audit <+: σ.world.1.audit ∧
        v = verify (AuditLog.list caseId ρ.world.1.audit) ∧
        v.eventCount = (ofCase caseId ρ.world.1.audit).length ∧
        (((ofCase caseId ρ.world.1.audit).Pairwise fun e f => key e < key f) →
          v.valid = true) ∧
        (Set.InjOn sha256Text (materials (ofCase caseId ρ.world.1.audit)) → v.valid = true →
          (ofCase caseId ρ.world.1.audit).Pairwise fun e f => key e < key f) := by
  have hI := inv_reach hcase hevidence h₀ hσ
  refine ⟨fun i j hij => hI.ofCase_disjoint hij caseId, fun pre e post hl hc => ?_,
    fun i code l id hreq hi => ?_, fun i code v id hreq hi => ?_⟩
  · have hof : ofCase caseId σ.world.1.audit =
        ofCase caseId pre ++ e :: ofCase caseId post := by
      simp [hl, ofCase, hc]
    exact (hI.committed.grown caseId _ _ _ hof).1
  · obtain ⟨ρ, hcalling, hp⟩ := committed_when_read h₀ hσ (by rw [hreq]; rfl) rfl hi
    exact ⟨ρ, hcalling, audit_prefix hcalling.after, Payload.events.inj hp⟩
  · obtain ⟨ρ, hcalling, hp⟩ := committed_when_read h₀ hσ (by rw [hreq]; rfl) rfl hi
    obtain rfl := Payload.verification.inj hp
    have hρ := inv_reach hcase hevidence h₀ hcalling.before
    have hverify := verify_grown (hρ.committed.grown caseId) (nodup_ofCase hρ caseId)
    refine ⟨ρ, hcalling, audit_prefix hcalling.after, rfl, ?_, hverify.1, hverify.2⟩
    rw [verify_eventCount, AuditLog.list, sortByKey, List.length_mergeSort]

section Example

open WhaleMas.SessionRuns

/-- Calls of one session, of which none raises. -/
def quietCalls {ι : Type} (i : ι) (first n : ℕ) : List (ι × Choice × Draw) :=
  (calls i first n).map fun s => (s.1, s.2, ⟨fun _ => 0, 0⟩)

/-- While a file is uploaded to a case, its log is verified. -/
def uploadAndVerify : Fin 3 → Incoming
  | 0 => ⟨none, .createCase "Shipment" none none⟩
  | 1 => ⟨none, .uploadEvidence 3 textUpload none none none⟩
  | 2 => ⟨some "7", .verifyAudit 3⟩

/-- The verification that a request ended with. -/
def verdict : Prog ApiOp ApiAnswer (Option Response) → Option (ℕ × AuditVerifyResponse)
  | .ret (some ⟨code, .payload (.verification v), _⟩) => some (code, v)
  | _ => none

lemma eq_of_verdict {p : Prog ApiOp ApiAnswer (Option Response)} {code : ℕ}
    {v : AuditVerifyResponse} (h : verdict p = some (code, v)) :
    ∃ id, p = .ret (some ⟨code, .payload (.verification v), id⟩) := by
  unfold verdict at h
  split at h
  · obtain ⟨rfl, rfl⟩ := Prod.mk.inj (Option.some.inj h)
    exact ⟨_, rfl⟩
  · cases h

def uploadAndVerifyApp : Conf (Fin 3) (World (Fin 3) × Threads) ApiOp ApiAnswer
    (Option Response) :=
  atStart textApp uploadAndVerify World.empty fun _ => none

/-- Nine calls of the upload. -/
def midway : List (Fin 3 × Choice × Draw) := quietCalls 0 0 12 ++ quietCalls 1 100 9

/-- The verification, and the rest of the upload. -/
def meanwhile : List (Fin 3 × Choice × Draw) := quietCalls 2 300 4 ++ quietCalls 1 109 29

lemma midway_runs : ((run (server (fun _ => 0) langGraph) uploadAndVerifyApp midway).bind
    fun ρ => (run (server (fun _ => 0) langGraph) ρ meanwhile).map fun σ =>
      ((ofCase 3 ρ.world.1.audit).map key, (ofCase 3 σ.world.1.audit).map key)) =
    some ([toLex (noon, 7), toLex (noon, 105)], [toLex (noon, 7), toLex (noon, 105),
      toLex (noon, 118), toLex (noon, 126), toLex (noon, 131)]) := by
  decide

lemma midway_verdict : ((run (server (fun _ => 0) langGraph) uploadAndVerifyApp
    midway).bind fun ρ => (run (server (fun _ => 0) langGraph) ρ meanwhile).map fun σ =>
      verdict (σ.prog 2)) =
    (run (server (fun _ => 0) langGraph) uploadAndVerifyApp midway).map fun ρ =>
      some (200, verify (AuditLog.list 3 ρ.world.1.audit)) := by
  rfl

/-- The verification is of the two events that are committed when it reads, and accepts them;
the upload commits three more. -/
theorem audit_reports_uploadAndVerify : ∃ ρ σ v id,
    run (server (fun _ => 0) langGraph) uploadAndVerifyApp midway = some ρ ∧
    run (server (fun _ => 0) langGraph) ρ meanwhile = some σ ∧
    σ.prog 2 = .ret (some ⟨200, .payload (.verification v), id⟩) ∧
    (ofCase 3 ρ.world.1.audit).length = 2 ∧ (ofCase 3 σ.world.1.audit).length = 5 ∧
    v.valid = true ∧ v.eventCount = 2 := by
  obtain ⟨ρ, hρ, hbind⟩ := Option.bind_eq_some_iff.mp midway_runs
  obtain ⟨σ, hσ, hkeys⟩ := Option.map_eq_some_iff.mp hbind
  obtain ⟨hρkeys, hσkeys⟩ := Prod.mk.inj hkeys
  have hverdict : verdict (σ.prog 2) = some (200, verify (AuditLog.list 3 ρ.world.1.audit)) := by
    simpa [hρ, hσ] using midway_verdict
  obtain ⟨id, hi⟩ := eq_of_verdict hverdict
  have hlength : (ofCase 3 ρ.world.1.audit).length = 2 := by
    simpa using congrArg List.length hρkeys
  have hreach : Reach (server (fun _ => 0) langGraph) (fun _ _ _ _ => True)
      uploadAndVerifyApp σ :=
    reach_of_run (reach_of_run .refl (fun _ _ _ _ => trivial) hρ) (fun _ _ _ _ => trivial) hσ
  obtain ⟨τ, -, hprefix, -, -, hvalid, -⟩ := (audit_reports
    (rfl : textApp.caseService.auditService.chainEnabled = true) rfl uploadAndVerify
    resting_empty (fun _ => none) hreach 3).2.2.2 2 200 _ id rfl hi
  have hrising : (ofCase 3 σ.world.1.audit).Pairwise fun e f => key e < key f := by
    rw [← List.pairwise_map, hσkeys]
    decide
  have hsublist : (ofCase 3 τ.world.1.audit).Sublist (ofCase 3 σ.world.1.audit) :=
    List.Sublist.filter _ (List.IsPrefix.sublist hprefix)
  refine ⟨ρ, σ, _, id, hρ, hσ, hi, hlength, by simpa using congrArg List.length hσkeys,
    hvalid (hrising.sublist hsublist), ?_⟩
  rw [verify_eventCount, AuditLog.list, sortByKey, List.length_mergeSort, hlength]

end Example

end WhaleMas.AuditReports
