import WhaleMas.KeepingRequests
import WhaleMas.NumberedRuns

/-!
Runs of the HTTP interface with a record of the rows whose insert was tried: what becomes of
rows and of their objects, and what the answers to requests for evidence say of them.
-/

namespace WhaleMas.KeptRuns

open WhaleMas.Models WhaleMas.Program WhaleMas.RelyGuarantee WhaleMas.Beside WhaleMas.Database
open WhaleMas.Services WhaleMas.EvidenceLife WhaleMas.WorkflowService WhaleMas.Api
open WhaleMas.HashChain WhaleMas.ApiRuns WhaleMas.EvidenceKeeping WhaleMas.KeepingRequests
open WhaleMas.RequestEnds (caseNotFound evidenceNotFound)

variable {ι : Type} {asks : ι → Uuid → Prop} {fails : ι → Op → Exn → Prop} {i : ι}
  {w v : World ι × Placed} {known : Evidence → Prop}

/-! ### Answers -/

/-- What the answer of an endpoint says of rows and objects. The rows in `known` were committed
when the request came, and nobody asks to delete them. -/
def Truthful (asks : ι → Uuid → Prop) (known : Evidence → Prop) (i : ι) :
    Endpoint → Payload → World ι × Placed → Prop
  | .uploadEvidence caseId file _ _ _, .evidence r, w =>
    Done asks i caseId file.chunks.flatten r w
  | .deleteEvidence _ u, .noContent, w => Gone u w
  | .getEvidence caseId u, .evidence r, w => ((r.id = u ∧ r.caseId = caseId) ∧
      ∀ k, known k → k.caseId = caseId → k.id = u → Like k r) ∧ Genuine r w
  | .listEvidence caseId, .evidences l, w =>
    (∀ k, known k → k.caseId = caseId → ∃ r ∈ l, Like k r) ∧
      ∀ r ∈ l, r.caseId = caseId ∧ Genuine r w
  | _, _, _ => True

lemma stable_truthful (endpoint : Endpoint) (p : Payload) :
    Stable (rules asks fails) i (Truthful asks known i endpoint p) := by
  cases endpoint with
  | uploadEvidence => cases p with
    | evidence r => exact stable_const.and stable_kept
    | _ => exact stable_const
  | deleteEvidence => cases p with
    | noContent => exact stable_gone
    | _ => exact stable_const
  | getEvidence => cases p with
    | evidence r => exact stable_const.and stable_genuine
    | _ => exact stable_const
  | listEvidence => cases p with
    | evidences l =>
      exact stable_const.and fun w v h _ hr _ r hmem =>
        ⟨(h r hmem).1, (h r hmem).2.moves (Rely.moves hr)⟩
    | _ => exact stable_const
  | _ => exact stable_const

/-- What a request has done that returned is what its answer says. -/
lemma truthful_of_did {endpoint : Endpoint} {request : Services.Request}
    (h : endpoint.request = some request) {b : Services.Result} (hdid : Did asks i request b w) :
    Truthful asks known i endpoint (.ofResult b) w := by
  cases endpoint with
  | createCase | updateCase => trivial
  | uploadEvidence =>
    obtain rfl := Option.some.inj h
    cases b with
    | evidence r => exact hdid
    | _ => trivial
  | deleteEvidence =>
    obtain rfl := Option.some.inj h
    cases b with
    | deleted => exact hdid
    | _ => trivial
  | _ => cases h

/-- How an endpoint ends: an answer is true, and a row that is known is found. -/
structure Told (asks : ι → Uuid → Prop) (fails : ι → Op → Exn → Prop) (known : Evidence → Prop)
    (i : ι) (endpoint : Endpoint) (r : Except Exn Payload) (w : World ι × Placed) : Prop where
  truthful : ∀ p, r = .ok p → Truthful asks known i endpoint p w
  missed : ∀ caseId u, endpoint = .getEvidence caseId u →
    ∀ e, r = .error e → Missed fails i known caseId u e

/-- An endpoint that looks returns what is true, or misses. -/
lemma told_of_ends {endpoint : Endpoint} {r : Except Exn Payload} {E : Exn → Prop}
    {x : Recorded ι Placed}
    (h : orElse (fun p x => Truthful asks known i endpoint p (rows x)) (fun e _ => E e) r x)
    (hE : ∀ e caseId u, endpoint = .getEvidence caseId u → E e →
      Missed fails i known caseId u e) : Told asks fails known i endpoint r (rows x) := by
  cases r with
  | ok p => exact ⟨fun p' hp => Except.ok.inj hp ▸ h, fun _ _ _ e he => (by cases he)⟩
  | error e =>
    refine ⟨fun p hp => (by cases hp), fun caseId u hget e' he => ?_⟩
    exact Except.error.inj he ▸ hE e caseId u hget h

/-- What a request that looks is told stays so. -/
lemma Told.moves {endpoint : Endpoint} {r : Except Exn Payload} (h : endpoint.request = none)
    (hr : Told asks fails known i endpoint r w) (hm : Moves asks w v) :
    Told asks fails known i endpoint r v := by
  refine ⟨fun p hp => ?_, hr.missed⟩
  have htrue := hr.truthful p hp
  cases endpoint with
  | uploadEvidence | deleteEvidence => cases h
  | getEvidence => cases p with
    | evidence r => exact ⟨htrue.1, htrue.2.moves hm⟩
    | _ => trivial
  | listEvidence => cases p with
    | evidences l =>
      exact ⟨htrue.1, fun r hmem => ⟨(htrue.2 r hmem).1, (htrue.2 r hmem).2.moves hm⟩⟩
    | _ => trivial
  | _ => trivial

/-! ### Requests -/

/-- The rules of the evidence that is kept, at the interface. -/
abbrev apiRules (asks : ι → Uuid → Prop) (fails : ι → Op → Exn → Prop) :
    Rules ι (Recorded ι Placed) (Choice × Draw) ApiOp :=
  outer (rules asks fails) rows Prod.fst

variable [DecidableEq ι] [Fintype ι] {hashtext : String → ℤ} {engine : Engine} {app : App}

/-- The calls that look leave a session with nothing to insert or to delete. -/
lemma triple_looks (o : Op) (ho : Looks o) :
    Triple (keeping hashtext) (rules asks fails) i (Idle i) (.call o) fun _ => Idle i := by
  have hd : ∀ w, Demand asks w i o := fun w => by cases o <;> trivial
  refine triple_call stable_idle (fun w _ _ => hd w) fun w c a v hw h _ hp => ?_
  obtain ⟨hv, hrely, -⟩ := keeps_step hw (hd w) hp
  refine ⟨hv, hrely, ?_⟩
  obtain ⟨heffect, -⟩ := perform_keeping hp
  obtain ⟨v, g⟩ := v
  cases heffect with
  | nothing | uuid4 => exact h
  | close => simp [Idle]
  | _ => exact ho.elim

/-- A session that looks is closed in the end. -/
lemma triple_close {P : Recorded ι Placed → Prop} {p : ApiM Payload}
    {D : Except Exn Payload → World ι × Placed → Prop}
    (hp : Triple (recorded hashtext engine notePlaced) (apiRules asks fails) i P
      p.run fun r w => D r (rows w)) (hD : ∀ r w v, D r w → Moves asks w v → D r v) :
    Triple (recorded hashtext engine notePlaced) (apiRules asks fails) i P
      (Api.withSession p) fun r w => D r (rows w) := by
  refine triple_bind hp fun r => ?_
  have hclose : Triple (keeping hashtext) (rules asks fails) i (D r) (.call .close)
      fun _ => D r := by
    refine triple_call (fun w v h _ hr _ => hD r w v h (Rely.moves hr)) (fun _ _ _ => trivial)
      fun w c a v hw h _ hp => ?_
    have hd : Demand asks w i .close := trivial
    obtain ⟨hv, hrely, hmoves⟩ := keeps_step hw hd hp
    exact ⟨hv, hrely, hD r w v h hmoves⟩
  exact triple_bind (triple_inner (extends_recorded notePlaced) hclose) fun _ =>
    triple_ret fun _ _ h => h

/-- A request that looks is told what it has looked up. -/
lemma triple_told_map {α : Type} {endpoint : Endpoint} {P : Recorded ι Placed → Prop} {p : ApiM α}
    {f : α → Payload} {Q : α → Recorded ι Placed → Prop} {E : Exn → Prop}
    (h : endpoint.request = none)
    (hp : ETriple (recorded hashtext engine notePlaced) (apiRules asks fails) i P
      p Q fun e _ => E e)
    (hQ : ∀ a w, Q a w → Truthful asks known i endpoint (f a) (rows w))
    (hE : ∀ e caseId u, endpoint = .getEvidence caseId u → E e →
      Missed fails i known caseId u e) :
    Triple (recorded hashtext engine notePlaced) (apiRules asks fails) i P
      (Api.withSession (f <$> p)) fun r w => Told asks fails known i endpoint r (rows w) := by
  have hends := etriple_map (f := f)
    (H := fun b w => Truthful asks known i endpoint b (rows w)) hp fun a w _ ha => hQ a w ha
  exact triple_close (triple_conseq hends (fun _ _ hw => hw) fun r w _ hr => told_of_ends hr hE)
    fun r w v hr => hr.moves h

section Known

variable (hknown : ∀ r, known r → ∀ j, ¬ asks j r.id)

include hknown

/-- The rows that a session lists are committed, and those that are known are among them. -/
lemma triple_listEvidence (self : EvidenceService) (caseId : Uuid) :
    ETriple (recorded hashtext engine notePlaced) (apiRules asks fails) i
      (fun w => Idle i (rows w) ∧ Present known (rows w))
      (EvidenceService.listEvidence self caseId)
      (fun l w => (∀ k, known k → k.caseId = caseId → ∃ r ∈ l, Like k r) ∧
        ∀ r ∈ l, r.caseId = caseId ∧ Genuine r (rows w)) fun _ _ => True := by
  have hsearch : Knows asks fails i fun w => Idle i w ∧ Present known w := knows_search hknown
  refine etriple_bind (triple_within_services (extends_recorded notePlaced)
    (triple_requireCase hsearch caseId (E := fun _ => True) (fun _ _ _ => trivial) trivial))
    fun _ => ?_
  refine triple_beside (extends_recorded notePlaced) (stable_outer hsearch.stable)
    fun w c a v hw h hp => ?_
  have hsame : rows v = rows w := (extends_recorded notePlaced).beside _ _ _ _ _ _ hp
  obtain ⟨hp, -⟩ := perform_recording hp
  obtain ⟨⟨a', threads⟩, hquery, heq⟩ := Option.map_eq_some_iff.mp hp
  obtain ⟨rfl, -⟩ := Prod.mk.inj heq
  simp only [execQuery] at hquery
  split at hquery <;> obtain ⟨rfl, -⟩ := Prod.mk.inj (Option.some.inj hquery)
  · obtain ⟨hidle, hpresent⟩ := h
    have hrows : w.1.1.evidenceFor i = w.1.1.evidence := evidenceFor_idle hidle
    have hmem : ∀ r, r ∈ (Query.listEvidence caseId).look c.2.rank i w.1 ↔
        r ∈ w.1.1.evidence ∧ r.caseId = caseId := fun r => by
      rw [Query.look, (sortByKey_perm _).mem_iff, hrows, List.mem_filter, decide_eq_true_eq]
    refine ⟨fun k hk hcase => ?_, fun r hr => ?_⟩
    · obtain ⟨s, hs, hlike⟩ := hpresent k hk
      exact ⟨s, (hmem s).mpr ⟨hs, hlike.caseId.trans hcase⟩, hlike⟩
    · rw [hsame]
      exact ⟨((hmem r).mp hr).2, hw.rows r ((hmem r).mp hr).1⟩
  · trivial
  · trivial

/-- Rows are looked up and listed as they are. -/
lemma triple_told_look {endpoint : Endpoint} (h : endpoint.request = none) :
    Triple (recorded hashtext engine notePlaced) (apiRules asks fails) i
      (fun w => Idle i (rows w) ∧ Present known (rows w))
      (Api.withSession (look app endpoint))
      fun r w => Told asks fails known i endpoint r (rows w) := by
  have hother : (∀ p w, Truthful asks known i endpoint p w) →
      (∀ caseId u, endpoint ≠ .getEvidence caseId u) →
      Triple (recorded hashtext engine notePlaced) (apiRules asks fails) i
        (fun w => Idle i (rows w) ∧ Present known (rows w))
        (Api.withSession (look app endpoint))
        fun r w => Told asks fails known i endpoint r (rows w) := by
    intro htrue hne
    refine triple_conseq (triple_of_calls (calls_look app endpoint h)
      (triple_asks (extends_recorded notePlaced) stable_idle triple_looks)) (fun _ _ h => h.1) ?_
    exact fun _ w _ _ => ⟨fun p _ => htrue p (rows w), fun _ _ he => absurd he (hne _ _)⟩
  cases endpoint with
  | createCase | updateCase | uploadEvidence | deleteEvidence => cases h
  | listEvidence caseId =>
    exact triple_told_map h (triple_listEvidence hknown app.evidenceService caseId)
      (fun _ _ hl => hl) fun _ _ _ he => by cases he
  | getEvidence caseId u =>
    refine triple_told_map h (triple_within_services (extends_recorded notePlaced)
      (triple_getEvidence hknown app.evidenceService caseId)) (fun _ _ he => ⟨he.1, he.2.1⟩)
      fun e _ _ he hmissed => ?_
    cases he
    exact hmissed
  | _ => exact hother (fun _ _ => trivial) fun _ _ he => by cases he

/-- What a request is told. -/
lemma triple_told {endpoint : Endpoint}
    (hasks : ∀ caseId u, endpoint = .deleteEvidence caseId u → asks i u) :
    Triple (recorded hashtext engine notePlaced) (apiRules asks fails) i
      (fun w => Idle i (rows w) ∧ Present known (rows w)) (serve app endpoint)
      fun r w => Told asks fails known i endpoint r (rows w) := by
  cases h : endpoint.request with
  | none => exact triple_serve_look h (triple_told_look hknown h)
  | some request =>
    have hdelete : ∀ caseId u, request = .delete caseId u → asks i u := by
      rintro caseId u rfl
      cases endpoint with
      | deleteEvidence caseId' u' =>
        obtain ⟨-, rfl⟩ := Services.Request.delete.inj (Option.some.inj h)
        exact hasks caseId' u' rfl
      | _ => cases h
    refine triple_serve_request h (triple_conseq (triple_inner (extends_recorded notePlaced)
      (triple_handle hdelete)) (fun _ _ hw => hw.1) fun r w _ hdid => ⟨fun p hp => ?_, ?_⟩)
    · cases r with
      | ok b => exact Except.ok.inj hp ▸ truthful_of_did h (hdid b rfl)
      | error e => cases hp
    · rintro caseId u rfl
      cases h

end Known

/-! ### Responses -/

/-- What a response says of rows and objects. -/
structure Says (asks : ι → Uuid → Prop) (fails : ι → Op → Exn → Prop) (known : Evidence → Prop)
    (i : ι) (incoming : Incoming) (response : Option Response) (w : World ι × Placed) : Prop where
  truthful : ∀ endpoint, incoming.request.parse = some endpoint → ∀ code p id,
    response = some ⟨code, .payload p, id⟩ → Truthful asks known i endpoint p w
  missed : ∀ caseId u, incoming.request.parse = some (.getEvidence caseId u) →
    ∀ code detail id, response = some ⟨code, .error detail, id⟩ →
      detail.code = evidenceNotFound.code →
      (∃ o d, fails i o (.domain d) ∧ d.code = evidenceNotFound.code) ∨
        ∀ k, known k → k.caseId = caseId → k.id ≠ u

omit [DecidableEq ι] [Fintype ι] in
lemma stable_says {incoming : Incoming} {response : Option Response} :
    Stable (rules asks fails) i (Says asks fails known i incoming response) :=
  fun w v h hw hr hv => ⟨fun endpoint hparse code p id hresponse => stable_truthful endpoint p w v
    (h.truthful endpoint hparse code p id hresponse) hw hr hv, h.missed⟩

omit [DecidableEq ι] [Fintype ι] in
lemma says_unexpected {incoming : Incoming} {requestId : String} {e : Exn} :
    Says asks fails known i incoming (unexpected requestId e) w := by
  unfold unexpected
  split_ifs
  · refine ⟨fun _ _ _ _ _ h => (by cases h), fun _ _ _ _ detail _ h hcode => ?_⟩
    obtain ⟨-, hbody, -⟩ := Response.mk.inj (Option.some.inj h)
    obtain rfl := Body.error.inj hbody
    simp [evidenceNotFound, notFoundError] at hcode
  · exact ⟨fun _ _ _ _ _ h => (by cases h), fun _ _ _ _ _ _ h => (by cases h)⟩

omit [DecidableEq ι] [Fintype ι] in
lemma says_conclude {incoming : Incoming} {endpoint : Endpoint} {requestId : String}
    {r : Except Exn Payload} (hparse : incoming.request.parse = some endpoint)
    (h : Told asks fails known i endpoint r w) :
    Says asks fails known i incoming (conclude endpoint requestId r) w := by
  cases r with
  | ok p =>
    refine ⟨fun endpoint' hparse' code p' id hresponse => ?_, fun _ _ _ _ _ _ h => (by cases h)⟩
    obtain rfl := Option.some.inj (hparse.symm.trans hparse')
    obtain ⟨-, hp, -⟩ := Response.mk.inj (Option.some.inj hresponse)
    exact Body.payload.inj hp ▸ h.truthful p rfl
  | error e => cases e with
    | domain d =>
      refine ⟨fun _ _ _ _ _ h => (by cases h),
        fun caseId u hget code detail id hresponse hcode => ?_⟩
      obtain ⟨-, hbody, -⟩ := Response.mk.inj (Option.some.inj hresponse)
      obtain rfl := Body.error.inj hbody
      have hmissed := h.missed caseId u (Option.some.inj (hparse.symm.trans hget)) _ rfl d rfl hcode
      exact hmissed.imp_left fun ⟨o, ho⟩ => ⟨o, d, ho, hcode⟩
    | _ => exact says_unexpected

lemma triple_says {incoming : Incoming} (hknown : ∀ r, known r → ∀ j, ¬ asks j r.id)
    (hasks : ∀ caseId u, incoming.request.parse = some (.deleteEvidence caseId u) → asks i u) :
    Triple (recorded hashtext engine notePlaced) (apiRules asks fails) i
      (fun w => Idle i (rows w) ∧ Present known (rows w)) (respond app incoming)
      fun response w => Says asks fails known i incoming response (rows w) := by
  have hsearch : Knows asks fails i fun w => Idle i w ∧ Present known w := knows_search hknown
  have hdraw : Triple (recorded hashtext engine notePlaced)
      (apiRules asks fails) i
      (fun w => Idle i (rows w) ∧ Present known (rows w)) (.call (.inl .uuid4))
      fun _ w => Idle i (rows w) ∧ Present known (rows w) := by
    refine triple_conseq (triple_inner (extends_recorded notePlaced)
      (triple_quiet hsearch (o := .uuid4) trivial)) (fun _ _ h => h) fun r w _ h => ?_
    cases r <;> exact h
  refine triple_respond hdraw (fun _ endpoint hparse => triple_told hknown
    fun caseId u h => hasks caseId u (h ▸ hparse)) (fun _ _ _ _ => says_unexpected) ?_
    fun _ _ _ _ _ _ hparse h => says_conclude hparse h
  exact fun _ _ _ _ hparse => ⟨fun _ h => (by rw [hparse] at h; cases h),
    fun _ _ h => (by rw [hparse] at h; cases h)⟩

/-! ### Every run -/

/-- No session has begun; the rows that are there have identifiers of their own, under which
there are no objects but those they describe, and no object is under an identifier that is
still to be drawn. -/
structure Holding (w : World ι) : Prop where
  txn : ∀ i, w.txn i = {}
  rows : ∀ r ∈ w.evidence, w.owner r.id ≠ .fresh ∧ Backed r w
  bare : ∀ u, w.owner u = .fresh → ∀ c n, w.objects (objectKeyOf c u n) = none
  distinct : w.evidence.Pairwise fun r s => r.id ≠ s.id

/-- Request `i` asks to delete the row. -/
def asksToDelete (incoming : ι → Incoming) (i : ι) (u : Uuid) : Prop :=
  ∃ caseId, (incoming i).request.parse = some (.deleteEvidence caseId u)

/-- The rows that are there at the beginning count as placed. -/
def placedAt (w : World ι) : Placed := fun u => ∃ r ∈ w.evidence, r.id = u

variable {w₀ : World ι} {threads : Threads} {incoming : ι → Incoming}

omit [DecidableEq ι] [Fintype ι] in
lemma Holding.inv (h : Holding w₀) : Inv asks (w₀, placedAt w₀) where
  placed := by
    rintro u ⟨r, hr, rfl⟩
    exact (h.rows r hr).1
  bare := h.bare
  rows := fun r hr => ⟨⟨r, hr, rfl⟩, (h.rows r hr).2⟩
  distinct := h.distinct
  pending := fun i r hr => by
    change r ∈ (w₀.txn i).evidence at hr
    rw [h.txn i] at hr
    cases hr
  one := fun i => by
    change (w₀.txn i).evidence.length ≤ 1
    simp [h.txn i]
  deleted := fun i u hu => by
    change u ∈ (w₀.txn i).deleted at hu
    rw [h.txn i] at hu
    cases hu

omit [DecidableEq ι] [Fintype ι] in
lemma holding_empty : Holding (World.empty : World ι) :=
  ⟨fun _ => rfl, fun _ h => (by cases h), fun _ _ _ _ => rfl, .nil⟩

/-- A call of a run may raise by itself only what it may. -/
def Within (fails : ι → Op → Exn → Prop) (i : ι) (o : ApiOp) (c : Choice × Draw) : Prop :=
  ∀ o', o = .inl o' → Numbering.Policy fails i o' c.1

/-- With the record of the rows whose insert was tried, the invariant holds, and the requests
go on by the rules. -/
def Ruled (hashtext : String → ℤ) (engine : Engine) (incoming : ι → Incoming)
    (fails : ι → Op → Exn → Prop)
    (σ : Conf ι (World ι × Threads) ApiOp ApiAnswer (Option Response)) (g : Placed) : Prop :=
  Inv (asksToDelete incoming) (σ.world.1, g) ∧
    ∀ i, Safe (recorded hashtext engine notePlaced)
      (apiRules (asksToDelete incoming) fails) i
      (fun response w => Says (asksToDelete incoming) fails (fun _ => False) i (incoming i)
        response (rows w)) (σ.prog i) (σ.world, g)

lemma ruled_start (h₀ : Holding w₀) : Ruled hashtext engine incoming fails
    (atStart app incoming w₀ threads) (placedAt w₀) := by
  have hnone : ∀ r : Evidence, (fun _ => False : Evidence → Prop) r →
      ∀ j, ¬ asksToDelete incoming j r.id := fun _ h => h.elim
  have hinv : Inv (asksToDelete incoming) (w₀, placedAt w₀) := h₀.inv
  refine ⟨hinv, fun i => triple_says hnone (fun caseId u h => ⟨caseId, h⟩) _ hinv
    ⟨?_, fun _ h => h.elim⟩⟩
  change (w₀.txn i).evidence = [] ∧ (w₀.txn i).deleted = []
  simp [h₀.txn i]

/-- Every call moves rows and objects as they may. -/
lemma moves_step {w v : Recorded ι Placed} {o : ApiOp} {c : Choice × Draw} {a : ApiAnswer o}
    (hw : Inv asks (rows w))
    (hd : (apiRules asks fails).demand w i o)
    (h : (recorded (ι := ι) hashtext engine notePlaced).perform o i c w = some (a, v)) :
    Moves asks (rows w) (rows v) := by
  have hext : Extends (keeping (ι := ι) hashtext) (recorded hashtext engine notePlaced) rows
    Prod.fst := extends_recorded notePlaced
  cases o with
  | inl o => exact (keeps_step hw (hd o rfl) (hext.within o i c w a v h)).2.2
  | inr q =>
    rw [hext.beside q i c w a v h]
    exact .refl asks (rows w)

/-- So they are from then on, and rows and objects move as they may. -/
lemma Ruled.later {σ τ : Conf ι (World ι × Threads) ApiOp ApiAnswer (Option Response)} {g : Placed}
    (h : Ruled hashtext engine incoming fails σ g)
    (hτ : Reach (server hashtext engine) (fun _ => Within fails) σ τ) :
    ∃ g', Ruled hashtext engine incoming fails τ g' ∧
      Moves (asksToDelete incoming) (σ.world.1, g) (τ.world.1, g') := by
  obtain ⟨hinv, hsafe⟩ := h
  obtain ⟨g', hrun⟩ := reach_recording (noteWithin notePlaced) g hτ
  have hstable : ∀ i response, Stable (apiRules (asksToDelete incoming) fails)
      i fun w => Says (asksToDelete incoming) fails (fun _ => False) i (incoming i) response
        (rows w) := fun i response => stable_outer stable_says
  have hrefl : ∀ w : Recorded ι Placed, Moves (asksToDelete incoming) (rows w) (rows w) :=
    fun w => .refl _ (rows w)
  have hruled : Ruled hashtext engine incoming fails τ g' := by
    refine safe_reach hstable ?_ ?_ hrun
    · exact hinv
    · exact hsafe
  refine ⟨g', hruled, ?_⟩
  exact moves_of_safe hrefl (fun _ _ _ h h' => h.trans h')
    (fun w i o c a v hw hd hp => moves_step hw hd hp) hstable
    (σ := ⟨(σ.world, g), σ.prog⟩) hinv hsafe hrun

/-- Calls may raise anything. -/
def anything : ι → Op → Exn → Prop := fun _ _ _ => True

/-- **Evidence is kept**: in every run of the interface, whatever calls fail, a row that is
there describes the only object under its identifier, if there is one. From any moment on it
stays, but may lose its parent, or it is gone for good with its object, and then a request
asked to delete it. -/
theorem evidence_kept (app : App) (incoming : ι → Incoming) (h₀ : Holding w₀)
    (threads : Threads)
    {σ τ : Conf ι (World ι × Threads) ApiOp ApiAnswer (Option Response)}
    (hσ : Reach (server hashtext engine) (fun _ _ _ _ => True) (atStart app incoming w₀ threads) σ)
    (hτ : Reach (server hashtext engine) (fun _ _ _ _ => True) σ τ) :
    (σ.world.1.evidence.Pairwise fun r s => r.id ≠ s.id) ∧
    ∀ r ∈ σ.world.1.evidence, Backed r σ.world.1 ∧
      ((∃ s ∈ τ.world.1.evidence, Like r s) ∨
        (∃ j, asksToDelete incoming j r.id) ∧
          ∀ υ, Reach (server hashtext engine) (fun _ _ _ _ => True) τ υ →
            (∀ s ∈ υ.world.1.evidence, s.id ≠ r.id) ∧
              ∀ c n, υ.world.1.objects (objectKeyOf c r.id n) = none) := by
  have hany : ∀ {σ τ : Conf ι (World ι × Threads) ApiOp ApiAnswer (Option Response)},
      Reach (server hashtext engine) (fun _ _ _ _ => True) σ τ →
        Reach (server hashtext engine) (fun _ => Within anything) σ τ :=
    fun h => h.mono fun _ _ _ _ _ _ _ _ _ => trivial
  obtain ⟨g, hruled, -⟩ := (ruled_start h₀).later (hany hσ)
  obtain ⟨g', hruled', hmoves⟩ := hruled.later (hany hτ)
  refine ⟨hruled.1.distinct, fun r hr => ⟨(hruled.1.rows r hr).2, ?_⟩⟩
  rcases hmoves.rows r hr with hstays | ⟨hgone, hasks⟩
  · exact .inl hstays
  · refine .inr ⟨hasks, fun υ hυ => ?_⟩
    obtain ⟨g'', -, hmoves'⟩ := hruled'.later (hany hυ)
    obtain ⟨-, hrows, hvacant⟩ := hmoves'.gone r.id hgone
    exact ⟨hrows, hvacant⟩

section Example

open WhaleMas.SessionRuns WhaleMas.AuditReports

/-- A case is created, a file uploaded to it, and then there is a last request. -/
def createUploadThen (last : RawRequest) : Fin 3 → Incoming
  | 0 => ⟨none, .createCase "Shipment" none none⟩
  | 1 => ⟨none, .uploadEvidence 3 textUpload none none none⟩
  | 2 => ⟨none, last⟩

def uploadedApp (last : RawRequest) :
    Conf (Fin 3) (World (Fin 3) × Threads) ApiOp ApiAnswer (Option Response) :=
  atStart textApp (createUploadThen last) World.empty fun _ => none

def uploadCalls : List (Fin 3 × Choice × Draw) := quietCalls 0 0 12 ++ quietCalls 1 100 38

lemma uploaded_deletes : ((run (server (fun _ => 0) langGraph)
    (uploadedApp (.deleteEvidence 3 102)) uploadCalls).bind fun σ =>
      (run (server (fun _ => 0) langGraph) σ (quietCalls 2 300 12)).map fun τ =>
        (σ.world.1.evidence.length, τ.world.1.evidence.length)) = some (1, 0) := by
  decide

theorem evidence_kept_uploaded : ∃ σ τ r, run (server (fun _ => 0) langGraph)
    (uploadedApp (.deleteEvidence 3 102)) uploadCalls = some σ ∧
    run (server (fun _ => 0) langGraph) σ (quietCalls 2 300 12) = some τ ∧
    r ∈ σ.world.1.evidence ∧ Backed r σ.world.1 ∧
    ∀ c n, τ.world.1.objects (objectKeyOf c r.id n) = none := by
  obtain ⟨σ, hσ, hτmap⟩ := Option.bind_eq_some_iff.mp uploaded_deletes
  obtain ⟨τ, hτ, hlengths⟩ := Option.map_eq_some_iff.mp hτmap
  obtain ⟨r, hr⟩ := List.length_eq_one_iff.mp (congrArg Prod.fst hlengths)
  have hempty : τ.world.1.evidence = [] :=
    List.eq_nil_of_length_eq_zero (congrArg Prod.snd hlengths)
  have hmem : r ∈ σ.world.1.evidence := by simp [hr]
  obtain ⟨hbacked, hrest⟩ := (evidence_kept textApp (createUploadThen (.deleteEvidence 3 102))
    holding_empty (fun _ => none) (reach_of_run .refl (fun _ _ _ _ => trivial) hσ)
    (reach_of_run .refl (fun _ _ _ _ => trivial) hτ)).2 r hmem
  refine ⟨σ, τ, r, hσ, hτ, hmem, hbacked, ?_⟩
  rcases hrest with ⟨s, hs, -⟩ | ⟨-, hgone⟩
  · rw [hempty] at hs
    cases hs
  · exact (hgone τ .refl).2

end Example

/-- What an answer says: an upload has its row, with the digest of what was sent, and its bytes,
unless somebody asks to delete it; a deletion has left neither; a row that is answered describes
the only object under its identifier, if there is one. -/
def Tells (asks : ι → Uuid → Prop) : Endpoint → Payload → World ι → Prop
  | .uploadEvidence caseId file _ _ _, .evidence r, w =>
    r.caseId = caseId ∧ Describes r file.chunks.flatten ∧
      ((∀ j, ¬ asks j r.id) → (∃ s ∈ w.evidence, Like r s) ∧
        w.objects r.objectKey = some ⟨file.chunks.flatten, r.mimeType⟩)
  | .deleteEvidence _ u, .noContent, w =>
    (∀ r ∈ w.evidence, r.id ≠ u) ∧ ∀ c n, w.objects (objectKeyOf c u n) = none
  | .getEvidence caseId u, .evidence r, w => (r.id = u ∧ r.caseId = caseId) ∧ Backed r w
  | .listEvidence caseId, .evidences l, w => ∀ r ∈ l, r.caseId = caseId ∧ Backed r w
  | _, _, _ => True

omit [DecidableEq ι] [Fintype ι] in
lemma tells_of_truthful {endpoint : Endpoint} {p : Payload}
    (h : Truthful asks known i endpoint p w) : Tells asks endpoint p w.1 := by
  cases endpoint with
  | uploadEvidence => cases p with
    | evidence r =>
      obtain ⟨hcase, -, -, hdescribes, hrow, hsecured⟩ := h
      exact ⟨hcase, hdescribes, fun hno => ⟨hrow hno, hsecured hno⟩⟩
    | _ => trivial
  | deleteEvidence => cases p with
    | noContent => exact ⟨h.rows, h.vacant⟩
    | _ => trivial
  | getEvidence => cases p with
    | evidence r => exact ⟨h.1.1, h.2.2⟩
    | _ => trivial
  | listEvidence => cases p with
    | evidences l => exact fun r hr => ⟨(h.2 r hr).1, (h.2 r hr).2.2⟩
    | _ => trivial
  | _ => trivial

/-- **Answers are kept**: in every run of the interface, whatever calls fail, what an answer
says of rows and objects is true from the moment on in which it is given. -/
theorem answers_kept (app : App) (incoming : ι → Incoming) (h₀ : Holding w₀) (threads : Threads)
    {σ : Conf ι (World ι × Threads) ApiOp ApiAnswer (Option Response)}
    (hσ : Reach (server hashtext engine) (fun _ _ _ _ => True) (atStart app incoming w₀ threads) σ)
    {i : ι} {code : ℕ} {p : Payload} {id : Option String}
    (hi : σ.prog i = .ret (some ⟨code, .payload p, id⟩)) {endpoint : Endpoint}
    (hparse : (incoming i).request.parse = some endpoint) :
    Tells (asksToDelete incoming) endpoint p σ.world.1 := by
  have hwithin : Reach (server hashtext engine) (fun _ => Within anything)
      (atStart app incoming w₀ threads) σ := hσ.mono fun _ _ _ _ _ _ _ _ _ => trivial
  obtain ⟨g, ⟨-, hsafe⟩, -⟩ := (ruled_start h₀).later hwithin
  have hresponse := post_of_safe (σ := ⟨(σ.world, g), σ.prog⟩) hsafe hi
  exact tells_of_truthful (hresponse.truthful endpoint hparse code p id rfl)

section Example

open WhaleMas.SessionRuns WhaleMas.AuditReports

/-- The payload that a request was answered. -/
def payloadOf : Prog ApiOp ApiAnswer (Option Response) → Option Payload
  | .ret (some ⟨_, .payload p, _⟩) => some p
  | _ => none

lemma ret_of_payloadOf {q : Prog ApiOp ApiAnswer (Option Response)} {p : Payload}
    (h : payloadOf q = some p) : ∃ code id, q = .ret (some ⟨code, .payload p, id⟩) := by
  unfold payloadOf at h
  split at h
  · obtain rfl := Option.some.inj h
    exact ⟨_, _, rfl⟩
  · cases h

lemma uploaded_answers : (run (server (fun _ => 0) langGraph)
    (uploadedApp (.listEvidence 3)) uploadCalls).map
      (fun σ => (payloadOf (σ.prog 1)).isSome) = some true := by
  decide

theorem answers_kept_uploaded : ∃ σ p, run (server (fun _ => 0) langGraph)
    (uploadedApp (.listEvidence 3)) uploadCalls = some σ ∧ payloadOf (σ.prog 1) = some p ∧
    Tells (asksToDelete (createUploadThen (.listEvidence 3)))
      (.uploadEvidence 3 textUpload .other none none) p σ.world.1 := by
  obtain ⟨σ, hσ, hsome⟩ := Option.map_eq_some_iff.mp uploaded_answers
  obtain ⟨p, hp⟩ := Option.isSome_iff_exists.mp hsome
  obtain ⟨code, id, hi⟩ := ret_of_payloadOf hp
  exact ⟨σ, p, hσ, hp, answers_kept textApp (createUploadThen (.listEvidence 3)) holding_empty
    (fun _ => none) (reach_of_run .refl (fun _ _ _ _ => trivial) hσ) hi rfl⟩

end Example

/-! ### Reads after writes -/

/-- The calls of session `i` do not say by themselves that a row is missing. -/
def silent (i : ι) : ι → Op → Exn → Prop := fun j _ e =>
  j = i → ∀ d, e = .domain d → d.code ≠ evidenceNotFound.code

/-- What a request says of a row that is there when it begins and that nobody asks to
delete. -/
lemma reads_say {fails : ι → Op → Exn → Prop} (app : App) {incoming : ι → Incoming}
    (h₀ : Holding w₀) {threads : Threads} {i : ι}
    {σ τ : Conf ι (World ι × Threads) ApiOp ApiAnswer (Option Response)}
    (hσ : Reach (server hashtext engine) (fun _ j o c => j ≠ i ∧ Within fails j o c)
      (atStart app incoming w₀ threads) σ)
    (hτ : Reach (server hashtext engine) (fun _ => Within fails) σ τ) {r : Evidence}
    (hr : r ∈ σ.world.1.evidence) (hkeep : ∀ j, ¬ asksToDelete incoming j r.id)
    {response : Option Response} (hi : τ.prog i = .ret response) :
    ∃ g, Says (asksToDelete incoming) fails (fun s => s = r) i (incoming i) response
      (τ.world.1, g) := by
  obtain ⟨hprog, htxn⟩ := untouched (fun o c h => h.1 rfl) hσ
  obtain ⟨g, ⟨hinv, hsafe⟩, -⟩ := (ruled_start h₀).later (hσ.mono fun _ _ _ _ h => h.2)
  have hknown : ∀ s, s = r → ∀ j, ¬ asksToDelete incoming j s.id := by
    rintro s rfl
    exact hkeep
  have hbegin : Safe (recorded hashtext engine notePlaced) (apiRules (asksToDelete incoming) fails)
      i (fun response w => Says (asksToDelete incoming) fails (fun s => s = r) i (incoming i)
        response (rows w)) (σ.prog i) (σ.world, g) := by
    rw [hprog]
    refine triple_says hknown (fun caseId u h => ⟨caseId, h⟩) _ hinv ⟨?_, ?_⟩
    · change (σ.world.1.txn i).evidence = [] ∧ (σ.world.1.txn i).deleted = []
      rw [htxn]
      simp [atStart, h₀.txn i]
    · rintro s rfl
      exact ⟨s, hr, .refl s⟩
  have hall : ∀ j, Safe (recorded hashtext engine notePlaced)
      (apiRules (asksToDelete incoming) fails) j (fun response w => j = i →
        Says (asksToDelete incoming) fails (fun s => s = r) j (incoming j) response (rows w))
      (σ.prog j) (σ.world, g) := fun j => by
    by_cases hj : j = i
    · subst hj
      exact hbegin.imp hinv fun _ _ _ h _ => h
    · exact (hsafe j).imp hinv fun _ _ _ _ h => absurd h hj
  obtain ⟨g', hrun⟩ := reach_recording (noteWithin notePlaced) g hτ
  have hstable : ∀ j response, Stable (apiRules (asksToDelete incoming) fails) j fun w => j = i →
      Says (asksToDelete incoming) fails (fun s => s = r) j (incoming j) response (rows w) :=
    fun j response w v h hw hwv hv hj => stable_outer stable_says w v (h hj) hw hwv hv
  have hends := safe_reach hstable ?_ ?_ hrun
  · exact ⟨g', post_of_safe (σ := ⟨(τ.world, g'), τ.prog⟩) hends.2 hi rfl⟩
  · exact hinv
  · exact hall

/-- **Reads find what is there**: a row that is there before a request begins, and that nobody
asks to delete, is in the list that the request is answered, and is the row that it is answered
by its identifier; unless one of its own calls says so, such a request is never told that the
row is missing. -/
theorem reads_find (app : App) (incoming : ι → Incoming) (h₀ : Holding w₀) (threads : Threads)
    {i : ι} {σ τ : Conf ι (World ι × Threads) ApiOp ApiAnswer (Option Response)}
    (hσ : Reach (server hashtext engine) (fun _ j _ _ => j ≠ i)
      (atStart app incoming w₀ threads) σ)
    (hτ : Reach (server hashtext engine) (fun _ _ _ _ => True) σ τ) {r : Evidence}
    (hr : r ∈ σ.world.1.evidence) (hkeep : ∀ j, ¬ asksToDelete incoming j r.id) :
    ((incoming i).request.parse = some (.listEvidence r.caseId) → ∀ code l id,
      τ.prog i = .ret (some ⟨code, .payload (.evidences l), id⟩) → ∃ s ∈ l, Like r s) ∧
    ((incoming i).request.parse = some (.getEvidence r.caseId r.id) →
      (∀ code e id, τ.prog i = .ret (some ⟨code, .payload (.evidence e), id⟩) → Like r e) ∧
      (Reach (server hashtext engine) (fun _ => Within (silent i)) σ τ → ∀ code detail id,
        τ.prog i = .ret (some ⟨code, .error detail, id⟩) →
          detail.code ≠ evidenceNotFound.code)) := by
  have hσany : Reach (server hashtext engine) (fun _ j o c => j ≠ i ∧ Within anything j o c)
      (atStart app incoming w₀ threads) σ := hσ.mono fun _ _ _ _ h => ⟨h, fun _ _ _ _ => trivial⟩
  have hτany : Reach (server hashtext engine) (fun _ => Within anything) σ τ :=
    hτ.mono fun _ _ _ _ _ _ _ _ _ => trivial
  refine ⟨fun hparse code l id hi => ?_, fun hparse => ⟨fun code e id hi => ?_,
    fun hsilent code detail id hi hcode => ?_⟩⟩
  · obtain ⟨g, h⟩ := reads_say app h₀ hσany hτany hr hkeep hi
    exact (h.truthful _ hparse code _ id rfl).1 r rfl rfl
  · obtain ⟨g, h⟩ := reads_say app h₀ hσany hτany hr hkeep hi
    exact (h.truthful _ hparse code _ id rfl).1.2 r rfl rfl rfl
  · -- the calls before the request began are not its own
    have hσsilent : Reach (server hashtext engine)
        (fun _ j o c => j ≠ i ∧ Within (silent i) j o c) (atStart app incoming w₀ threads) σ :=
      hσ.mono fun _ _ _ _ h => ⟨h, fun _ _ _ _ hj => absurd hj h⟩
    obtain ⟨g, h⟩ := reads_say app h₀ hσsilent hsilent hr hkeep hi
    rcases h.missed _ _ hparse code detail id rfl hcode with ⟨o, d, hd, hc⟩ | hno
    · exact hd rfl d rfl hc
    · exact hno r rfl rfl rfl

section Example

open WhaleMas.SessionRuns WhaleMas.AuditReports

/-- The rows that a request was answered. -/
def evidencesOf : Payload → Option (List Evidence)
  | .evidences l => some l
  | _ => none

lemma eq_of_evidencesOf {p : Payload} {l : List Evidence} (h : evidencesOf p = some l) :
    p = .evidences l := by
  cases p with
  | evidences l' => exact congrArg Payload.evidences (Option.some.inj h)
  | _ => cases h

lemma uploaded_lists : ((run (server (fun _ => 0) langGraph)
    (uploadedApp (.listEvidence 3)) uploadCalls).bind fun σ =>
      (run (server (fun _ => 0) langGraph) σ (quietCalls 2 300 4)).map fun τ =>
        (σ.world.1.evidence.map Evidence.caseId,
          ((payloadOf (τ.prog 2)).bind evidencesOf).isSome)) = some ([3], true) := by
  decide

omit [DecidableEq ι] [Fintype ι] in
lemma session_quietCalls {first n : ℕ} {s : ι × Choice × Draw} (h : s ∈ quietCalls i first n) :
    s.1 = i := by
  simp only [quietCalls, calls, List.map_map, List.mem_map] at h
  obtain ⟨k, -, rfl⟩ := h
  rfl

/-- No request asks to delete anything. -/
lemma not_asksToDelete_listing (j : Fin 3) (u : Uuid) :
    ¬ asksToDelete (createUploadThen (.listEvidence 3)) j u := by
  rintro ⟨caseId, h⟩
  fin_cases j <;> cases h

theorem reads_find_uploaded : ∃ σ τ r l, run (server (fun _ => 0) langGraph)
    (uploadedApp (.listEvidence 3)) uploadCalls = some σ ∧
    run (server (fun _ => 0) langGraph) σ (quietCalls 2 300 4) = some τ ∧
    r ∈ σ.world.1.evidence ∧ payloadOf (τ.prog 2) = some (.evidences l) ∧
    ∃ s ∈ l, Like r s := by
  obtain ⟨σ, hσ, hτmap⟩ := Option.bind_eq_some_iff.mp uploaded_lists
  obtain ⟨τ, hτ, hends⟩ := Option.map_eq_some_iff.mp hτmap
  obtain ⟨r, hr, hcase⟩ := List.map_eq_singleton_iff.mp (congrArg Prod.fst hends)
  obtain ⟨l, hl⟩ := Option.isSome_iff_exists.mp (congrArg Prod.snd hends)
  obtain ⟨p, hp, hpl⟩ := Option.bind_eq_some_iff.mp hl
  obtain rfl := eq_of_evidencesOf hpl
  obtain ⟨code, id, hi⟩ := ret_of_payloadOf hp
  have hmem : r ∈ σ.world.1.evidence := by simp [hr]
  refine ⟨σ, τ, r, l, hσ, hτ, hmem, hp, (reads_find textApp (createUploadThen (.listEvidence 3))
    holding_empty (fun _ => none) (i := 2) (reach_of_run .refl (fun s hs _ o => ?_) hσ)
    (reach_of_run .refl (fun _ _ _ _ => trivial) hτ) hmem
    fun j => not_asksToDelete_listing j r.id).1 (by rw [hcase]; rfl) code l id hi⟩
  rcases List.mem_append.mp hs with hs | hs
  · rw [session_quietCalls hs]
    decide
  · rw [session_quietCalls hs]
    decide

end Example

end WhaleMas.KeptRuns
