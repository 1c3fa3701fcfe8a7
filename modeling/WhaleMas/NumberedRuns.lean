import WhaleMas.AuditReports
import WhaleMas.RequestEnds

/-!
Runs of the HTTP interface with a record of who drew which number: no two cases ever have the
same identifier or number, and a case that was answered is there.
-/

namespace WhaleMas.NumberedRuns

open WhaleMas.Models WhaleMas.Program WhaleMas.RelyGuarantee WhaleMas.Beside WhaleMas.Database
open WhaleMas.Services WhaleMas.WorkflowService WhaleMas.Api WhaleMas.ApiRuns
open WhaleMas.Numbering WhaleMas.RequestEnds

variable {ι : Type} [DecidableEq ι] [Fintype ι] {hashtext : String → ℤ} {engine : Engine}
  {w₀ : World ι} {fails : ι → Op → Exn → Prop} {i : ι} {app : App} {E : Exn → Prop}

/-! ### Requests -/

/-- The calls that look leave a session without a case of its own. -/
lemma triple_looks (o : Op) (ho : Looks o) :
    Triple (numbers hashtext) (rules w₀ fails) i (Idle i) (.call o) fun _ => Idle i := by
  have hd : ∀ w, Demand w i o := no_demand fun row h => by subst h; exact ho
  refine triple_call stable_idle (fun w _ _ => hd w) fun w c r v hw hidle _ hp => ?_
  obtain ⟨hv, hrely, -⟩ := keeps_step hw (hd w) hp
  refine ⟨hv, hrely, ?_⟩
  obtain ⟨heffect, -⟩ := perform_numbers hp
  obtain ⟨v, g⟩ := v
  cases heffect with
  | nothing | uuid4 => exact hidle
  | close => simp [Idle]
  | _ => exact ho.elim

/-- How a request that the services handle is served. -/
def Served (E : Exn → Prop) (endpoint : Endpoint) (r : Except Exn Payload)
    (w : World ι × Drawn ι) : Prop :=
  endpoint.request ≠ none → (∀ e, r = .error e → E e) ∧ ∀ c, r = .ok (.case c) → Stored c w

omit [DecidableEq ι] [Fintype ι] in
lemma served_of_ended {endpoint : Endpoint} {r : Except Exn Services.Result}
    {w : World ι × Drawn ι} (h : Ended E r w) :
    Served E endpoint (Except.map Payload.ofResult r) w := by
  refine fun _ => ⟨fun e he => ?_, fun c hc => ?_⟩
  · cases r with
    | ok a => cases he
    | error x =>
      obtain rfl := Except.error.inj he
      exact h.raised x rfl
  · match r with
    | .ok (.case d) =>
      obtain rfl := Payload.case.inj (Except.ok.inj hc)
      exact h.stored d rfl
    | .ok (.evidence r) => cases hc
    | .ok .deleted => cases hc
    | .error e => cases hc

lemma triple_served (hdb : ∀ o, ¬ Storing o → ∀ e, fails i o e → E e) {endpoint : Endpoint}
    (hcovers : ∀ request, endpoint.request = some request → Covers E app fails i request) :
    Triple (recorded hashtext engine noteDrawn) (outer (rules w₀ fails) rows Prod.fst) i
      (fun w => Idle i (rows w)) (serve app endpoint)
      fun r w => Served E endpoint r (rows w) := by
  cases h : endpoint.request with
  | none =>
    refine triple_conseq (triple_serve_look h (triple_of_calls (calls_look app endpoint h)
      (triple_asks (extends_recorded noteDrawn) stable_idle triple_looks))) (fun _ _ h => h) ?_
    exact fun _ _ _ _ hne => absurd h hne
  | some request =>
    refine triple_serve_request h (triple_conseq (triple_inner (extends_recorded noteDrawn)
      (triple_handle hdb (hcovers request h))) (fun _ _ h => h) ?_)
    exact fun _ _ _ hended => served_of_ended hended

/-! ### Every run -/

/-- No session has begun, and the cases that are there have identifiers and numbers of their
own, made from no value that the sequence has yet to give. -/
structure Numbered (w : World ι) : Prop where
  txn : ∀ i, w.txn i = {}
  ids : ∀ c ∈ w.cases, w.owner c.id ≠ .fresh
  later : ∀ c ∈ w.cases, ∀ n, HasNumber n c → n ≤ w.sequence
  distinct : w.cases.Pairwise Apart

omit [DecidableEq ι] [Fintype ι] in
lemma Numbered.inv (h : Numbered w₀) : Inv w₀ (w₀, fun _ => none) where
  grows := le_rfl
  drawn := fun n i hn => by cases hn
  ids := h.ids
  later := h.later
  numbered := fun c hc => .inl ⟨c, hc, rfl, rfl⟩
  pending := fun i c hc => by
    change c ∈ (w₀.txn i).cases at hc
    rw [h.txn i] at hc
    cases hc
  one := fun i => by
    change (w₀.txn i).cases.length ≤ 1
    simp [h.txn i]
  distinct := h.distinct

omit [DecidableEq ι] [Fintype ι] in
lemma numbered_empty : Numbered (World.empty : World ι) :=
  ⟨fun _ => rfl, fun _ h => (by cases h), fun _ h => (by cases h), .nil⟩

/-- A case that is answered to a creation or an update is there. -/
def Told (incoming : Incoming) (response : Option Response) (w : World ι × Drawn ι) : Prop :=
  ∀ endpoint, incoming.request.parse = some endpoint → endpoint.request ≠ none →
    ∀ code c requestId, response = some ⟨code, .payload (.case c), requestId⟩ → Stored c w

omit [DecidableEq ι] [Fintype ι] in
lemma told_conclude {incoming : Incoming} {endpoint : Endpoint} {requestId : String}
    {r : Except Exn Payload} {w : World ι × Drawn ι}
    (hparse : incoming.request.parse = some endpoint) (h : Served E endpoint r w) :
    Told incoming (conclude endpoint requestId r) w := by
  intro endpoint' hparse' hne code c id hresponse
  obtain rfl := Option.some.inj (hparse.symm.trans hparse')
  match r with
  | .ok p =>
    obtain ⟨-, hp, -⟩ := Response.mk.inj (Option.some.inj hresponse)
    obtain rfl := Body.payload.inj hp
    exact (h hne).2 c rfl
  | .error (.domain e) => simp [conclude, domainErrorHandler] at hresponse
  | .error .integrity | .error (.sqlalchemy _) | .error (.other _) | .error .cancelled =>
    simp [conclude, unexpected, unexpectedErrorHandler, Exn.isException] at hresponse

omit [DecidableEq ι] [Fintype ι] in
lemma told_error {incoming : Incoming} {code : ℕ} {detail : ErrorDetail}
    {header : Option String} {w : World ι × Drawn ι} :
    Told incoming (some ⟨code, .error detail, header⟩) w := by
  intro _ _ _ _ _ _ h
  cases h

/-- Calls may raise anything. -/
def anyFailure : ι → Op → Exn → Prop := fun _ _ _ => True

lemma triple_told (incoming : Incoming) :
    Triple (recorded hashtext engine noteDrawn) (outer (rules w₀ anyFailure) rows Prod.fst) i
      (fun w => Idle i (rows w)) (respond app incoming)
      fun response w => Told incoming response (rows w) := by
  have hdraw : Triple (recorded hashtext engine noteDrawn)
      (outer (rules w₀ anyFailure) rows Prod.fst) i (fun w => Idle i (rows w))
      (.call (.inl .uuid4)) fun _ w => Idle i (rows w) :=
    triple_asks (extends_recorded noteDrawn) stable_idle triple_looks (.inl .uuid4) trivial
  have hanything : ∀ request, Covers (fun _ => True) app anyFailure i request := by
    intro request
    cases request with
    | upload => exact ⟨⟨trivial, fun _ _ => trivial, fun _ _ _ => trivial, trivial⟩,
        fun _ _ _ _ _ => trivial, fun _ _ _ _ => trivial⟩
    | delete => exact ⟨⟨trivial, trivial⟩, fun _ _ _ => trivial⟩
    | createCase => trivial
    | updateCase => exact ⟨trivial, fun _ => trivial⟩
  refine triple_respond hdraw (fun _ endpoint _ => triple_served (E := fun _ => True)
    (fun _ _ _ _ => trivial) fun request _ => hanything request) ?_ ?_ ?_
  · intro e w _ _
    unfold unexpected
    split_ifs
    · exact told_error
    · exact fun _ _ _ _ _ _ h => by cases h
  · exact fun _ _ _ _ _ => told_error
  · exact fun endpoint requestId r w _ _ hparse h => told_conclude hparse h

omit [DecidableEq ι] [Fintype ι] in
lemma stable_told (incoming : Incoming) (response : Option Response) :
    Stable (outer (rules w₀ fails) rows Prod.fst :
      Rules ι (Recorded ι (Drawn ι)) (Choice × Draw) ApiOp) i
      fun w => Told incoming response (rows w) :=
  stable_outer fun _ _ h _ hr _ endpoint hparse hne code c id hresponse =>
    Rely.stays hr c (h endpoint hparse hne code c id hresponse)

/-- **Numbers of cases are never given twice**: in every run of the interface, whatever calls
fail, the cases differ in their identifiers and in their numbers, a new one has the number of a
value that the sequence gave in the run, no insert of a case is refused or has to wait, and a
case that was answered to a creation or an update stays there with its number. -/
theorem case_numbers (app : App) (incoming : ι → Incoming) (h₀ : Numbered w₀) (threads : Threads)
    {σ : Conf ι (World ι × Threads) ApiOp ApiAnswer (Option Response)}
    (hσ : Reach (server hashtext engine) (fun _ _ _ _ => True)
      ⟨(w₀, threads), fun i => respond app (incoming i)⟩ σ) :
    σ.world.1.cases.Pairwise (fun c d => c.id ≠ d.id ∧ c.caseNo ≠ d.caseNo) ∧
    (∀ c ∈ σ.world.1.cases, (∃ b ∈ w₀.cases, b.id = c.id ∧ b.caseNo = c.caseNo) ∨
      ∃ n t, w₀.sequence < n ∧ n ≤ σ.world.1.sequence ∧ c.caseNo = formatCaseNo n t) ∧
    (∀ i row k c, σ.prog i = .op (.inl (.createCase row)) k → c.1.fault = .none →
      ∃ v, (server hashtext engine).perform (.inl (.createCase row)) i c σ.world =
        some (.ok (row c.1.now), v)) ∧
    ∀ i endpoint, (incoming i).request.parse = some endpoint → endpoint.request ≠ none →
      ∀ code c id, σ.prog i = .ret (some ⟨code, .payload (.case c), id⟩) →
        ∃ d ∈ σ.world.1.cases, d.id = c.id ∧ d.caseNo = c.caseNo := by
  obtain ⟨g, hrun⟩ := reach_recording (noteWithin noteDrawn) (fun _ => none) hσ
  have hbegin : (outer (rules w₀ anyFailure) rows Prod.fst : Rules ι (Recorded ι (Drawn ι))
    (Choice × Draw) ApiOp).inv ((w₀, threads), fun _ => none) := h₀.inv
  obtain ⟨hinv, hsafe⟩ := safe_reach (fun i response => stable_told (incoming i) response) hbegin
    (fun i => triple_told (incoming i) _ hbegin (by
      change (w₀.txn i).cases = []
      simp [h₀.txn i]))
    (hrun.mono fun _ _ _ _ _ _ _ _ _ => trivial)
  change Inv w₀ (σ.world.1, g) at hinv
  refine ⟨hinv.distinct, fun c hc => ?_, fun i row k c hi hfault => ?_,
    fun i endpoint hparse hne code c id hi => ?_⟩
  · rcases hinv.numbered c hc with hold | ⟨n, i, hn, t, ht⟩
    · exact .inl hold
    · obtain ⟨hlt, hle⟩ := hinv.drawn n i hn
      exact .inr ⟨n, t, hlt, hle, ht⟩
  · have hd := demand_of_safe (σ := ⟨(σ.world, g), σ.prog⟩) hinv hsafe hi (.createCase row) rfl
    obtain ⟨hidle, hmine⟩ := hd row rfl
    have hgoes := insert_goes hinv hidle (hmine c.1.now)
    have hperform : perform hashtext (.createCase row) i c.1 σ.world.1 =
        execCreateCase (row c.1.now) i σ.world.1 := by
      simp only [perform, hfault]
      rfl
    exact ⟨_, Option.map_eq_some_iff.mpr ⟨_, hperform.trans hgoes, rfl⟩⟩
  · exact post_of_safe (σ := ⟨(σ.world, g), σ.prog⟩) hsafe hi endpoint hparse hne code c id rfl

section Example

open WhaleMas.SessionRuns WhaleMas.AuditReports

/-- Two clients create a case each. -/
def twoCreations : Fin 2 → Incoming
  | 0 => ⟨none, .createCase "Shipment" none none⟩
  | 1 => ⟨none, .createCase "Invoice" none none⟩

def twoCreationsApp : Conf (Fin 2) (World (Fin 2) × Threads) ApiOp ApiAnswer (Option Response) :=
  ⟨(World.empty, fun _ => none), fun i => respond textApp (twoCreations i)⟩

/-- The second session draws its number and inserts its case while the first one has its own
not committed yet. -/
lemma twoCreations_runs : (run (server (fun _ => 0) langGraph) twoCreationsApp
    (quietCalls 0 0 5 ++ quietCalls 1 100 5 ++ quietCalls 0 5 7 ++ quietCalls 1 105 7)).map
      (fun σ => σ.world.1.cases.map Case.id) = some [3, 103] := by
  decide

theorem case_numbers_twoCreations : ∃ σ, run (server (fun _ => 0) langGraph)
    twoCreationsApp (quietCalls 0 0 5 ++ quietCalls 1 100 5 ++ quietCalls 0 5 7 ++
      quietCalls 1 105 7) = some σ ∧ σ.world.1.cases.length = 2 ∧
    σ.world.1.cases.Pairwise fun c d => c.id ≠ d.id ∧ c.caseNo ≠ d.caseNo := by
  obtain ⟨σ, hσ, hids⟩ := Option.map_eq_some_iff.mp twoCreations_runs
  refine ⟨σ, hσ, by simpa using congrArg List.length hids, ?_⟩
  exact (case_numbers textApp twoCreations numbered_empty (fun _ => none)
    (reach_of_run .refl (fun _ _ _ _ => trivial) hσ)).1

end Example

end WhaleMas.NumberedRuns
