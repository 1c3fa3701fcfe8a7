import WhaleMas.WorkflowLedger

/-!
Requests racing for one thread. A request checks its decision against a snapshot of the
thread and then hands it to the thread as it is by then. Nothing holds the two parts
together, so a decision can reach another pause than the one it was checked against. It
reaches its own pause exactly when no other request was handed over in between.
-/

namespace WhaleMas.ConcurrentResume

open WhaleMas.Models WhaleMas.StateGraph WhaleMas.CaseGraph WhaleMas.WorkflowService
open WhaleMas.WorkflowRuns WhaleMas.WorkflowStates WhaleMas.WorkflowLedger

/-! ### Interleaved requests -/

/-- How far a request has come. `seen` is how many decisions had been handed to the thread
when its snapshot was taken. -/
inductive Phase
  | waiting
  | validated (snapshot : Thread) (decision : Decision) (seen : ℕ)
  | ended

/-- A decision handed to the thread, with the snapshot it was checked against. -/
structure Act where
  snapshot : Thread
  decision : Decision
  before : Thread
  after : Thread
  outcome : Except ServiceError WorkflowResponse

structure Server (ι : Type) where
  thread : Thread
  phase : ι → Phase
  acts : List Act

section Server

variable {ι : Type} [DecidableEq ι] (engine : Engine) (threadId : Uuid)
  (requests : ι → Request)

/-- The next step of request `i`: `aget_state` and the check, then `ainvoke`. -/
def step (σ : Server ι) (i : ι) : Server ι :=
  match σ.phase i with
  | .waiting =>
    match validate σ.thread (requests i) with
    | .error _ => { σ with phase := Function.update σ.phase i .ended }
    | .ok decision =>
      let validated := .validated σ.thread decision σ.acts.length
      { σ with phase := Function.update σ.phase i validated }
  | .validated snapshot decision _ =>
    let after := act engine σ.thread decision
    { thread := after.1
      phase := Function.update σ.phase i .ended
      acts := σ.acts ++ [⟨snapshot, decision, σ.thread, after.1, respond threadId after⟩] }
  | .ended => σ

/-- The server after the requests took their steps in the order of a schedule. -/
def run (thread : Thread) (schedule : List ι) : Server ι :=
  schedule.foldl (step engine threadId requests) ⟨thread, fun _ => .waiting, []⟩

@[simp] lemma run_nil (thread : Thread) :
    run engine threadId requests thread [] = ⟨thread, fun _ => .waiting, []⟩ := rfl

@[simp] lemma run_snoc (thread : Thread) (schedule : List ι) (i : ι) :
    run engine threadId requests thread (schedule ++ [i]) =
      step engine threadId requests (run engine threadId requests thread schedule) i := by
  simp [run]

end Server

/-! ### What is asked of a run -/

def reviewRound : Interrupt → ℕ
  | .caseAnalysisReview _ _ _ reviewRound _ _ => reviewRound
  | .evidenceRequired _ _ reviewRound _ => reviewRound

/-- The pause of a thread: the type of its interrupt and the round. -/
def pause (c : Thread) : Option (String × ℕ) := c.interrupt.map fun v => (v.type, reviewRound v)

/-- The decision is accepted, recorded and routed at the pause the thread stood at. -/
def Applied (a : Act) : Prop :=
  (∃ r, a.outcome = .ok r) ∧ ∃ s cfg cfg' s', a.before = checkpointOf cfg s ∧
    a.after = checkpointOf cfg' s' ∧ Answered s a.decision cfg cfg' s'

/-- The decision is refused and leaves the thread as it is. -/
def Refused (a : Act) : Prop := (∃ e, a.outcome = .error (.domain e)) ∧ a.after = a.before

/-- Every decision is applied at the pause it was checked against, or refused when that pause
is gone; no pause is consumed twice; and no node raises. -/
structure Faithful {ι : Type} (σ : Server ι) : Prop where
  acts : ∀ a ∈ σ.acts, if pause a.before = pause a.snapshot then Applied a else Refused a
  once : σ.acts.Pairwise fun a b => (∃ r, a.outcome = .ok r) → (∃ r, b.outcome = .ok r) →
    pause a.before ≠ pause b.before
  noRaise : ∀ a ∈ σ.acts, ∀ e, a.outcome ≠ .error (.graph e)

/-- If request `i` is about to hand over its decision, none was handed over since its
snapshot. -/
def Fresh {ι : Type} (σ : Server ι) (i : ι) : Prop :=
  ∀ snapshot decision seen, σ.phase i = .validated snapshot decision seen →
    seen = σ.acts.length

/-- Between the snapshot of a request and its own hand-over comes no other hand-over. -/
def Undisturbed {ι : Type} [DecidableEq ι] (engine : Engine) (threadId : Uuid)
    (requests : ι → Request) (thread : Thread) (schedule : List ι) : Prop :=
  ∀ pre i post, schedule = pre ++ i :: post → Fresh (run engine threadId requests thread pre) i

/-! ### Pauses come once -/

/-- A number that grows with every answer. -/
def level (cfg : Config) (s : Filled) : ℕ :=
  2 * s.reviewRound + match cfg with
    | .review => 0
    | .evidence => 1
    | .completed => 2
    | .cancelled => 2

lemma level_lt {cfg cfg' : Config} {s s' : Filled} {d : Decision}
    (h : Answered s d cfg cfg' s') : level cfg s < level cfg' s' := by
  cases h with
  | evidenceReady => simp [level]; omega
  | approve | reanalyze | limit | requestEvidence | cancel => simp [level]

/-- A pause on a lower level is another pause. -/
lemma pause_ne {cfg cfg' : Config} {s s' : Filled} (hcfg : cfg.next ≠ none)
    (h : level cfg s < level cfg' s') :
    pause (checkpointOf cfg' s') ≠ pause (checkpointOf cfg s) := by
  intro he
  cases cfg <;> cases cfg' <;>
    simp_all [pause, checkpointOf, Config.interrupt, Config.next, Interrupt.type, reviewRound,
      level]

/-! ### A stale decision is never refused -/

def NoDomain {α : Type} (x : Except ServiceError α) : Prop := ∀ e, x ≠ .error (.domain e)

lemma noDomain_field {α : Type} (key : String) (o : Option α) : NoDomain (field key o) := by
  intro e
  cases o <;> simp [field]

lemma noDomain_bind {α β : Type} {x : Except ServiceError α} {f : α → Except ServiceError β}
    (hx : NoDomain x) (hf : ∀ a, NoDomain (f a)) : NoDomain (x >>= f) := by
  intro e h
  cases x with
  | error e' => cases h; exact hx e rfl
  | ok a => exact hf a e h

lemma noDomain_toResponse (threadId : Uuid) (c : Thread) : NoDomain (toResponse threadId c) := by
  unfold toResponse
  iterate 9 refine noDomain_bind (noDomain_field _ _) fun _ => ?_
  intro e h
  cases h

lemma noDomain_respond (threadId : Uuid) (after : Thread × Option (Failure NodeError)) :
    NoDomain (respond threadId after) := by
  unfold respond
  split
  · intro e h
    cases h
  · exact noDomain_toResponse _ _

/-! ### Undisturbed runs -/

section Runs

variable {ι : Type} {σ : Server ι} {cfg : Config} {s : Filled}

/-- A validated phase has its snapshot from the thread as it is, or from a lower level if
there was a hand-over since. -/
def PhaseCalm (cfg : Config) (s : Filled) (count : ℕ) (p : Phase) : Prop :=
  ∀ snapshot d seen, p = .validated snapshot d seen → ∃ cfg₀ s₀,
    snapshot = checkpointOf cfg₀ s₀ ∧ (∃ next, answer s₀ d cfg₀ = some next) ∧
    (seen = count ∧ cfg₀ = cfg ∧ s₀ = s ∨ seen < count ∧ level cfg₀ s₀ < level cfg s)

/-- What holds after an undisturbed run. -/
structure Calm (cfg : Config) (s : Filled) (σ : Server ι) : Prop where
  thread : σ.thread = checkpointOf cfg s
  validated : ∀ i, PhaseCalm cfg s σ.acts.length (σ.phase i)
  acts : ∀ a ∈ σ.acts, Applied a ∧ pause a.before = pause a.snapshot ∧
    ∃ cfg₀ s₀, a.before = checkpointOf cfg₀ s₀ ∧ cfg₀.next ≠ none ∧ level cfg₀ s₀ < level cfg s
  once : σ.acts.Pairwise fun a b => pause a.before ≠ pause b.before

lemma Calm.faithful (h : Calm cfg s σ) : Faithful σ where
  acts := fun a ha => by
    obtain ⟨happ, hp, -⟩ := h.acts a ha
    rwa [if_pos hp]
  once := h.once.imp fun hne _ _ => hne
  noRaise := fun a ha e he => by
    obtain ⟨⟨⟨r, hr⟩, -⟩, -⟩ := h.acts a ha
    rw [hr] at he
    cases he

lemma PhaseCalm.update [DecidableEq ι] {count : ℕ} {phase : ι → Phase} {i : ι} {p : Phase}
    (hp : PhaseCalm cfg s count p) (h : ∀ j, j ≠ i → PhaseCalm cfg s count (phase j)) :
    ∀ j, PhaseCalm cfg s count (Function.update phase i p j) := by
  intro j
  by_cases hji : j = i
  · subst hji
    rwa [Function.update_self]
  · rw [Function.update_of_ne hji]
    exact h j hji

lemma phaseCalm_ended {count : ℕ} : PhaseCalm cfg s count .ended := by
  intro _ _ _ h
  cases h

/-- A hand-over leaves every other snapshot on a lower level. -/
lemma PhaseCalm.later {count : ℕ} {p : Phase} {cfg' : Config} {s' : Filled}
    (h : PhaseCalm cfg s count p) (hlt : level cfg s < level cfg' s') :
    PhaseCalm cfg' s' (count + 1) p := by
  intro snapshot d seen hp
  obtain ⟨cfg₀, s₀, hs, hans, ⟨rfl, rfl, rfl⟩ | ⟨hseen, hlt₀⟩⟩ := h snapshot d seen hp
  · exact ⟨cfg₀, s₀, hs, hans, .inr ⟨by omega, hlt⟩⟩
  · exact ⟨cfg₀, s₀, hs, hans, .inr ⟨by omega, by omega⟩⟩

variable [DecidableEq ι] {engine : Engine} {threadId : Uuid} {requests : ι → Request}

/-- A check takes a snapshot of the thread, or refuses the request. -/
lemma calm_check {i : ι} (h : Calm cfg s σ) (hi : σ.phase i = .waiting) :
    Calm cfg s (step engine threadId requests σ i) := by
  have hv : validate σ.thread (requests i) = _ := h.thread ▸ validate_checkpointOf
  unfold step
  rw [hi]
  simp only [hv]
  by_cases hmem : (requests i).data.resolvedDecision ∈ cfg.actions
  · rw [if_pos hmem]
    refine ⟨h.thread, PhaseCalm.update ?_ fun j _ => h.validated j, h.acts, h.once⟩
    rintro snapshot d seen ⟨⟩
    have hans := Option.isSome_iff_exists.mp ((answer_isSome (s := s)).mpr hmem)
    exact ⟨cfg, s, h.thread, hans, .inl ⟨rfl, rfl, rfl⟩⟩
  · rw [if_neg hmem]
    exact ⟨h.thread, PhaseCalm.update phaseCalm_ended fun j _ => h.validated j, h.acts, h.once⟩

/-- A fresh decision is applied at its own pause, and takes the thread to a higher level. -/
lemma calm_act {i : ι} {snapshot : Thread} {d : Decision} {seen : ℕ} (h : Calm cfg s σ)
    (hi : σ.phase i = .validated snapshot d seen) (hfresh : seen = σ.acts.length) :
    ∃ cfg' s', Calm cfg' s' (step engine threadId requests σ i) := by
  obtain ⟨cfg₀, s₀, rfl, ⟨⟨cfg', s'⟩, hans⟩, ⟨-, rfl, rfl⟩ | ⟨hlt, -⟩⟩ :=
    h.validated i _ _ _ hi
  swap
  · exact absurd hfresh (Nat.ne_of_lt hlt)
  have hup : level cfg₀ s₀ < level cfg' s' := level_lt (answered_of_answer hans)
  have hnext : cfg₀.next ≠ none := (answered_of_answer hans).next_ne_none
  refine ⟨cfg', s', ?_⟩
  unfold step
  rw [hi]
  simp only [h.thread, act_answer hans]
  refine ⟨rfl, ?_, fun a ha => ?_, ?_⟩
  · rw [List.length_append, List.length_singleton]
    exact PhaseCalm.update phaseCalm_ended fun j _ => (h.validated j).later hup
  · rcases List.mem_append.mp ha with ha | ha
    · obtain ⟨happ, hp, cfg₁, s₁, hb, hne, hlt⟩ := h.acts a ha
      exact ⟨happ, hp, cfg₁, s₁, hb, hne, hlt.trans hup⟩
    · obtain rfl := List.mem_singleton.mp ha
      exact ⟨⟨⟨_, rfl⟩, s₀, cfg₀, cfg', s', rfl, rfl, answered_of_answer hans⟩, rfl, cfg₀, s₀,
        rfl, hnext, hup⟩
  · refine List.pairwise_append.mpr ⟨h.once, by simp, fun a ha b hb => ?_⟩
    obtain rfl := List.mem_singleton.mp hb
    obtain ⟨-, -, cfg₁, s₁, hbefore, hne, hlt⟩ := h.acts a ha
    rw [hbefore]
    exact (pause_ne hne hlt).symm

/-- A step that is fresh keeps the calm. -/
lemma calm_step {i : ι} (h : Calm cfg s σ) (hfresh : Fresh σ i) :
    ∃ cfg' s', Calm cfg' s' (step engine threadId requests σ i) := by
  cases hi : σ.phase i with
  | waiting => exact ⟨cfg, s, calm_check h hi⟩
  | validated snapshot d seen => exact calm_act h hi (hfresh _ _ _ hi)
  | ended =>
    refine ⟨cfg, s, ?_⟩
    unfold step
    rw [hi]
    exact h

/-- A stale decision meets a thread beyond its pause, and is not refused. -/
lemma not_faithful_stale {i : ι} (h : Calm cfg s σ) (hstale : ¬ Fresh σ i) :
    ¬ Faithful (step engine threadId requests σ i) := by
  intro hf
  unfold Fresh at hstale
  push Not at hstale
  obtain ⟨snapshot, d, seen, hi, hseen⟩ := hstale
  obtain ⟨cfg₀, s₀, rfl, ⟨⟨cfg', s'⟩, hans⟩, ⟨hfresh, -⟩ | ⟨-, hlt⟩⟩ := h.validated i _ _ _ hi
  · exact hseen hfresh
  · set after := act engine σ.thread d
    have ha := hf.acts ⟨checkpointOf cfg₀ s₀, d, σ.thread, after.1, respond threadId after⟩
      (by unfold step; rw [hi]; simp [after])
    have hp : pause σ.thread ≠ pause (checkpointOf cfg₀ s₀) := by
      rw [h.thread]
      exact pause_ne ((answered_of_answer hans).next_ne_none) hlt
    rw [if_neg hp] at ha
    obtain ⟨⟨e, he⟩, -⟩ := ha
    exact noDomain_respond threadId after e he

/-- The acts of a run are those of its beginning and those of its last step. -/
lemma faithful_of_step {i : ι} (hf : Faithful (step engine threadId requests σ i)) :
    Faithful σ := by
  have hle : σ.acts <+: (step engine threadId requests σ i).acts := by
    unfold step
    split
    · split <;> exact List.prefix_refl _
    · exact List.prefix_append _ _
    · exact List.prefix_refl _
  exact ⟨fun a ha => hf.acts a (hle.subset ha), hf.once.sublist hle.sublist,
    fun a ha => hf.noRaise a (hle.subset ha)⟩

lemma undisturbed_snoc {thread : Thread} {schedule : List ι} {i : ι} :
    Undisturbed engine threadId requests thread (schedule ++ [i]) ↔
      Undisturbed engine threadId requests thread schedule ∧
        Fresh (run engine threadId requests thread schedule) i := by
  constructor
  · intro h
    refine ⟨fun pre j post hs => h pre j (post ++ [i]) (by simp [hs]), h schedule i [] rfl⟩
  · rintro ⟨h, hi⟩ pre j post hs
    rcases List.eq_nil_or_concat post with rfl | ⟨post, k, rfl⟩
    · obtain ⟨rfl, hij⟩ := List.append_inj' hs rfl
      obtain rfl : i = j := by simpa using hij
      exact hi
    · have hs' : schedule ++ [i] = (pre ++ j :: post) ++ [k] := by simpa using hs
      exact h pre j post (List.append_inj' hs' rfl).1

lemma calm_run {thread : Thread} (hthread : thread = checkpointOf cfg s) {schedule : List ι}
    (h : Undisturbed engine threadId requests thread schedule) :
    ∃ cfg' s', Calm cfg' s' (run engine threadId requests thread schedule) := by
  induction schedule using List.reverseRecOn with
  | nil =>
    refine ⟨cfg, s, hthread, fun i => ?_, by simp, by simp⟩
    rintro _ _ _ ⟨⟩
  | append_singleton schedule i ih =>
    obtain ⟨hu, hi⟩ := undisturbed_snoc.mp h
    obtain ⟨cfg', s', hcalm⟩ := ih hu
    rw [run_snoc]
    exact calm_step hcalm hi

lemma undisturbed_of_faithful {thread : Thread} (hthread : thread = checkpointOf cfg s)
    {schedule : List ι} (hf : Faithful (run engine threadId requests thread schedule)) :
    Undisturbed engine threadId requests thread schedule := by
  induction schedule using List.reverseRecOn with
  | nil => intro pre i post hs; simp at hs
  | append_singleton schedule i ih =>
    rw [run_snoc] at hf
    have hu := ih (faithful_of_step hf)
    refine undisturbed_snoc.mpr ⟨hu, ?_⟩
    by_contra hstale
    obtain ⟨cfg', s', hcalm⟩ := calm_run hthread hu
    exact not_faithful_stale hcalm hstale hf

end Runs

/-- **A decision reaches its own pause when nothing comes between.** On a thread that was
started and resumed in any way, concurrent requests are faithful exactly in the schedules
where no decision is handed over between the snapshot of another request and its own. -/
theorem faithful_iff_undisturbed {ι : Type} [DecidableEq ι] (engine : Engine)
    (threadId : Uuid) (case : Case) (evidence : List Evidence) (data : WorkflowStart)
    (qs : List Request) (requests : ι → Request) :
    ∃ thread, afterRequests engine threadId (start engine (some case) evidence data threadId).1 qs =
        some thread ∧
      ∀ schedule : List ι, Faithful (run engine threadId requests thread schedule) ↔
        Undisturbed engine threadId requests thread schedule := by
  obtain ⟨cfg, s, hc, -⟩ := afterRequests_induction (P := fun _ _ => True) engine case evidence
    data threadId trivial (fun _ _ _ _ _ _ _ => trivial) qs
  refine ⟨_, hc, fun schedule => ⟨undisturbed_of_faithful rfl, fun h => ?_⟩⟩
  obtain ⟨cfg', s', hcalm⟩ := calm_run rfl h
  exact hcalm.faithful

section Example

/-- A reviewer's click on re-analysis. -/
def click : Request where
  data := bare .reanalyze
  now := noon
  evidence := fun _ => []

/-- A double click: both requests take their snapshot before either is handed over. -/
def doubleClick (thread : Thread) : Server Bool :=
  run langGraph 7 (fun _ => click) thread [false, true, false, true]

/-- The second click was checked in round one and is recorded in round two. -/
theorem doubleClick_not_faithful :
    ∃ thread, (start langGraph (some sampleCase) [] overview 7).1 = some thread ∧
      (doubleClick thread).acts.map (fun a => (pause a.snapshot, pause a.before)) =
        [(some ("CASE_ANALYSIS_REVIEW", 1), some ("CASE_ANALYSIS_REVIEW", 1)),
          (some ("CASE_ANALYSIS_REVIEW", 1), some ("CASE_ANALYSIS_REVIEW", 2))] ∧
      ¬ Faithful (doubleClick thread) := by
  refine ⟨checkpointOf .review (opening sampleCase [] overview).prepared, ?_, ?_, ?_⟩
  · rw [start_eq]
  · rfl
  · intro hf
    -- when the second click is handed over, the first one has been since its snapshot
    have hseen : 0 = 1 := undisturbed_of_faithful rfl hf [false, true, false] true [] rfl _ _ 0 rfl
    omega

end Example

end WhaleMas.ConcurrentResume
