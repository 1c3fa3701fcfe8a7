import WhaleMas.WorkflowStates

/-!
The review history as a ledger: one record for each accepted request, with the round it
belongs to, and the count of the rounds.
-/

namespace WhaleMas.WorkflowLedger

open WhaleMas.Models WhaleMas.StateGraph WhaleMas.CaseGraph WhaleMas.WorkflowService
open WhaleMas.WorkflowRuns WhaleMas.WorkflowStates

/-! ### Accepted requests -/

/-- An accepted request, with the thread before and after it. -/
structure Acceptance where
  before : Thread
  request : Request
  after : Thread

def Acceptance.action (a : Acceptance) : ReviewAction := a.request.data.resolvedDecision

/-- The round a record belongs to: the one shown at a review, and the one that new evidence
opens. -/
def Acceptance.round (a : Acceptance) : ℕ :=
  match a.before.interrupt with
  | some (.caseAnalysisReview _ _ _ reviewRound _ _) => reviewRound
  | some (.evidenceRequired _ _ reviewRound _) => reviewRound + 1
  | none => 0

/-- The record of an accepted request. -/
def Acceptance.record (a : Acceptance) : ReviewRecord where
  action := a.action
  comment := a.request.data.comment
  reviewer := a.request.data.reviewer
  reviewedAt := a.request.now.isoformat
  round := a.round

/-- A re-analysis that led back to review. -/
def Acceptance.reanalyzed (a : Acceptance) : Bool :=
  a.action = .reanalyze && a.after.next = some .humanReview

/-- The request as an accepted one, if it is accepted. -/
def acceptance (engine : Engine) (threadId : Uuid) (thread : Option Thread)
    (q : Request) : List Acceptance :=
  match thread, resume engine threadId thread q with
  | some before, (some after, .ok _) => [⟨before, q, after⟩]
  | _, _ => []

/-- The accepted ones among a sequence of requests. -/
def accepted (engine : Engine) (threadId : Uuid) (thread : Option Thread)
    (qs : List Request) : List Acceptance :=
  (qs.foldl (fun p q => ((resume engine threadId p.1 q).1, p.2 ++ acceptance engine threadId p.1 q))
    (thread, ([] : List Acceptance))).2

lemma accepted_snoc (engine : Engine) (threadId : Uuid) (thread : Option Thread)
    (qs : List Request) (q : Request) :
    accepted engine threadId thread (qs ++ [q]) = accepted engine threadId thread qs ++
      acceptance engine threadId (afterRequests engine threadId thread qs) q := by
  have hfst : ∀ l : List Request, (l.foldl (fun p q => ((resume engine threadId p.1 q).1,
      p.2 ++ acceptance engine threadId p.1 q)) (thread, ([] : List Acceptance))).1 =
      afterRequests engine threadId thread l := by
    intro l
    induction l using List.reverseRecOn with
    | nil => rfl
    | append_singleton l q ih => rw [List.foldl_append, afterRequests_snoc, ← ih]; rfl
  unfold accepted
  rw [List.foldl_append, ← hfst]
  rfl

/-! ### The texts of the results differ -/

/-- The results differ in their third character. -/
lemma ne_of_third {s t : String} (h : s.toList[2]? ≠ t.toList[2]?) : s ≠ t := by
  rintro rfl
  exact h rfl

lemma limitResult_third (m : ℕ) : (limitResult m).toList[2]? = some '已' := by
  have hhead : "案件已达到最大重研次数（".toList =
      ['案', '件', '已', '达', '到', '最', '大', '重', '研', '次', '数', '（'] := by simp
  unfold limitResult
  simp only [String.toList_append, hhead, List.cons_append]
  rfl

lemma approvedResult_third (r : ℕ) : (approvedResult r).toList[2]? = some '第' := by
  have hhead : "案件第 ".toList = ['案', '件', '第', ' '] := by decide
  simp only [approvedResult, String.toList_append, hhead]
  rfl

lemma approvedResult_ne (m r : ℕ) : approvedResult r ≠ limitResult m := by
  refine ne_of_third ?_
  rw [limitResult_third, approvedResult_third]
  decide

lemma evidenceResult_ne (m : ℕ) : evidenceResult ≠ limitResult m := by
  refine ne_of_third ?_
  rw [limitResult_third]
  decide

lemma cancelledResult_ne (m : ℕ) : cancelledResult ≠ limitResult m := by
  refine ne_of_third ?_
  rw [limitResult_third]
  decide

/-! ### The ledger -/

/-- The thread was ended by a re-analysis beyond the limit. -/
def EndedAtLimit (tr : List Acceptance) : Prop :=
  ∃ a, tr.getLast? = some a ∧ a.action = .reanalyze ∧ Stands .cancelled a.after

/-- Rounds that stay or grow by one. -/
def Climbs (i j : ℕ) : Prop := i ≤ j ∧ j ≤ i + 1

/-- An accepted request did one of the answers. -/
def Faithful (a : Acceptance) : Prop :=
  ∃ s cfg cfg' s', a.before = checkpointOf cfg s ∧ a.after = checkpointOf cfg' s' ∧
    Sound cfg' s' ∧ Answered s (payload a.request s.caseId) cfg cfg' s'

structure Ledger (tr : List Acceptance) (cfg : Config) (s : Filled) : Prop where
  sound : Sound cfg s
  faithful : ∀ a ∈ tr, Faithful a
  history : s.reviewHistory = tr.map Acceptance.record
  climbs : (tr.map Acceptance.round).IsChain Climbs
  /-- The round of the last record is the current one, or the one before it. -/
  last : ∀ a, tr.getLast? = some a → a.round ≤ s.reviewRound ∧ s.reviewRound ≤ a.round + 1 ∧
    (cfg = .evidence → a.round = s.reviewRound)
  count : s.reviewRound = 1 + tr.countP (fun a => a.action = .evidenceReady) +
    tr.countP Acceptance.reanalyzed
  undecided : cfg.next ≠ none → s.result ≠ some (limitResult s.maxReviewRounds)
  limit : s.result = some (limitResult s.maxReviewRounds) ↔ EndedAtLimit tr

lemma ledger_opening (case : Case) (evidence : List Evidence) (data : WorkflowStart) :
    Ledger [] .review (opening case evidence data).prepared where
  sound := sound_opening case evidence data
  faithful := by simp
  history := rfl
  climbs := by simp
  last := by simp
  count := rfl
  undecided := by simp [opening, Filled.prepared]
  limit := by simp [opening, Filled.prepared, EndedAtLimit]

/-- The round of a record, read off the pause that was answered. -/
lemma round_checkpointOf {cfg : Config} {s : Filled} (q : Request) (c : Thread)
    (h : cfg.actions ≠ []) : (Acceptance.mk (checkpointOf cfg s) q c).round =
      if cfg = .evidence then s.reviewRound + 1 else s.reviewRound := by
  cases cfg <;> first | rfl | exact absurd rfl h

lemma stands_cancelled_iff {cfg : Config} {s : Filled} (hs : Sound cfg s) :
    Stands .cancelled (checkpointOf cfg s) ↔ cfg = .cancelled :=
  ⟨fun h => (stands_checkpointOf hs).unique h, fun h => h ▸ stands_checkpointOf hs⟩

lemma endedAtLimit_snoc {tr : List Acceptance} {a : Acceptance} :
    EndedAtLimit (tr ++ [a]) ↔ a.action = .reanalyze ∧ Stands .cancelled a.after := by
  simp [EndedAtLimit]

lemma climbs_snoc {l : List ℕ} {i : ℕ} (h : l.IsChain Climbs)
    (hi : ∀ j, l.getLast? = some j → Climbs j i) : (l ++ [i]).IsChain Climbs := by
  refine List.isChain_append.mpr ⟨h, by simp, ?_⟩
  intro x hx y hy
  obtain rfl : i = y := by simpa using hy
  exact hi x hx

/-- An answer adds its record to the ledger. -/
lemma ledger_answered {tr : List Acceptance} {cfg cfg' : Config} {s s' : Filled} {q : Request}
    (hl : Ledger tr cfg s) (h : Answered s (payload q s.caseId) cfg cfg' s') :
    Ledger (tr ++ [⟨checkpointOf cfg s, q, checkpointOf cfg' s'⟩]) cfg' s' := by
  set a : Acceptance := ⟨checkpointOf cfg s, q, checkpointOf cfg' s'⟩ with ha
  have hsound := sound_answered _ _ _ _ _ hl.sound h
  have hact : cfg.actions ≠ [] := by cases h <;> simp [Config.actions]
  have hround : a.round = if cfg = .evidence then s.reviewRound + 1 else s.reviewRound :=
    round_checkpointOf q _ hact
  have hclimbs : ∀ j, (tr.map Acceptance.round).getLast? = some j → Climbs j a.round := by
    intro j hj
    obtain ⟨b, hb, rfl⟩ := Option.map_eq_some_iff.mp (List.getLast?_map ▸ hj)
    obtain ⟨h1, h2, h3⟩ := hl.last b hb
    rw [hround]
    split_ifs with he
    · have := h3 he
      constructor <;> omega
    · constructor <;> omega
  refine {
    sound := hsound
    faithful := ?_
    history := ?_
    climbs := by rw [List.map_append]; exact climbs_snoc hl.climbs hclimbs
    last := ?_
    count := ?_
    undecided := ?_
    limit := ?_ }
  · intro b hb
    rcases List.mem_append.mp hb with hb | hb
    · exact hl.faithful b hb
    · rw [List.mem_singleton.mp hb]
      exact ⟨s, cfg, cfg', s', rfl, rfl, hsound, h⟩
  · have hrec : s'.reviewHistory = s.reviewHistory ++ [a.record] := by
      cases h <;> rfl
    rw [hrec, hl.history, List.map_append]
    rfl
  · intro b hb
    obtain rfl : a = b := by simpa using hb
    rw [hround]
    cases h <;> simp [Filled.finalized, Filled.reanalyzed, Filled.cancelled,
      Filled.evidenceRequired, Filled.prepared, Filled.supplied, Filled.reviewed]
  · have hcount := hl.count
    have hback : a.reanalyzed = true ↔ (payload q s.caseId).action = .reanalyze ∧
        cfg' = .review := by
      have hnext : a.after.next = some .humanReview ↔ cfg' = .review := by
        cases cfg' <;> simp [a, checkpointOf, Config.next]
      rw [Acceptance.reanalyzed, Bool.and_eq_true, decide_eq_true_eq, decide_eq_true_eq, hnext]
      rfl
    have haction : a.action = (payload q s.caseId).action := rfl
    rw [List.countP_append, List.countP_append, List.countP_singleton, List.countP_singleton,
      haction, h.reviewRound]
    simp only [decide_eq_true_eq, hback]
    omega
  · have hopen := hl.undecided
    cases h with
    | approve | limit | cancel => simp [Config.next]
    | reanalyze => exact fun _ => hopen (by simp [Config.next])
    | requestEvidence => exact fun _ he => evidenceResult_ne _ (Option.some.inj he)
    | evidenceReady => exact fun _ => hopen (by simp [Config.next])
  · have haction : a.action = (payload q s.caseId).action := rfl
    have hopen := hl.undecided
    rw [endedAtLimit_snoc, stands_cancelled_iff hsound, haction]
    cases h with
    | approve hd => simp [hd, approvedResult_ne]
    | reanalyze hd hr => simpa using hopen (by simp [Config.next])
    | limit hd hr => simp [hd]
    | requestEvidence hd => simp [hd, evidenceResult_ne]
    | cancel hd => simp [hd, cancelledResult_ne]
    | evidenceReady n hd hn => simpa [hd] using hopen (by simp [Config.next])

/-- The accepted requests of a run keep the ledger. -/
lemma ledger_afterRequests (engine : Engine) (case : Case) (evidence : List Evidence)
    (data : WorkflowStart) (threadId : Uuid) (qs : List Request) :
    ∃ cfg s, afterRequests engine threadId (start engine (some case) evidence data threadId).1 qs =
        some (checkpointOf cfg s) ∧
      Ledger (accepted engine threadId (start engine (some case) evidence data threadId).1 qs)
        cfg s := by
  induction qs using List.reverseRecOn with
  | nil =>
    exact ⟨_, _, by rw [afterRequests_nil, start_eq], ledger_opening case evidence data⟩
  | append_singleton qs q ih =>
    obtain ⟨cfg, s, hc, hl⟩ := ih
    rw [afterRequests_snoc, accepted_snoc, hc]
    cases h : answer s (payload q s.caseId) cfg with
    | none =>
      refine ⟨cfg, s, by rw [resume_refused h], ?_⟩
      simpa [acceptance, resume_refused h] using hl
    | some next =>
      obtain ⟨cfg', s'⟩ := next
      refine ⟨cfg', s', by rw [resume_accepted h], ?_⟩
      simpa [acceptance, resume_accepted h] using ledger_answered hl (answered_of_answer h)

/-- The history grows by the record of the request. -/
lemma Faithful.history {a : Acceptance} (h : Faithful a) :
    ∃ records, a.before.values.reviewHistory = some records ∧
      a.after.values.reviewHistory = some (records ++ [a.record]) := by
  obtain ⟨s, cfg, cfg', s', hb, ha, -, hans⟩ := h
  refine ⟨s.reviewHistory, by rw [hb]; rfl, ?_⟩
  obtain ⟨before, q, after⟩ := a
  change Answered s (payload q s.caseId) cfg cfg' s' at hans
  obtain rfl : before = checkpointOf cfg s := hb
  obtain rfl : after = checkpointOf cfg' s' := ha
  cases hans <;> rfl

/-- New evidence opens the round of its record. -/
lemma Faithful.opens {a : Acceptance} (h : Faithful a) (he : a.action = .evidenceReady) :
    a.after.values.reviewRound = some a.round := by
  obtain ⟨s, cfg, cfg', s', hb, ha, -, hans⟩ := h
  obtain ⟨before, q, after⟩ := a
  change Answered s (payload q s.caseId) cfg cfg' s' at hans
  obtain rfl : before = checkpointOf cfg s := hb
  obtain rfl : after = checkpointOf cfg' s' := ha
  have haction : (payload q s.caseId).action = .evidenceReady := he
  cases hans <;> simp_all [checkpointOf, Filled.toState, Acceptance.round, Config.interrupt]

/-- A re-analysis leads back to review below the limit, and ends the thread at it. -/
lemma Faithful.reanalyze {a : Acceptance} (h : Faithful a) (hr : a.action = .reanalyze) :
    ∃ round max, a.before.values.reviewRound = some round ∧
      a.before.values.maxReviewRounds = some max ∧
      Stands (if round < max then .review else .cancelled) a.after := by
  obtain ⟨s, cfg, cfg', s', hb, ha, hsound, hans⟩ := h
  refine ⟨s.reviewRound, s.maxReviewRounds, by rw [hb]; rfl, by rw [hb]; rfl, ?_⟩
  have hcfg : cfg' = if s.reviewRound < s.maxReviewRounds then .review else .cancelled := by
    have haction : (payload a.request s.caseId).action = .reanalyze := hr
    cases hans <;> simp_all
  rw [ha, ← hcfg]
  exact stands_checkpointOf hsound

/-- **The history is a faithful ledger.** After any requests to a started thread its history
is the list of the accepted ones, each with the round shown at its pause or opened by it; the
rounds climb by at most one; the current round counts the new evidence and the re-analyses
that led back to review; a re-analysis leads back exactly below the limit; and the text of
the limit stands exactly on the threads that a re-analysis at the limit ended. -/
theorem review_history_ledger (engine : Engine) (case : Case) (evidence : List Evidence)
    (data : WorkflowStart) (threadId : Uuid) (qs : List Request) :
    let opened := (start engine (some case) evidence data threadId).1
    let tr := accepted engine threadId opened qs
    ∃ c, afterRequests engine threadId opened qs = some c ∧
      c.values.reviewHistory = some (tr.map Acceptance.record) ∧
      (∀ a ∈ tr, ∃ records, a.before.values.reviewHistory = some records ∧
        a.after.values.reviewHistory = some (records ++ [a.record])) ∧
      (∀ a ∈ tr, a.action = .evidenceReady → a.after.values.reviewRound = some a.round) ∧
      (tr.map Acceptance.round).IsChain (fun i j => i ≤ j ∧ j ≤ i + 1) ∧
      c.values.reviewRound = some (1 + tr.countP (fun a => a.action = .evidenceReady) +
        tr.countP Acceptance.reanalyzed) ∧
      (∀ a ∈ tr, a.action = .reanalyze → ∃ round max,
        a.before.values.reviewRound = some round ∧ a.before.values.maxReviewRounds = some max ∧
        Stands (if round < max then .review else .cancelled) a.after) ∧
      ∃ max, c.values.maxReviewRounds = some max ∧
        (c.values.result = some (some (limitResult max)) ↔ EndedAtLimit tr) := by
  intro opened tr
  obtain ⟨cfg, s, hc, hl⟩ := ledger_afterRequests engine case evidence data threadId qs
  refine ⟨checkpointOf cfg s, hc, congrArg some hl.history, ?_, ?_, hl.climbs,
    congrArg some hl.count, ?_, s.maxReviewRounds, rfl, ?_⟩
  · exact fun a ha => (hl.faithful a ha).history
  · exact fun a ha => (hl.faithful a ha).opens
  · exact fun a ha => (hl.faithful a ha).reanalyze
  · rw [← hl.limit]
    exact Option.some_inj

end WhaleMas.WorkflowLedger
