import WhaleMas.EvidenceLedger

/-!
Concurrent deletions of evidence. A deletion looks the row up, deletes the object and the row,
and records the deletion, without a look at how many rows were deleted: where another deletion
was faster, it records a second one. Where every deletion still finds its row, every row has
one record.
-/

namespace WhaleMas.ConcurrentDelete

open WhaleMas.Models WhaleMas.AuditLog WhaleMas.Program WhaleMas.RelyGuarantee
open WhaleMas.Database WhaleMas.Services WhaleMas.EvidenceLife WhaleMas.SessionFrame
open WhaleMas.SessionRequests WhaleMas.SessionRuns WhaleMas.EvidenceLedger

variable {ι : Type} {i : ι} {sure : ι → Prop} {caseId E : Uuid} {w v : World ι}

/-! ### The rules of deletions -/

/-- The events that record a deletion of the evidence. -/
def deletions (E : Uuid) (l : List AuditEvent) : List AuditEvent :=
  ofType .evidenceDeleted (evidenceLog E l)

/-- No deletion is recorded twice, and none of evidence that is there. -/
structure Single (w : World ι) : Prop where
  once : ∀ E, (deletions E w.audit).length ≤ 1
  there : ∀ r ∈ w.evidence, deletions r.id w.audit = []

/-- A session deletes rows that are there, and no other session deletes them too. -/
structure Inv (w : World ι) : Prop where
  single : Single w
  evidence : ∀ i, (w.txn i).evidence = []
  deleted : ∀ i, ∀ E ∈ (w.txn i).deleted, ∃ r ∈ w.evidence, r.id = E
  apart : ∀ i j, j ≠ i → ∀ E ∈ (w.txn i).deleted, E ∉ (w.txn j).deleted

/-- What session `i` relies on. -/
structure Rely (i : ι) (w v : World ι) : Prop where
  txn : v.txn i = w.txn i
  owner : ∀ u, w.owner u = .drawn i → v.owner u = .drawn i
  cases : ∀ c ∈ w.cases, ∃ c' ∈ v.cases, c'.id = c.id
  grows : w.audit <+: v.audit

lemma Rely.trans {u : World ι} (h : Rely i w v) (h' : Rely i v u) : Rely i w u where
  txn := h'.txn.trans h.txn
  owner := fun x hx => h'.owner x (h.owner x hx)
  cases := fun c hc => by
    obtain ⟨c', hc', hid⟩ := h.cases c hc
    obtain ⟨c'', hc'', hid'⟩ := h'.cases c' hc'
    exact ⟨c'', hc'', hid'.trans hid⟩
  grows := h.grows.trans h'.grows

/-- A `DELETE` finds the row: no other deletion of it was committed since it was looked up. -/
def RowThere (w : World ι) : Op → Prop
  | .deleteEvidence E => ∃ r ∈ w.evidence, r.id = E
  | _ => True

instance (o : Op) : Decidable (RowThere w o) := by
  unfold RowThere
  split <;> infer_instance

/-- Every `DELETE` finds its row, and no call of a sure session fails by itself. -/
def rules (sure : ι → Prop) : Rules ι (World ι) Choice Op where
  inv := Inv
  rely := Rely
  demand := fun _ _ _ => True
  policy := fun w i o c => RowThere w o ∧ (sure i → c.fault = .none)
  refl := fun _ _ => ⟨rfl, fun _ h => h, fun c hc => ⟨c, hc, rfl⟩, List.prefix_rfl⟩
  trans := fun _ _ _ _ => Rely.trans

/-- What no other session sees, no other session relies on. -/
lemma rely_quiet {j : ι} (h : Quiet i w v) (hj : j ≠ i) : Rely j w v where
  txn := h.txn j hj
  owner := fun u hu => by rwa [h.owner]
  cases := fun c hc => ⟨c, by rwa [h.cases], rfl⟩
  grows := by rw [h.audit]

lemma Single.quiet (hw : Single w) (h : Quiet i w v) : Single v where
  once := by
    rw [h.audit]
    exact hw.once
  there := by
    rw [h.audit, h.evidence]
    exact hw.there

/-- The rows that session `i` deletes are there, and no other session deletes them. -/
lemma Inv.quiet (hw : Inv w) (h : Quiet i w v) (he : (v.txn i).evidence = [])
    (hd : ∀ E ∈ (v.txn i).deleted, (∃ r ∈ w.evidence, r.id = E) ∧
      ∀ j, j ≠ i → E ∉ (w.txn j).deleted) : Inv v := by
  classical
  have hv : v.txn = Function.update w.txn i (v.txn i) := txn_eq_update h.txn
  constructor
  · exact hw.single.quiet h
  · exact forall_txn (P := fun _ t => t.evidence = []) hv he fun j _ => hw.evidence j
  · rw [h.evidence]
    exact forall_txn (P := fun _ t => ∀ E ∈ t.deleted, ∃ r ∈ w.evidence, r.id = E) hv
      (fun E hE => (hd E hE).1) fun j _ => hw.deleted j
  · exact pairwise_txn (R := fun t u => ∀ E ∈ t.deleted, E ∉ u.deleted) hv
      (fun j hj => ⟨fun E hE => (hd E hE).2 j hj, fun E hE hE' => (hd E hE').2 j hj hE⟩) hw.apart

instance : Frame (rules sure) i (sure i) where
  demand := fun _ _ _ => trivial
  policy := fun _ _ _ hc => hc.2
  txn := fun _ _ hr => Rely.txn hr
  owner := fun _ _ u hr => Rely.owner hr u
  quiet := fun w v hw hq hd he => by
    refine ⟨Inv.quiet hw hq ?_ fun E hE => ?_, fun j hj => rely_quiet hq hj⟩
    · exact he.elim id fun h => h.trans (Inv.evidence hw i)
    · rcases hd with hd | hd
      · rw [hd] at hE
        cases hE
      · rw [hd] at hE
        exact ⟨Inv.deleted hw i E hE, fun j hj => Inv.apart hw i j hj E hE⟩
  draw := fun w u hw hu => by
    refine ⟨⟨⟨hw.single.once, hw.single.there⟩, hw.evidence, hw.deleted, hw.apart⟩, fun j _ => ?_⟩
    exact ⟨rfl, fun x hx => owner_draw hu hx, fun c hc => ⟨c, hc, rfl⟩, List.prefix_rfl⟩

/-! ### What a deletion knows -/

/-- The case is there. -/
def CaseThere (caseId : Uuid) (w : World ι) : Prop := ∃ c ∈ w.cases, c.id = caseId

/-- A sure session finds its case. -/
def CaseFound (sure : ι → Prop) (i : ι) (caseId : Uuid) (w : World ι) : Prop :=
  sure i → CaseThere caseId w

/-- A deletion of the evidence is recorded, in an event that session `i` inserted. -/
def Recorded (i : ι) (E : Uuid) (w : World ι) : Prop :=
  ∃ d ∈ deletions E w.audit, w.owner d.id = .drawn i

def notFound : DomainError := notFoundError "EVIDENCE_NOT_FOUND" "Evidence not found"

/-- How a deletion ends. -/
def Ended (sure : ι → Prop) (i : ι) (E : Uuid) (r : Except Exn Result) (w : World ι) : Prop :=
  match r with
  | .ok _ => Recorded i E w
  | .error e => sure i → e = .domain notFound

lemma knowledge_caseFound (caseId : Uuid) :
    Knowledge (rules sure) i (CaseFound sure i caseId) where
  stable := by
    rintro w v h - hr - hi
    obtain ⟨c, hc, rfl⟩ := h hi
    exact Rely.cases hr c hc
  quiet := fun w v hq h hi => by
    rw [CaseThere, hq.cases]
    exact h hi
  draw := fun _ _ _ _ h => h

lemma deletions_newEvent {sha256 : String} {p : Option AuditEvent} {id : Uuid} {now : Datetime}
    (u : Uuid) : deletions u [newEvent p (deletionEvent caseId E sha256) id now] =
      if u = E then [newEvent p (deletionEvent caseId E sha256) id now] else [] := by
  have hlog : evidenceLog u [newEvent p (deletionEvent caseId E sha256) id now] =
      if u = E then [newEvent p (deletionEvent caseId E sha256) id now] else [] :=
    evidenceLog_newEvent rfl rfl u
  rw [deletions, hlog]
  split_ifs <;> rfl

lemma deletions_append (u : Uuid) (l m : List AuditEvent) :
    deletions u (l ++ m) = deletions u l ++ deletions u m := by
  have happ : evidenceLog u (l ++ m) = evidenceLog u l ++ evidenceLog u m := List.filter_append ..
  rw [deletions, happ, ofType_append]
  rfl

lemma deletions_grow {l m : List AuditEvent} (h : l <+: m) : deletions E l <+: deletions E m :=
  (h.filter _).filter _

lemma knowledge_recorded (E : Uuid) : Knowledge (rules sure) i (Recorded i E) where
  stable := by
    rintro w v ⟨d, hd, ho⟩ - hr -
    exact ⟨d, (deletions_grow (Rely.grows hr)).subset hd, Rely.owner hr _ ho⟩
  quiet := fun w v hq h => by rwa [Recorded, hq.audit, hq.owner]
  draw := fun w u _ hu ⟨d, hd, ho⟩ => ⟨d, hd, owner_draw hu ho⟩

/-- The one record of a deletion belongs to one session. -/
lemma Recorded.unique {j : ι} (hw : Single w) (hi : Recorded i E w) (hj : Recorded j E w) :
    i = j := by
  obtain ⟨d, hd, hdi⟩ := hi
  obtain ⟨d', hd', hdj⟩ := hj
  obtain ⟨a, ha⟩ := List.length_eq_one_iff.mp
    (le_antisymm (hw.once E) (List.length_pos_of_mem hd))
  rw [ha, List.mem_singleton] at hd hd'
  rw [hd, ← hd', hdj] at hdi
  exact (Owner.drawn.inj hdi).symm

lemma knowledge_ended (E : Uuid) (r : Except Exn Result) :
    Knowledge (rules sure) i (Ended sure i E r) := by
  cases r with
  | ok r => exact knowledge_recorded E
  | error e => exact ⟨stable_const, fun _ _ _ h => h, fun _ _ _ _ h => h⟩

variable [DecidableEq ι]

/-! ### The commit of a deletion -/

section Commit

variable {G : World ι → Prop} {e : AuditEvent}

omit [DecidableEq ι] in
lemma mem_txn_deleted (hat : At i (deletion E true [e]) G w) {F : Uuid} :
    F ∈ (w.txn i).deleted ↔ F = E := by
  rw [hat.txn_deleted]
  simp [deletion]

lemma deletions_commit (hat : At i (deletion E true [e]) G w) (u : Uuid) :
    deletions u (w.commit i).audit = deletions u w.audit ++ deletions u [e] := by
  rw [World.commit_audit, hat.txn_events]
  exact deletions_append ..

/-- The rows that a deletion leaves. -/
lemma mem_commit_evidence (hw : Inv w) (hat : At i (deletion E true [e]) G w) {r : Evidence} :
    r ∈ (w.commit i).evidence ↔
      ∃ s ∈ w.evidence, s.id ≠ E ∧ orphan (w.txn i).deleted s = r := by
  simp [hw.evidence i, mem_txn_deleted hat, and_assoc]

lemma Single.commit (hw : Inv w) (hat : At i (deletion E true [e]) G w)
    (he : ∀ u, deletions u [e] = if u = E then [e] else []) : Single (w.commit i) where
  once := fun u => by
    rw [deletions_commit hat, he]
    by_cases hu : u = E
    · -- the row was there, so its deletion was not recorded yet
      subst hu
      obtain ⟨r, hr, rfl⟩ := hw.deleted i u ((mem_txn_deleted hat).mpr rfl)
      simp [hw.single.there r hr]
    · simpa [hu] using hw.single.once u
  there := fun r hr => by
    obtain ⟨s, hs, hne, rfl⟩ := (mem_commit_evidence hw hat).mp hr
    have hid : (orphan (w.txn i).deleted s).id = s.id := rfl
    rw [deletions_commit hat, he, hid, if_neg hne, List.append_nil]
    exact hw.single.there s hs

lemma Inv.commit (hw : Inv w) (hat : At i (deletion E true [e]) G w)
    (he : ∀ u, deletions u [e] = if u = E then [e] else []) : Inv (w.commit i) where
  single := .commit hw hat he
  evidence := forall_txn (P := fun _ t => t.evidence = []) rfl rfl fun j _ => hw.evidence j
  deleted := by
    refine forall_txn (P := fun _ t => ∀ F ∈ t.deleted, ∃ r ∈ (w.commit i).evidence, r.id = F) rfl
      (fun F hF => by cases hF) fun j hj F hF => ?_
    obtain ⟨s, hs, rfl⟩ := hw.deleted j F hF
    have hne : s.id ≠ E := fun h =>
      hw.apart j i (Ne.symm hj) s.id hF ((mem_txn_deleted hat).mpr h)
    exact ⟨_, (mem_commit_evidence hw hat).mpr ⟨s, hs, hne, rfl⟩, rfl⟩
  apart := pairwise_txn (R := fun t u => ∀ F ∈ t.deleted, F ∉ u.deleted) rfl
    (fun _ _ => ⟨by simp, by simp⟩) hw.apart

lemma rely_commit {j : ι} (hj : j ≠ i) : Rely j w (w.commit i) where
  txn := commit_txn_of_ne hj
  owner := fun _ h => h
  cases := fun c hc =>
    ⟨_, List.mem_map_of_mem (List.mem_append_left _ hc), (updateCase_keeps _ c).1⟩
  grows := List.prefix_append ..

lemma recorded_commit (hat : At i (deletion E true [e]) G w)
    (he : ∀ u, deletions u [e] = if u = E then [e] else []) (ho : w.owner e.id = .drawn i) :
    Recorded i E (w.commit i) := by
  refine ⟨e, ?_, ho⟩
  rw [deletions_commit hat, he]
  simp

end Commit

/-! ### The calls of a deletion -/

variable [Fintype ι] {hashtext : String → ℤ}

lemma triple_getEvidence (self : EvidenceService) (caseId E : Uuid) :
    ETriple (machine hashtext) (rules sure) i (At i {} (CaseFound sure i caseId))
      (self.getEvidence caseId E) (fun e w => e.id = E ∧ At i {} (CaseFound sure i caseId) w)
      (fun e _ => sure i → e = .domain notFound) := by
  have hknow : Knowledge (rules sure) i (CaseFound sure i caseId) := knowledge_caseFound caseId
  have hfail : ∀ e (w : World ι), (rules sure).inv w →
      Faulty (sure i) (CaseFound sure i caseId) e w → sure i → e = .domain notFound :=
    fun _ _ _ h hc => absurd hc h.1
  refine etriple_bind (etriple_error (triple_requireCase hknow caseId
    fun hi w _ hcase => exists_casesFor (hcase hi)) hfail) fun _ => ?_
  refine etriple_bind (etriple_error (triple_look (Q := fun r w =>
    (∀ e ∈ r, e.id = E) ∧ At i {} (CaseFound sure i caseId) w) hknow (by simp)
    fun w c r v _ hat hx => ?_) hfail) fun r => ?_
  · obtain ⟨rfl, rfl⟩ := Prod.mk.inj (Option.some.inj hx)
    refine ⟨rfl, _, rfl, fun e he => ?_, hat⟩
    have hfound := List.find?_some he
    simp only [Bool.decide_and, Bool.and_eq_true, decide_eq_true_eq] at hfound
    exact hfound.1
  · cases r with
    | none => exact etriple_throw fun _ _ _ _ => rfl
    | some e => exact etriple_pure fun _ _ h => ⟨h.1 e rfl, h.2⟩

lemma triple_deleteObject (key : String) :
    ETriple (machine hashtext) (rules sure) i (At i {} (CaseFound sure i caseId))
      (call (.deleteObject key)) (fun _ => At i {} (CaseFound sure i caseId))
      (Faulty (sure i) (CaseFound sure i caseId)) := by
  refine triple_exec (stable_at (knowledge_caseFound caseId).stable) (fun _ _ _ => trivial) ?_ ?_
  · intro w c r v hw hat hpolicy hx
    obtain ⟨rfl, rfl⟩ := Prod.mk.inj (Option.some.inj hx)
    exact ⟨⟨⟨hw.single.once, hw.single.there⟩, hw.evidence, hw.deleted, hw.apart⟩, fun j _ =>
      ⟨rfl, fun _ h => h, fun c hc => ⟨c, hc, rfl⟩, List.prefix_rfl⟩, hat, fun e hf =>
        ⟨not_clean hpolicy (by simp [hf]), hat.2⟩⟩
  · intro w c e _ hat hpolicy hf
    exact ⟨not_clean hpolicy (by simp [hf]), hat.2⟩

/-- The row is found, and no other session deletes it. -/
lemma triple_deleteEvidence (E : Uuid) :
    ETriple (machine hashtext) (rules sure) i (At i {} (CaseFound sure i caseId))
      (call (.deleteEvidence E)) (fun _ => At i (deletion E true []) (CaseFound sure i caseId))
      (Faulty (sure i) (CaseFound sure i caseId)) := by
  refine triple_step (knowledge_caseFound caseId) (by simp) fun w c r v hw hpolicy hat hx => ?_
  simp only [exec, execDeleteEvidence] at hx
  have hthere : ∃ r ∈ w.evidence, r.id = E := hpolicy.1
  split_ifs at hx with hwait hrow
  · obtain ⟨rfl, rfl⟩ := Prod.mk.inj (Option.some.inj hx)
    push Not at hwait
    refine ⟨⟨Inv.quiet hw quiet_setTxn ?_ fun F hF => ?_, fun j hj =>
      rely_quiet quiet_setTxn hj⟩, hat.2, ?_, hat.2⟩
    · rw [setTxn_txn]
      exact hat.txn_evidence
    · rw [setTxn_txn, hat.txn_deleted] at hF
      obtain rfl : F = E := by simpa using hF
      exact ⟨hthere, fun j hj => (hwait j hj).1⟩
    · rw [setTxn_txn, hat.txn]
      rfl
  · obtain ⟨r, hr, hid⟩ := hthere
    refine absurd ⟨r, ?_, hid⟩ hrow
    simpa [World.evidenceFor, hat.txn_evidence, hat.txn_deleted] using hr

lemma triple_commit {sha256 : String} {p : Option AuditEvent} {id : Uuid} {now : Datetime} :
    ETriple (machine hashtext) (rules sure) i
      (At i (deletion E true [newEvent p (deletionEvent caseId E sha256) id now])
        fun w => CaseFound sure i caseId w ∧ w.owner id = .drawn i) (call .commit)
      (fun _ => Recorded i E) (fun _ _ => ¬ sure i) := by
  refine triple_exec (stable_at ((knowledge_caseFound caseId).and (knowledge_drawn id)).stable)
    (fun _ _ _ => trivial) ?_ ?_
  · intro w c r v hw hat hpolicy hx
    obtain ⟨rfl, rfl⟩ := Prod.mk.inj (Option.some.inj hx)
    exact ⟨Inv.commit hw hat deletions_newEvent, fun j hj => rely_commit hj,
      recorded_commit hat deletions_newEvent hat.2.2,
      fun e hf => not_clean hpolicy (by simp [hf])⟩
  · intro w c e _ _ hpolicy hf
    exact not_clean hpolicy (by simp [hf])

lemma triple_delete (self : EvidenceService) (caseId E : Uuid) :
    ETriple (machine hashtext) (rules sure) i (At i {} (CaseFound sure i caseId))
      (self.deleteEvidence caseId E) (fun _ => Recorded i E)
      (fun e _ => sure i → e = .domain notFound) := by
  have hnot : ∀ e : Exn, ¬ sure i → sure i → e = .domain notFound := fun _ h hc => absurd hc h
  refine etriple_bind (triple_getEvidence self caseId E) fun e => ?_
  refine triple_and ?_
  rintro rfl
  refine etriple_bind (etriple_error (triple_deleteObject e.objectKey)
    fun x _ _ h => hnot x h.1) fun _ => ?_
  refine etriple_bind (etriple_error (triple_deleteEvidence e.id)
    fun x _ _ h => hnot x h.1) fun _ => ?_
  refine etriple_bind (etriple_error (triple_append_drawn (knowledge_caseFound caseId)
    self.auditService (deletionEvent caseId e.id e.sha256) fun hi w _ hcase =>
      exists_casesFor (hcase hi)) fun x _ _ h => hnot x h.1) fun d => ?_
  refine triple_and ?_
  rintro ⟨p, id, now, rfl⟩
  exact etriple_error triple_commit fun x _ _ h => hnot x h

/-! ### Every run -/

/-- No session has begun, and no deletion was recorded twice, or of evidence that is there. -/
structure Ready (w : World ι) : Prop where
  txn : ∀ i, w.txn i = {}
  single : Single w

/-- No identifier has two deletions in the committed log. Of the deletions that name one
identifier one returns at most; where no call fails by itself, those that find their case and
do not return raise `EVIDENCE_NOT_FOUND`. -/
structure OneRecord (clean : Prop) (caseId evidenceId : ι → Uuid) (w₀ : World ι)
    (σ : Conf ι (World ι) Op Answer (Except Exn Result)) : Prop where
  once : ∀ E, (deletions E σ.world.audit).length ≤ 1
  one : ∀ i j r s, evidenceId i = evidenceId j → σ.prog i = .ret (.ok r) →
    σ.prog j = .ret (.ok s) → i = j
  others : clean → ∀ i e, CaseThere (caseId i) w₀ → σ.prog i = .ret (.error e) →
    e = .domain notFound

lemma triple_handle (app : App) (caseId E : Uuid) :
    Triple (machine hashtext) (rules sure) i (At i {} (CaseFound sure i caseId))
      (app.handle (.delete caseId E)) (Ended sure i E) := by
  refine triple_session (fun r => knowledge_ended E r) (triple_conseq (etriple_map
    (H := fun _ => Recorded i E) (triple_delete app.evidenceService caseId E)
    fun _ _ _ h => h) (fun _ _ h => h) fun r _ _ h => ?_)
  cases r <;> exact h

/-- **One deletion, one record**, in every state that deletions come to, in any interleaving
and with any failures, as long as every `DELETE` finds its row. -/
theorem concurrent_deletes {clean : Prop} {app : App} {caseId evidenceId : ι → Uuid}
    {w₀ : World ι} (h₀ : Ready w₀) {σ : Conf ι (World ι) Op Answer (Except Exn Result)}
    (hσ : Reach (machine hashtext) (fun w _ o c => RowThere w o ∧ (clean → c.fault = .none))
      ⟨w₀, fun i => app.handle (.delete (caseId i) (evidenceId i))⟩ σ) :
    OneRecord clean caseId evidenceId w₀ σ := by
  set sure : ι → Prop := fun i => clean ∧ CaseThere (caseId i) w₀
  have hinv : (rules sure).inv w₀ := by
    refine ⟨h₀.single, fun i => ?_, fun i E hE => ?_, fun i j _ E hE => ?_⟩
    · rw [h₀.txn i]
    · rw [h₀.txn i] at hE
      cases hE
    · rw [h₀.txn i] at hE
      cases hE
  have hbegin : ∀ i, At i {} (CaseFound sure i (caseId i)) w₀ := fun i =>
    ⟨by rw [h₀.txn i]; rfl, fun hi => hi.2⟩
  obtain ⟨hw, hsafe⟩ := safe_reach (R := rules sure)
    (Q := fun i => Ended sure i (evidenceId i)) (fun i r => (knowledge_ended _ r).stable) hinv
    (fun i => triple_handle app (caseId i) (evidenceId i) w₀ hinv (hbegin i))
    (hσ.mono fun w i o c hc => ⟨hc.1, fun hi => hc.2 hi.1⟩)
  refine ⟨hw.single.once, fun i j r s hij hi hj => ?_, fun hc i e hcase hi => ?_⟩
  · have hri : Recorded i (evidenceId i) σ.world := post_of_safe hsafe hi
    have hrj : Recorded j (evidenceId j) σ.world := post_of_safe hsafe hj
    rw [← hij] at hrj
    exact hri.unique hw.single hrj
  · have hend : Ended sure i (evidenceId i) (.error e) σ.world := post_of_safe hsafe hi
    exact hend ⟨hc, hcase⟩

section Example

/-- The state that a run has come to, for new sessions. -/
def reopen {κ : Type} (σ : Conf κ (World κ) Op Answer (Except Exn Result)) : World ι where
  cases := σ.world.cases
  evidence := σ.world.evidence
  audit := σ.world.audit
  appended := σ.world.appended
  objects := σ.world.objects
  sequence := σ.world.sequence
  txn := fun _ => {}
  owner := fun u => match σ.world.owner u with
    | .fresh => .fresh
    | _ => .old

/-- A case was created, and a file uploaded to it. -/
def uploaded : World (Fin 2) :=
  ((run (machine fun _ => 0) createAndUploadApp (calls 0 0 11 ++ calls 1 100 37)).map
    reopen).getD World.empty

lemma uploaded_events : ∀ e ∈ uploaded.audit, e.eventType ≠ .evidenceDeleted := by
  decide

lemma ready_uploaded : Ready uploaded where
  txn := fun _ => by
    unfold uploaded
    cases run (machine fun _ => 0) createAndUploadApp (calls 0 0 11 ++ calls 1 100 37) <;> rfl
  single := by
    have hnone : ∀ E, deletions E uploaded.audit = [] := fun E =>
      List.filter_eq_nil_iff.mpr fun e he => by
        simpa using uploaded_events e (List.mem_of_mem_filter he)
    exact ⟨fun E => by simp [hnone], fun r _ => hnone r.id⟩

/-- Two deletions of the file. -/
def bothDelete : Conf (Fin 2) (World (Fin 2)) Op Answer (Except Exn Result) :=
  ⟨uploaded, fun _ => textApp.handle (.delete 2 101)⟩

/-- The second deletion begins when the first one has ended. -/
def inTurn : List (Fin 2 × Choice) := calls 0 300 11 ++ calls 1 400 3

/-- What a call returned. -/
def returned : Prog Op Answer (Except Exn Result) → Option (Except Exn Unit)
  | .ret (.ok _) => some (.ok ())
  | .ret (.error e) => some (.error e)
  | .op .. => none

lemma inTurn_results : (runUnder (machine fun _ => 0)
    (fun w _ o c => RowThere w o ∧ (True → c.fault = .none)) bothDelete inTurn).map
      (fun σ => ((deletions 101 σ.world.audit).length, returned (σ.prog 0),
        returned (σ.prog 1))) = some (1, some (.ok ()), some (.error (.domain notFound))) := by
  decide

/-- One deletion returns, and leaves the only record. -/
theorem concurrent_deletes_inTurn : ∃ σ, runUnder (machine fun _ => 0)
    (fun w _ o c => RowThere w o ∧ (True → c.fault = .none)) bothDelete inTurn = some σ ∧
    (deletions 101 σ.world.audit).length = 1 ∧
    OneRecord True (fun _ => 2) (fun _ => 101) uploaded σ := by
  obtain ⟨σ, hσ, hresults⟩ := Option.map_eq_some_iff.mp inTurn_results
  exact ⟨σ, hσ, congrArg Prod.fst hresults,
    concurrent_deletes ready_uploaded (reach_of_runUnder .refl hσ)⟩

/-- Both deletions look the row up before one of them deletes it. -/
def bothFind : List (Fin 2 × Choice) := calls 0 300 2 ++ (calls 1 400 2 ++
  (calls 0 500 9 ++ calls 1 600 9))

lemma bothFind_results : (run (machine fun _ => 0) bothDelete bothFind).map
    (fun σ => ((deletions 101 σ.world.audit).length, returned (σ.prog 0),
      returned (σ.prog 1))) = some (2, some (.ok ()), some (.ok ())) := by
  decide

lemma ret_of_returned {p : Prog Op Answer (Except Exn Result)}
    (h : returned p = some (.ok ())) : ∃ r, p = .ret (.ok r) := by
  unfold returned at h
  split at h
  · exact ⟨_, rfl⟩
  · simp at h
  · cases h

/-- No call fails, both deletions return, and the log holds two records of one deletion. -/
theorem bothFind_not_oneRecord : ∃ σ, Reach (machine fun _ => 0) (fun _ _ _ c => c.fault = .none)
    bothDelete σ ∧ (deletions 101 σ.world.audit).length = 2 ∧
    (∀ i, ∃ r, σ.prog i = .ret (.ok r)) ∧
    ¬ OneRecord True (fun _ => 2) (fun _ => 101) uploaded σ := by
  obtain ⟨σ, hσ, hresults⟩ := Option.map_eq_some_iff.mp bothFind_results
  have htwo : (deletions 101 σ.world.audit).length = 2 := congrArg Prod.fst hresults
  have hfirst : returned (σ.prog 0) = some (.ok ()) := congrArg (fun p => p.2.1) hresults
  have hsecond : returned (σ.prog 1) = some (.ok ()) := congrArg (fun p => p.2.2) hresults
  refine ⟨σ, reach_of_run .refl (fun s hs _ _ => ?_) hσ, htwo, fun i => ?_, fun h => ?_⟩
  · simp only [bothFind, List.mem_append] at hs
    rcases hs with hs | hs | hs | hs <;> exact calls_fault hs
  · fin_cases i
    · exact ret_of_returned hfirst
    · exact ret_of_returned hsecond
  · have hone := h.once 101
    omega

end Example

end WhaleMas.ConcurrentDelete
