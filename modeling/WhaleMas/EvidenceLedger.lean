import WhaleMas.SessionRuns

/-!
The evidence table and the audit log agree. The log alone tells which rows there are and what
they say, in every state that any requests come to, whatever calls fail without effect.
-/

namespace WhaleMas.EvidenceLedger

open WhaleMas.Models WhaleMas.AuditLog WhaleMas.Program WhaleMas.RelyGuarantee
open WhaleMas.Database WhaleMas.Services WhaleMas.EvidenceLife
open WhaleMas.SessionRules WhaleMas.SessionRequests WhaleMas.SessionRuns

/-- The events of a log with a type. -/
def ofType (t : AuditEventType) (l : List AuditEvent) : List AuditEvent :=
  l.filter fun e => e.eventType = t

/-- The log records the creation of evidence in the case, and no deletion. -/
def Recorded (caseId : Uuid) (l : List AuditEvent) : Prop :=
  (∃ e ∈ ofType .evidenceCreated l, e.caseId = some caseId) ∧
    ∀ e ∈ ofType .evidenceDeleted l, e.caseId ≠ some caseId

/-- The committed rows are what the committed events say. -/
structure Agree {ι : Type} (w : World ι) : Prop where
  rows : ∀ caseId E, (∃ r ∈ w.evidence, r.id = E ∧ r.caseId = caseId) ↔
    Recorded caseId (evidenceLog E w.audit)
  hashed : ∀ r ∈ w.evidence, ∃ e, ofType .evidenceHashed (evidenceLog r.id w.audit) = [e] ∧
    e.outputHash = some r.sha256
  created : ∀ r ∈ w.evidence, ∃ e, ofType .evidenceCreated (evidenceLog r.id w.audit) = [e] ∧
    e.outputHash = some r.sha256
  stored : ∀ r ∈ w.evidence, ∃ e, ofType .evidenceStored (evidenceLog r.id w.audit) = [e] ∧
    e.metadataJson = storedMetadata r.objectKey
  started : ∀ E, evidenceLog E w.audit ≠ [] →
    (ofType .evidenceUploadStarted (evidenceLog E w.audit)).length = 1
  failed : ∀ E, ofType .evidenceUploadFailed (evidenceLog E w.audit) ≠ [] →
    ofType .evidenceStored (evidenceLog E w.audit) = [] ∧
      ofType .evidenceCreated (evidenceLog E w.audit) = []
  cases : ∀ c ∈ w.cases, ∃ e, creations c.id w.audit = [e] ∧
    e.metadataJson = caseNoMetadata c.caseNo

/-! ### What a life says -/

@[simp] lemma ofType_nil (t : AuditEventType) : ofType t [] = [] := rfl

@[simp] lemma ofType_cons (t : AuditEventType) (e : AuditEvent) (l : List AuditEvent) :
    ofType t (e :: l) = if e.eventType = t then e :: ofType t l else ofType t l := by
  simp [ofType, List.filter_cons]

lemma ofType_append (t : AuditEventType) (l m : List AuditEvent) :
    ofType t (l ++ m) = ofType t l ++ ofType t m := List.filter_append ..

lemma ofType_deletions {caseId : Uuid} {t : AuditEventType} {ds : List AuditEvent}
    (ht : t ≠ .evidenceDeleted) (hds : ∀ d ∈ ds, Of caseId .evidenceDeleted d) :
    ofType t ds = [] := by
  refine List.filter_eq_nil_iff.mpr fun d hd => ?_
  simp [(hds d hd).2, Ne.symm ht]

lemma mem_ofType {t : AuditEventType} {l : List AuditEvent} {e : AuditEvent} :
    e ∈ ofType t l ↔ e ∈ l ∧ e.eventType = t := by
  simp [ofType]

lemma Full.ofType {r : RowFacts} {l : List AuditEvent} (h : Full r l) :
    (∃ s, ofType .evidenceUploadStarted l = [s]) ∧
    (∃ e, ofType .evidenceHashed l = [e] ∧ e.outputHash = some r.sha256) ∧
    (∃ e, ofType .evidenceStored l = [e] ∧ e.metadataJson = storedMetadata r.objectKey) ∧
    (∃ e, ofType .evidenceCreated l = [e] ∧ e.caseId = some r.caseId ∧
      e.outputHash = some r.sha256) ∧
    ofType .evidenceUploadFailed l = [] ∧ ofType .evidenceDeleted l = [] := by
  obtain ⟨s, h, st, c, rfl, hs, ⟨hh, hhash⟩, ⟨hst, hmeta⟩, hc, hout⟩ := h.events
  simp [hs.2, hh.2, hst.2, hc.2, hhash, hmeta, hc.1, hout]

lemma Early.ofType {caseId : Uuid} {l : List AuditEvent} (h : Early caseId l) :
    (∃ s, ofType .evidenceUploadStarted l = [s]) ∧ ofType .evidenceStored l = [] ∧
    ofType .evidenceCreated l = [] ∧ ofType .evidenceUploadFailed l = [] := by
  cases h with
  | started hs => simp [hs.2]
  | hashed hs hh => simp [hs.2, hh.2]

/-- The log tells whether there is a row. -/
lemma recorded_iff {v : View} (h : Life v) (caseId : Uuid) :
    (∃ r ∈ v.rows, r.caseId = caseId) ↔ Recorded caseId v.log := by
  have hno : ∀ l, ofType .evidenceCreated l = [] → ¬ Recorded caseId l := by
    rintro l hl ⟨⟨e, he, -⟩, -⟩
    rw [hl] at he
    cases he
  cases h with
  | blank => simp [View.blank, hno [] rfl]
  | early h => simp [hno _ (Early.ofType h).2.2.1]
  | @failed _ l f h hf =>
    have hnone : ofType .evidenceCreated (l ++ [f]) = [] := by
      rw [ofType_append, (Early.ofType h).2.2.1]
      simp [hf.2]
    simp [hno _ hnone]
  | created h =>
    obtain ⟨-, -, -, ⟨c, hc, hcase, -⟩, -, hd⟩ := Full.ofType h
    simp [Recorded, hc, hcase, hd]
  | @deleted r l ds h hne hds =>
    obtain ⟨-, -, -, ⟨c, hc, hcase, -⟩, -, -⟩ := Full.ofType h
    refine iff_of_false (by simp) ?_
    rintro ⟨⟨e, he, hcaseId⟩, hno⟩
    rw [ofType_append, hc, ofType_deletions (by simp) hds, List.append_nil,
      List.mem_singleton] at he
    obtain ⟨d, hd⟩ := List.exists_mem_of_ne_nil ds hne
    have hmem : d ∈ ofType .evidenceDeleted (l ++ ds) :=
      mem_ofType.mpr ⟨List.mem_append_right _ hd, (hds d hd).2⟩
    rw [he, hcase] at hcaseId
    exact hno d hmem ((hds d hd).1.trans hcaseId)
  | case he => simp [hno [] rfl]

lemma started_once {v : View} (h : Life v) (hne : v.log ≠ []) :
    (ofType .evidenceUploadStarted v.log).length = 1 := by
  have hone : ∀ l, (∃ s, ofType .evidenceUploadStarted l = [s]) →
      (ofType .evidenceUploadStarted l).length = 1 := by
    rintro l ⟨s, hs⟩
    rw [hs]
    rfl
  cases h with
  | blank => exact absurd rfl hne
  | early h => exact hone _ (Early.ofType h).1
  | failed h hf =>
    rw [ofType_append, List.length_append, hone _ (Early.ofType h).1]
    simp [hf.2]
  | created h => exact hone _ (Full.ofType h).1
  | deleted h _ hds =>
    rw [ofType_append, List.length_append, hone _ (Full.ofType h).1,
      ofType_deletions (by simp) hds]
    rfl
  | case he => exact absurd rfl hne

lemma failed_alone {v : View} (h : Life v) (hf : ofType .evidenceUploadFailed v.log ≠ []) :
    v.rows = [] ∧ ofType .evidenceStored v.log = [] ∧ ofType .evidenceCreated v.log = [] := by
  cases h with
  | blank => exact absurd rfl hf
  | early h => exact absurd (Early.ofType h).2.2.2 hf
  | failed h hf' =>
    obtain ⟨-, hst, hc, -⟩ := Early.ofType h
    simp [ofType_append, hst, hc, hf'.2]
  | created h => exact absurd (Full.ofType h).2.2.2.2.1 hf
  | deleted h _ hds =>
    rw [ofType_append, (Full.ofType h).2.2.2.2.1, ofType_deletions (by simp) hds] at hf
    exact absurd rfl hf
  | case he => exact absurd rfl hf

lemma case_created {v : View} (h : Life v) {caseNo : String} (hn : caseNo ∈ v.numbers) :
    ∃ e, v.creations = [e] ∧ e.metadataJson = caseNoMetadata caseNo := by
  cases h with
  | case he =>
    obtain rfl := List.mem_singleton.mp hn
    exact ⟨_, rfl, he⟩
  | _ => cases hn

variable {ι : Type}

/-- Where every identifier lives as it should, table and log agree. -/
lemma agree_of_life {w : World ι} (h : ∀ u, Life (view u w)) : Agree w where
  rows := fun caseId E => by
    have hrow : (∃ r ∈ w.evidence, r.id = E ∧ r.caseId = caseId) ↔
        ∃ r ∈ (view E w).rows, r.caseId = caseId := by
      simp [view, viewOf, factsOf, and_assoc]
    rw [hrow]
    exact recorded_iff (h E) caseId
  hashed := fun r hr => (Full.ofType ((h r.id).of_row (mem_view_rows hr rfl)).1).2.1
  created := fun r hr => by
    obtain ⟨e, he, -, hout⟩ :=
      (Full.ofType ((h r.id).of_row (mem_view_rows hr rfl)).1).2.2.2.1
    exact ⟨e, he, hout⟩
  stored := fun r hr => (Full.ofType ((h r.id).of_row (mem_view_rows hr rfl)).1).2.2.1
  started := fun E hne => started_once (h E) hne
  failed := fun E hne => (failed_alone (h E) hne).2
  cases := fun c hc => by
    refine case_created (h c.id) ?_
    exact List.mem_map_of_mem (List.mem_filter.mpr ⟨hc, by simp⟩)

/-! ### Every run -/

lemma opening_empty : Opening (World.empty : World ι) where
  txn := fun _ => rfl
  undrawn := fun _ _ => by simp [World.empty]
  blank := fun _ _ => ⟨rfl, fun _ _ _ => rfl⟩
  keyed := by simp [World.empty]

/-- A run that begins with empty tables, and need not be clean. -/
def fromEmpty (requests : ι → Request) : Setting ι where
  old := fun _ => False
  isUpload := fun i => isUpload (requests i) = true
  clean := False
  caseId := 0
  content := []
  storage := fun _ => none

variable [DecidableEq ι] [Fintype ι] {hashtext : String → ℤ} {app : App} {requests : ι → Request}
  {σ : Conf ι (World ι) Op Answer (Except Exn Result)}

lemma run_fromEmpty (hσ : Reach (machine hashtext) Certain
      ⟨World.empty, fun i => app.handle (requests i)⟩ σ) :
    Inv (fromEmpty requests) σ.world ∧ ∀ i, Safe (machine hashtext) (rules (fromEmpty requests)) i
      (Ended (fromEmpty requests) i) (σ.prog i) σ.world := by
  have hasks : ∀ i, Asks (fromEmpty requests) app i (requests i) :=
    fun i => ⟨fun h => h, False.elim⟩
  have hbegins : Begins (fromEmpty requests) World.empty :=
    ⟨opening_empty, by simp [fromEmpty, World.empty], False.elim, False.elim, False.elim⟩
  exact run_safe hasks hbegins (hσ.mono fun w i o c hc => ⟨hc, False.elim⟩)

lemma life_fromEmpty (hσ : Reach (machine hashtext) Certain
    ⟨World.empty, fun i => app.handle (requests i)⟩ σ) (u : Uuid) : Life (view u σ.world) := by
  have hinv := (run_fromEmpty hσ).1
  cases ho : σ.world.owner u with
  | fresh =>
    rw [(hinv.blank u ho).1]
    exact .blank
  | old => exact ((hinv.old u).mp ho).elim
  | drawn i => exact hinv.life u i ho

/-- **Table and log agree** in every state that requests come to from empty tables, in any
interleaving, where a call that raises has no effect. -/
theorem evidence_agrees (hσ : Reach (machine hashtext) (fun _ _ _ c => ∀ e, c.fault ≠ .after e)
    ⟨World.empty, fun i => app.handle (requests i)⟩ σ) : Agree σ.world :=
  agree_of_life (life_fromEmpty (hσ.mono fun _ _ _ _ hc _ _ e he => absurd he (hc e)))

section Example

/-- A case is created, a file uploaded to it and deleted again. -/
def threeRequests : Fin 3 → Request
  | 0 => .createCase shipment
  | 1 => .upload 2 textUpload .other none none
  | 2 => .delete 2 101

def oneAfterTheOther : List (Fin 3 × Choice) :=
  calls 0 0 11 ++ (calls 1 100 37 ++ calls 2 200 11)

lemma oneAfterTheOther_events : (run (machine fun _ => 0)
    ⟨World.empty, fun i => textApp.handle (threeRequests i)⟩ oneAfterTheOther).map
      (fun σ => σ.world.audit.map AuditEvent.eventType) = some [.caseCreated,
        .evidenceUploadStarted, .evidenceHashed, .evidenceStored, .evidenceCreated,
        .evidenceDeleted] := by
  decide

/-- Six events agree with one case and no row. -/
theorem evidence_agrees_oneAfterTheOther : ∃ σ, run (machine fun _ => 0)
    ⟨World.empty, fun i => textApp.handle (threeRequests i)⟩ oneAfterTheOther = some σ ∧
    σ.world.audit.length = 6 ∧ Agree σ.world := by
  obtain ⟨σ, hσ, hevents⟩ := Option.map_eq_some_iff.mp oneAfterTheOther_events
  refine ⟨σ, hσ, by simpa using congrArg List.length hevents,
    evidence_agrees (reach_of_run .refl (fun s hs _ _ e he => ?_) hσ)⟩
  have hnone : s.2.fault = .none := by
    simp only [oneAfterTheOther, List.mem_append] at hs
    rcases hs with hs | hs | hs <;> exact calls_fault hs
  rw [hnone] at he
  cases he

end Example

end WhaleMas.EvidenceLedger
