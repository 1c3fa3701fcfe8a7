import WhaleMas.Services

/-!
The life of an identifier, as the committed rows and events tell it. An identifier of evidence
goes from its first event over its row to its deletion, or ends in a failure; an identifier of
a case has one row and one event. A commit adds to the lives its transaction touches.
-/

namespace WhaleMas.EvidenceLife

open WhaleMas.Models WhaleMas.AuditLog WhaleMas.Database WhaleMas.Services

/-! ### Object keys -/

lemma objectKeyOf_inj {c c' u u' : Uuid} {n n' : String}
    (h : objectKeyOf c u n = objectKeyOf c' u' n') : c = c' ∧ u = u' := by
  have hl := congrArg String.toList h
  simp only [objectKeyOf, String.toList_append, List.append_assoc] at hl
  have hc := List.append_inj (List.append_cancel_left hl) (by simp)
  have hu := List.append_inj (List.append_cancel_left hc.2) (by simp)
  exact ⟨Uuid.str_injective (String.toList_inj.mp hc.1),
    Uuid.str_injective (String.toList_inj.mp hu.1)⟩

/-! ### What is committed about an identifier -/

/-- The events of an evidence identifier. -/
def evidenceLog (u : Uuid) (l : List AuditEvent) : List AuditEvent :=
  l.filter fun e => e.resourceType = "evidence" ∧ e.resourceId = some u.str

/-- The events that record the creation of a case. -/
def creations (caseId : Uuid) (l : List AuditEvent) : List AuditEvent :=
  l.filter fun e => e.eventType = .caseCreated ∧ e.caseId = some caseId

/-- What the audit log tells about a row. -/
structure RowFacts where
  caseId : Uuid
  sha256 : String
  objectKey : String

def factsOf (r : Evidence) : RowFacts := ⟨r.caseId, r.sha256, r.objectKey⟩

structure View where
  log : List AuditEvent
  rows : List RowFacts
  numbers : List String
  creations : List AuditEvent

/-- Nothing is known of the identifier. -/
def View.blank : View := ⟨[], [], [], []⟩

def viewOf (u : Uuid) (audit : List AuditEvent) (evidence : List Evidence) (cases : List Case) :
    View where
  log := evidenceLog u audit
  rows := (evidence.filter fun r => r.id = u).map factsOf
  numbers := (cases.filter fun c => c.id = u).map Case.caseNo
  creations := creations u audit

def view {ι : Type} (u : Uuid) (w : World ι) : View := viewOf u w.audit w.evidence w.cases

def txnView (u : Uuid) (t : Txn) : View := viewOf u t.events t.evidence t.cases

def View.add (v : View) (deleted : Bool) (t : View) : View where
  log := v.log ++ t.log
  rows := if deleted then [] else v.rows ++ t.rows
  numbers := v.numbers ++ t.numbers
  creations := v.creations ++ t.creations

@[simp] lemma View.add_blank (v : View) : v.add false View.blank = v := by
  simp [View.add, View.blank]

lemma updateCase_keeps (updates : List (Uuid × CaseColumns)) (c : Case) :
    (updateCase updates c).id = c.id ∧ (updateCase updates c).caseNo = c.caseNo := by
  unfold updateCase
  induction updates generalizing c with
  | nil => exact ⟨rfl, rfl⟩
  | cons u updates ih =>
    rw [List.foldl_cons]
    obtain ⟨hid, hno⟩ := ih (if u.1 = c.id then u.2.apply c else c)
    rw [hid, hno]
    split_ifs <;> exact ⟨rfl, rfl⟩

/-- A call takes no case away. -/
lemma stays_of_effect {ι : Type} [DecidableEq ι] {o : Op} {i : ι} {c : Choice} {w v : World ι}
    (h : Effect i c w o v) {k : Case} (hk : k ∈ w.cases) :
    ∃ l ∈ v.cases, l.id = k.id ∧ l.caseNo = k.caseNo := by
  cases h with
  | commit => exact ⟨_, List.mem_map_of_mem (List.mem_append_left _ hk), updateCase_keeps _ k⟩
  | _ => exact ⟨k, hk, rfl, rfl⟩

lemma numbers_update (updates : List (Uuid × CaseColumns)) (u : Uuid) (l : List Case) :
    ((l.map (updateCase updates)).filter fun c => c.id = u).map Case.caseNo =
      (l.filter fun c => c.id = u).map Case.caseNo := by
  induction l with
  | nil => rfl
  | cons c l ih =>
    obtain ⟨hid, hno⟩ := updateCase_keeps updates c
    by_cases h : c.id = u <;> simp [hid, hno, h, ih]

lemma rows_orphan (deleted : List Uuid) (u : Uuid) (l : List Evidence) :
    (((l.filter fun r => r.id ∉ deleted).map (orphan deleted)).filter fun r => r.id = u).map
      factsOf = if u ∈ deleted then [] else (l.filter fun r => r.id = u).map factsOf := by
  induction l with
  | nil => simp
  | cons r l ih =>
    have hfacts : factsOf (orphan deleted r) = factsOf r := rfl
    have hid : (orphan deleted r).id = r.id := rfl
    by_cases hd : r.id ∈ deleted
    · by_cases hu : r.id = u
      · subst hu
        simpa [hd] using ih
      · simpa [hd, hu] using ih
    · by_cases hu : r.id = u
      · subst hu
        simp only [hd, if_false] at ih
        simpa [hd, hid, hfacts] using ih
      · simpa [hd, hu, hid] using ih

/-- A commit adds what the transaction says. -/
lemma view_commit {ι : Type} [DecidableEq ι] (w : World ι) (i : ι) (u : Uuid) :
    view u (w.commit i) = (view u w).add (u ∈ (w.txn i).deleted) (txnView u (w.txn i)) := by
  simp only [view, txnView, viewOf, View.add, World.commit_audit, World.commit_evidence,
    World.commit_cases, rows_orphan, numbers_update, decide_eq_true_eq]
  congr 1
  · simp [evidenceLog]
  · simp
  · simp
  · simp [creations]

lemma evidenceLog_newEvent {p : Option AuditEvent} {a : AppendArgs} {id : Uuid} {now : Datetime}
    {E : Uuid} (ht : a.resourceType = "evidence") (hr : a.resourceId = some E.str) (u : Uuid) :
    evidenceLog u [newEvent p a id now] = if u = E then [newEvent p a id now] else [] := by
  by_cases hu : u = E
  · subst hu
    simp [evidenceLog, newEvent, ht, hr]
  · have hstr : E.str ≠ u.str := fun h => hu (Uuid.str_injective h).symm
    simp [evidenceLog, newEvent, hr, hstr, hu]

lemma evidenceLog_other {p : Option AuditEvent} {a : AppendArgs} {id : Uuid} {now : Datetime}
    (ht : a.resourceType ≠ "evidence") (u : Uuid) : evidenceLog u [newEvent p a id now] = [] := by
  simp [evidenceLog, newEvent, ht]

lemma creations_other {p : Option AuditEvent} {a : AppendArgs} {id : Uuid} {now : Datetime}
    (ht : a.eventType ≠ .caseCreated) (u : Uuid) : creations u [newEvent p a id now] = [] := by
  simp [creations, newEvent, ht]

lemma creations_newEvent {p : Option AuditEvent} {a : AppendArgs} {id : Uuid} {now : Datetime}
    (ht : a.eventType = .caseCreated) (u : Uuid) :
    creations u [newEvent p a id now] = if u = a.caseId then [newEvent p a id now] else [] := by
  by_cases hu : u = a.caseId
  · simp [creations, newEvent, ht, hu]
  · simp [creations, newEvent, hu, Ne.symm hu]

/-! ### Lives -/

/-- The event belongs to the case and is of the type. -/
def Of (caseId : Uuid) (t : AuditEventType) (e : AuditEvent) : Prop :=
  e.caseId = some caseId ∧ e.eventType = t

/-- An upload has started, and may have hashed its file. -/
inductive Early (caseId : Uuid) : List AuditEvent → Prop
  | started {s : AuditEvent} (hs : Of caseId .evidenceUploadStarted s) : Early caseId [s]
  | hashed {s h : AuditEvent} (hs : Of caseId .evidenceUploadStarted s)
      (hh : Of caseId .evidenceHashed h) : Early caseId [s, h]

/-- An upload has hashed its file. -/
structure Hashed (caseId : Uuid) (digest : String) (l : List AuditEvent) : Prop where
  events : ∃ s h, l = [s, h] ∧ Of caseId .evidenceUploadStarted s ∧
    Of caseId .evidenceHashed h ∧ h.outputHash = some digest

lemma Hashed.early {caseId : Uuid} {digest : String} {l : List AuditEvent}
    (h : Hashed caseId digest l) : Early caseId l := by
  obtain ⟨s, e, rfl, hs, he, -⟩ := h.events
  exact .hashed hs he

/-- An upload has left its row, and its events agree with the row. -/
structure Full (r : RowFacts) (l : List AuditEvent) : Prop where
  events : ∃ s h st c, l = [s, h, st, c] ∧ Of r.caseId .evidenceUploadStarted s ∧
    (Of r.caseId .evidenceHashed h ∧ h.outputHash = some r.sha256) ∧
    (Of r.caseId .evidenceStored st ∧ st.metadataJson = storedMetadata r.objectKey) ∧
    Of r.caseId .evidenceCreated c ∧ c.outputHash = some r.sha256

inductive Life : View → Prop
  | blank : Life View.blank
  | early {caseId : Uuid} {l : List AuditEvent} (h : Early caseId l) : Life ⟨l, [], [], []⟩
  | failed {caseId : Uuid} {l : List AuditEvent} {f : AuditEvent} (h : Early caseId l)
      (hf : Of caseId .evidenceUploadFailed f) : Life ⟨l ++ [f], [], [], []⟩
  | created {r : RowFacts} {l : List AuditEvent} (h : Full r l) : Life ⟨l, [r], [], []⟩
  | deleted {r : RowFacts} {l ds : List AuditEvent} (h : Full r l) (hne : ds ≠ [])
      (hds : ∀ d ∈ ds, Of r.caseId .evidenceDeleted d) : Life ⟨l ++ ds, [], [], []⟩
  | case {caseNo : String} {e : AuditEvent} (he : e.metadataJson = caseNoMetadata caseNo) :
      Life ⟨[], [], [caseNo], [e]⟩

/-- The log records that the evidence was created. -/
def View.Made (v : View) : Prop := ∃ e ∈ v.log, e.eventType = .evidenceCreated

lemma View.Made.mono {s t : View} (h : s.Made) (hle : s.log <+: t.log) : t.Made := by
  obtain ⟨e, he, ht⟩ := h
  exact ⟨e, hle.subset he, ht⟩

/-- Only the session that drew the identifier may add to it yet. -/
def View.Open (v : View) : Prop := ¬ v.Made ∧ v.creations = []

lemma View.open_blank : View.blank.Open := ⟨by simp [View.Made, View.blank], rfl⟩

lemma Early.not_made {caseId : Uuid} {l : List AuditEvent} (h : Early caseId l) :
    ∀ e ∈ l, e.eventType ≠ .evidenceCreated ∧ e.eventType ≠ .evidenceStored ∧
      e.eventType ≠ .evidenceUploadFailed := by
  cases h with
  | started hs => simp [hs.2]
  | hashed hs hh => simp [hs.2, hh.2]

lemma Early.open {caseId : Uuid} {l : List AuditEvent} (h : Early caseId l) :
    View.Open ⟨l, [], [], []⟩ :=
  ⟨fun ⟨e, he, ht⟩ => (h.not_made e he).1 ht, rfl⟩

lemma Full.of {r : RowFacts} {l : List AuditEvent} (h : Full r l) :
    ∀ e ∈ l, e.caseId = some r.caseId := by
  obtain ⟨s, h', st, c, rfl, hs, hh, hst, hc, -⟩ := h.events
  simp [hs.1, hh.1.1, hst.1.1, hc.1]

/-- A row comes with all its events. -/
lemma Life.of_row {v : View} {r : RowFacts} (h : Life v) (hr : r ∈ v.rows) :
    Full r v.log ∧ v = ⟨v.log, [r], [], []⟩ := by
  cases h with
  | created h =>
    obtain rfl := List.mem_singleton.mp hr
    exact ⟨h, rfl⟩
  | _ => cases hr

/-- Evidence that was created is there until it is deleted. -/
lemma Life.of_made {v : View} (h : Life v) (hv : v.Made) :
    (∃ r, Full r v.log ∧ v = ⟨v.log, [r], [], []⟩) ∨
    ∃ r l ds, Full r l ∧ ds ≠ [] ∧ (∀ d ∈ ds, Of r.caseId .evidenceDeleted d) ∧
      v = ⟨l ++ ds, [], [], []⟩ := by
  obtain ⟨e, he, ht⟩ := hv
  cases h with
  | blank => cases he
  | early h => exact absurd ht (h.not_made e he).1
  | failed h hf =>
    rcases List.mem_append.mp he with he | he
    · exact absurd ht (h.not_made e he).1
    · rw [List.mem_singleton.mp he, hf.2] at ht
      cases ht
  | created h => exact .inl ⟨_, h, rfl⟩
  | deleted h hne hds => exact .inr ⟨_, _, _, h, hne, hds, rfl⟩
  | case => cases he

lemma Life.delete {v : View} {caseId : Uuid} {d : AuditEvent} {marked : Bool} (h : Life v)
    (hmade : ∃ e ∈ v.log, e.eventType = .evidenceCreated ∧ e.caseId = some caseId)
    (hd : Of caseId .evidenceDeleted d) (hgone : marked = false → v.rows = []) :
    Life (v.add marked ⟨[d], [], [], []⟩) := by
  obtain ⟨e, he, ht, hcase⟩ := hmade
  rcases h.of_made ⟨e, he, ht⟩ with ⟨r, hfull, hv⟩ | ⟨r, l, ds, hfull, hne, hds, hv⟩
  · have hcaseId : r.caseId = caseId := Option.some.inj ((hfull.of e he).symm.trans hcase)
    cases marked with
    | false =>
      have hrows := hgone rfl
      rw [hv] at hrows
      cases hrows
    | true =>
      rw [hv]
      refine .deleted hfull (by simp) fun x hx => ?_
      rw [List.mem_singleton.mp hx, hcaseId]
      exact hd
  · have hcaseId : r.caseId = caseId := by
      rw [hv] at he
      rcases List.mem_append.mp he with he | he
      · exact Option.some.inj ((hfull.of e he).symm.trans hcase)
      · exact Option.some.inj ((hds e he).1.symm.trans hcase)
    have hadd : v.add marked ⟨[d], [], [], []⟩ = ⟨l ++ (ds ++ [d]), [], [], []⟩ := by
      rw [hv]
      simp [View.add]
    rw [hadd]
    refine .deleted hfull (by simp) fun x hx => ?_
    rcases List.mem_append.mp hx with hx | hx
    · exact hds x hx
    · rw [List.mem_singleton.mp hx, hcaseId]
      exact hd

end WhaleMas.EvidenceLife
