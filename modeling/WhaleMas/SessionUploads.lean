import WhaleMas.UploadStates
import WhaleMas.SessionRequests

/-!
The upload of evidence, call by call, with its exception handlers. In a run that is not clean
every call may fail; in a clean run an upload can only meet a duplicate.
-/

namespace WhaleMas.SessionUploads

open WhaleMas.Models WhaleMas.AuditLog WhaleMas.Program WhaleMas.RelyGuarantee
open WhaleMas.Database WhaleMas.Hashing WhaleMas.Services WhaleMas.EvidenceLife
open WhaleMas.SessionRules WhaleMas.SessionFrame WhaleMas.SessionRequests WhaleMas.UploadStates

variable {ι : Type} {S : Setting ι} {i : ι} {caseId E : Uuid} {name : String}
  {log : List AuditEvent} {object : Option StoredObject}

/-- In a clean run, a row with the content of the uploads is there. -/
def Duplicate (S : Setting ι) (w : World ι) : Prop := S.clean → ∃ r ∈ w.evidence, S.Same r

/-- What an upload that fails knows. -/
def Ending (S : Setting ι) (i : ι) (caseId E : Uuid) (name : String) (log : List AuditEvent)
    (object : Option StoredObject) (w : World ι) : Prop :=
  Holds S i caseId E name log object w ∧ Duplicate S w

/-- An exception has reached the handlers of an upload. -/
structure Failing (S : Setting ι) (i : ι) (caseId E : Uuid) (name : String) (p : Exn × Locals)
    (w : World ι) : Prop where
  held : p.1.isException = true → ∃ log object, Early caseId log ∧
    Holds S i caseId E name log object w ∧ (S.clean → object = none ∨
      p.2.stored = true ∧ p.2.objectKey = some (objectKeyOf caseId E name))
  key : ∀ k ∈ p.2.objectKey, k = objectKeyOf caseId E name
  raised : S.clean → p.1 = .integrity ∨ p.1 = .domain duplicateError
  duplicate : Duplicate S w

lemma knowledge_duplicate : Knowledge (rules S) i (Duplicate S) where
  stable := fun _ _ h _ hr _ hc => Rely.same hr hc (h hc)
  quiet := fun _ _ hq h hc => by
    rw [hq.evidence]
    exact h hc
  draw := fun _ _ _ _ h => h

lemma knowledge_ending (hlog : Early caseId log) :
    Knowledge (rules S) i (Ending S i caseId E name log object) :=
  (knowledge_holds hlog.open).and knowledge_duplicate

lemma failing_of_faulty {l : Locals} {e : Exn} {w : World ι} (hlog : Early caseId log)
    (hkey : ∀ k ∈ l.objectKey, k = objectKeyOf caseId E name)
    (h : Faulty S.clean (Holds S i caseId E name log object) e w) :
    Failing S i caseId E name (e, l) w :=
  ⟨fun _ => ⟨log, object, hlog, h.2, fun hc => absurd hc h.1⟩, hkey, fun hc => absurd hc h.1,
    fun hc => absurd hc h.1⟩

/-- A committed row clashes with the row of an upload only by its case and content. -/
lemma same_of_clash {w : World ι} {r row : Evidence} (hw : Inv S w)
    (h : Holds S i caseId E name log object w) (hid : row.id = E)
    (hkey : row.objectKey = objectKeyOf caseId E name) (hr : r ∈ w.evidence)
    (hclash : Clash r row) : r.caseId = row.caseId ∧ r.sha256 = row.sha256 := by
  have hno : r.id ≠ E := fun hrE => by
    have hrow := mem_view_rows hr hrE
    rw [h.view] at hrow
    cases hrow
  have hold : ¬ S.old E := fun hold => by
    have ho := (hw.old E).mpr hold
    rw [h.owner] at ho
    cases ho
  rcases hclash with hc | hc | hc
  · exact absurd (hc.trans hid) hno
  · exact hc
  · exact absurd (hw.keyed r hr caseId E name hold (hc.trans hkey)) hno

variable [DecidableEq ι]

lemma Duplicate.commit {w : World ι} (hw : Inv S w) (h : Duplicate S w) :
    Duplicate S (w.commit i) := by
  intro hc
  obtain ⟨r, hr, hs⟩ := h hc
  have hd := ((hw.clean hc).modest i).deleted
  exact ⟨_, mem_commit_evidence.mpr ⟨r, .inl hr, by simp [hd], rfl⟩, hs⟩

variable [Fintype ι] {hashtext : String → ℤ} {T : Txn} {G : World ι → Prop}

/-! ### Reading the file -/

lemma triple_ofExcept {α : Type} {x : Except DomainError α} (h : S.clean → ∃ a, x = .ok a) :
    ETriple (machine hashtext) (rules S) i G (ofExcept x) (fun a w => x = .ok a ∧ G w)
      (Faulty S.clean G) := by
  cases x with
  | ok a => exact etriple_pure fun _ _ hg => ⟨rfl, hg⟩
  | error e =>
    refine etriple_throw fun w _ hg => ⟨fun hc => ?_, hg⟩
    obtain ⟨a, ha⟩ := h hc
    cases ha

lemma triple_readUpload (hG : Knowledge (rules S) i G) (v : FileValidator)
    (chunks : List (List UInt8)) (size : ℕ) (content : List UInt8)
    (hsize : S.clean → size + chunks.flatten.length ≤ v.maxSizeBytes) :
    ETriple (machine hashtext) (rules S) i (At i T G) (readUpload v chunks size content)
      (fun p w => p = (size + chunks.flatten.length, content ++ chunks.flatten) ∧ At i T G w)
      (Faulty S.clean G) := by
  refine triple_readUpload_of (fun c => triple_localCall hG c) chunks size content
    fun n hbig hle => ?_
  have hcheck : S.clean → ∃ a, v.validateSize n = .ok a :=
    fun hc => absurd (hsize hc) (Nat.not_le.mpr (hbig.trans_le hle))
  exact etriple_conseq (triple_ofExcept hcheck) (fun _ _ h => h) (fun _ _ _ h => h.2)
    fun _ _ _ h => ⟨h.1, h.2.2⟩

/-! ### Hashing the file -/

/-- The events of an upload are about its evidence. -/
lemma about_events {T : Txn} (hd : T.deleted = []) (hc : T.cases = [])
    (hr : ∀ r ∈ T.evidence, r.id = E)
    (h : ∀ e ∈ T.events, ∃ a p id now, e = newEvent p a id now ∧ a.resourceType = "evidence" ∧
      a.resourceId = some E.str ∧ a.eventType ≠ .caseCreated) : About E T := by
  refine ⟨hd, hc, hr, fun e he => ?_⟩
  obtain ⟨a, p, id, now, rfl, ht, hid, hne⟩ := h e he
  exact ⟨⟨ht, hid⟩, hne⟩

/-- The commit of one event of an upload. -/
lemma triple_commit_event {a : AppendArgs} {p : Option AuditEvent} {id : Uuid} {now : Datetime}
    (ht : a.resourceType = "evidence") (hid : a.resourceId = some E.str)
    (hne : a.eventType ≠ .caseCreated) (hlog : View.Open ⟨log, [], [], []⟩)
    (hlife : Life ⟨log ++ [newEvent p a id now], [], [], []⟩) :
    ETriple (machine hashtext) (rules S) i
      (At i { events := [newEvent p a id now] } (Holds S i caseId E name log object))
      (call .commit)
      (fun _ => At i {} (Holds S i caseId E name (log ++ [newEvent p a id now]) object))
      (fun _ w => ¬ S.clean ∧ (Holds S i caseId E name log object w ∨
        Holds S i caseId E name (log ++ [newEvent p a id now]) object w)) := by
  have habout : About E { events := [newEvent p a id now] } := by
    refine about_events rfl rfl (by simp) fun e he => ?_
    exact ⟨a, p, id, now, List.mem_singleton.mp he, ht, hid, hne⟩
  refine etriple_error (triple_commit (knowledge_holds hlog) fun w hw hat =>
    Holds.commit hw hat habout hlog rfl hlife) ?_
  exact fun _ _ _ h => ⟨h.1, h.2.imp_right And.left⟩

/-- What an upload may assume of a clean run. -/
structure Fits (S : Setting ι) (service : EvidenceService) (caseId : Uuid) (upload : UploadFile)
    (parentEvidenceId : Option Uuid) : Prop where
  caseId : caseId = S.caseId
  content : upload.chunks.flatten = S.content
  metadata : ∃ p, service.validator.validateMetadata upload.filename upload.contentType = .ok p
  pos : 0 < S.content.length
  max : S.content.length ≤ service.validator.maxSizeBytes
  parent : parentEvidenceId = none

lemma triple_getByHash (hlog : Early caseId log) (digest : String)
    (hdigest : S.clean → caseId = S.caseId ∧ digest = S.digest) :
    ETriple (machine hashtext) (rules S) i (At i {} (Holds S i caseId E name log object))
      (call (.getByHash caseId digest))
      (fun r w => At i {} (Holds S i caseId E name log object) w ∧ (r ≠ none → Duplicate S w))
      (Faulty S.clean (Holds S i caseId E name log object)) := by
  refine triple_look (knowledge_holds hlog.open) (by simp) fun w c r v hw hat hx => ?_
  obtain ⟨rfl, rfl⟩ := Prod.mk.inj (Option.some.inj hx)
  refine ⟨rfl, _, rfl, hat, fun hne hc => ?_⟩
  obtain ⟨r, hr⟩ := Option.ne_none_iff_exists'.mp hne
  have hmem := List.mem_of_find?_eq_some hr
  have hsame := List.find?_some hr
  simp only [Bool.decide_and, Bool.and_eq_true, decide_eq_true_eq] at hsame
  obtain ⟨hcase, hdig⟩ := hdigest hc
  refine ⟨r, ?_, hsame.1.trans hcase, hsame.2.trans hdig⟩
  simpa [World.evidenceFor, hat.txn_evidence, hat.txn_deleted] using hmem

lemma triple_receiveUpload (self : EvidenceService) (upload : UploadFile)
    (createdBy : Option String) (parentEvidenceId : Option Uuid) {s : AuditEvent}
    (hs : Of caseId .evidenceUploadStarted s)
    (hfits : S.clean → Fits S self caseId upload parentEvidenceId) :
    ETriple (machine hashtext) (rules S) i (At i {} (Holds S i caseId E name [s] none))
      (receiveUpload self caseId E upload createdBy)
      (fun r w => (S.clean → r.2.1 = S.content) ∧ r.2.2 = Sha256.hexdigest r.2.1 ∧
        ∃ log, Hashed caseId r.2.2 log ∧ At i {} (Holds S i caseId E name log none) w)
      (fun e => Failing S i caseId E name (e, ⟨true, none, false⟩)) := by
  have hearly : Early caseId [s] := .started hs
  have hknow : Knowledge (rules S) i (Holds S i caseId E name [s] none) :=
    knowledge_holds hearly.open
  have hfail : ∀ e w, Inv S w → Faulty S.clean (Holds S i caseId E name [s] none) e w →
      Failing S i caseId E name (e, ⟨true, none, false⟩) w :=
    fun e w _ h => failing_of_faulty hearly (by simp) h
  have hlocal : ∀ l, ETriple (machine hashtext) (rules S) i
      (At i {} (Holds S i caseId E name [s] none)) (call (.localCall l))
      (fun _ => At i {} (Holds S i caseId E name [s] none))
      (fun e => Failing S i caseId E name (e, ⟨true, none, false⟩)) :=
    fun l => etriple_error (triple_localCall hknow l) hfail
  have hmax : S.clean → 0 + upload.chunks.flatten.length ≤ self.validator.maxSizeBytes :=
    fun hc => by
      rw [Nat.zero_add, (hfits hc).content]
      exact (hfits hc).max
  refine etriple_bind (etriple_error (triple_readUpload hknow self.validator upload.chunks 0 []
    hmax) hfail) fun p => ?_
  refine triple_and ?_
  rintro rfl
  refine etriple_bind (hlocal .closeTemp) fun _ => ?_
  have hsize : S.clean → ∃ a, self.validator.validateSize (0 + upload.chunks.flatten.length) =
      .ok a := fun hc => by
    obtain ⟨-, hcontent, -, hpos, hmax, -⟩ := hfits hc
    have h0 : S.content.length ≠ 0 := by omega
    have h1 : ¬ self.validator.maxSizeBytes < S.content.length := by omega
    exact ⟨(), by rw [hcontent, Nat.zero_add, FileValidator.validateSize, if_neg h0, if_neg h1]⟩
  refine etriple_bind (etriple_conseq (triple_ofExcept hsize) (fun _ _ h => h)
    (fun _ _ _ h => h.2) fun e w hw h => hfail e w hw ⟨h.1, h.2.2⟩) fun _ => ?_
  refine etriple_bind (hlocal .hashFile) fun _ => ?_
  rw [sha256File_default]
  have hdigest : S.clean → caseId = S.caseId ∧
      Sha256.hexdigest ([] ++ upload.chunks.flatten) = S.digest := fun hc => by
    rw [List.nil_append, (hfits hc).content]
    exact ⟨(hfits hc).caseId, rfl⟩
  refine etriple_bind (etriple_error (triple_getByHash hearly _ hdigest) hfail) fun r => ?_
  cases r with
  | some r =>
    refine etriple_bind (Q := fun _ _ => False) (etriple_throw fun w _ h => ?_)
      fun _ w _ h => h.elim
    exact ⟨fun _ => ⟨[s], none, hearly, h.1.2, fun _ => .inl rfl⟩, by simp, fun _ => .inr rfl,
      h.2 (by simp)⟩
  | none =>
    refine etriple_bind (etriple_conseq (triple_append hknow self.auditService
      { uploadEvent caseId E createdBy .evidenceHashed "hash" with
        outputHash := some (Sha256.hexdigest ([] ++ upload.chunks.flatten)) }
      (case_found fun hc => (hfits hc).caseId)) (fun _ _ h => h.1) (fun _ _ _ h => h)
      hfail) fun h => ?_
    refine triple_and ?_
    rintro ⟨p, id, now, rfl⟩
    have hhashed : Hashed caseId (Sha256.hexdigest ([] ++ upload.chunks.flatten))
        ([s] ++ [newEvent p { uploadEvent caseId E createdBy .evidenceHashed "hash" with
          outputHash := some (Sha256.hexdigest ([] ++ upload.chunks.flatten)) } id now]) :=
      ⟨s, _, rfl, hs, ⟨rfl, rfl⟩, rfl⟩
    refine etriple_bind (etriple_error (triple_commit_event rfl rfl (by simp [uploadEvent])
      hearly.open (.early hhashed.early)) ?_) fun _ => ?_
    · rintro e w hw ⟨hc, h | h⟩
      · exact hfail e w hw ⟨hc, h⟩
      · exact failing_of_faulty hhashed.early (by simp) ⟨hc, h⟩
    · exact etriple_pure fun w _ h =>
        ⟨fun hc => (List.nil_append _).trans (hfits hc).content, rfl, _, hhashed, h⟩

/-! ### Storing the object and the row -/

lemma triple_putObject (hlog : Early caseId log) (data : List UInt8) (contentType : String) :
    ETriple (machine hashtext) (rules S) i (At i {} (Holds S i caseId E name log none))
      (call (.putObject (objectKeyOf caseId E name) data contentType))
      (fun _ => At i {} (Holds S i caseId E name log (some ⟨data, contentType⟩)))
      (fun e =>
        Failing S i caseId E name (e, ⟨true, some (objectKeyOf caseId E name), false⟩)) := by
  refine triple_exec (stable_at (knowledge_holds hlog.open).stable) (by simp [rules, Demand]) ?_ ?_
  · intro w c r v hw hat hpolicy hx
    obtain ⟨rfl, rfl⟩ := Prod.mk.inj (Option.some.inj hx)
    have hkeeps := keeps_setObject (c := caseId) (n := name) (o := some ⟨data, contentType⟩) hw
      hat.2.owner
    have hholds := hat.2.setObject (some ⟨data, contentType⟩)
    refine ⟨hkeeps.1, hkeeps.2, ⟨hat.1, hholds⟩, fun e hf => ?_⟩
    exact failing_of_faulty hlog (by simp) ⟨not_clean hpolicy (by simp [hf]), hholds⟩
  · intro w c e _ hat hpolicy hf
    exact failing_of_faulty hlog (by simp) ⟨not_clean hpolicy (by simp [hf]), hat.2⟩

lemma triple_createEvidence (hlog : Early caseId log) (row : Datetime → Evidence)
    (hid : ∀ now, (row now).id = E) (hkey : ∀ now, (row now).objectKey = objectKeyOf caseId E name)
    (hsame : S.clean → ∀ now, S.Same (row now) ∧ (row now).parentEvidenceId = none) :
    ETriple (machine hashtext) (rules S) i (At i {} (Holds S i caseId E name log object))
      (call (.createEvidence row))
      (fun r w => (∃ now, r = row now) ∧
        At i { evidence := [r] } (Holds S i caseId E name log object) w)
      (fun e => Failing S i caseId E name (e, ⟨true, some (objectKeyOf caseId E name), true⟩)) := by
  have hfail : ∀ e w, Holds S i caseId E name log object w → (S.clean → e = .integrity) →
      Duplicate S w →
      Failing S i caseId E name (e, ⟨true, some (objectKeyOf caseId E name), true⟩) w :=
    fun e w h he hd => ⟨fun _ => ⟨log, object, hlog, h, fun _ => .inr ⟨rfl, rfl⟩⟩, by simp,
      fun hc => .inl (he hc), hd⟩
  refine triple_exec (stable_at (knowledge_holds hlog.open).stable) (by simp [rules, Demand]) ?_ ?_
  · intro w c r v hw hat hpolicy hx
    have hfor : w.evidenceFor i = w.evidence := by
      simp [World.evidenceFor, hat.txn_evidence, hat.txn_deleted]
    simp only [exec, execCreateEvidence, hfor] at hx
    split_ifs at hx with hwait hbad
    · -- the row clashes, or its case or its parent is missing
      obtain ⟨rfl, rfl⟩ := Prod.mk.inj (Option.some.inj hx)
      have hdup : Duplicate S w := fun hc => by
        obtain ⟨hs, hparent⟩ := hsame hc c.now
        rcases hbad with ⟨r, hr, hclash⟩ | hcase | hpar
        · obtain ⟨hcaseId, hsha⟩ := same_of_clash hw hat.2 (hid _) (hkey _) hr hclash
          exact ⟨r, hr, hcaseId.trans hs.1, hsha.trans hs.2⟩
        · obtain ⟨k, hmem, hk⟩ := exists_casesFor (i := i) (hw.clean hc).caseThere
          exact absurd (hk.trans hs.1.symm) (hcase k hmem)
        · simp [hparent] at hpar
      exact ⟨hw, fun j _ => Rely.refl S j w, hfail _ _ hat.2 (fun _ => rfl) hdup,
        fun e hf => hfail _ _ hat.2
          (fun hc => absurd hc (not_clean hpolicy (by simp [hf]))) hdup⟩
    · obtain ⟨rfl, rfl⟩ := Prod.mk.inj (Option.some.inj hx)
      push Not at hwait hbad
      have hkeeps : Keeps (rules S) i w (w.setTxn i { w.txn i with
          evidence := (w.txn i).evidence ++ [row c.now] }) := by
        refine keeps_quiet hw quiet_setTxn fun hc => ?_
        rw [setTxn_txn, hat.txn_evidence]
        refine ⟨hat.txn_deleted, by simp, fun r hr hs => ?_⟩
        obtain rfl := List.mem_singleton.mp hr
        refine ⟨fun s hs' hss => hbad.1 s hs' (.inr (.inl ?_)),
          fun j hj s hs' hss => (hwait j hj).1 s hs' (.inr (.inl ?_))⟩
        · exact ⟨hss.1.trans hs.1.symm, hss.2.trans hs.2.symm⟩
        · exact ⟨hss.1.trans hs.1.symm, hss.2.trans hs.2.symm⟩
      have hholds := (knowledge_holds (S := S) hlog.open).setTxn hat.2
      refine ⟨hkeeps.1, hkeeps.2, ⟨⟨_, rfl⟩, ?_, hholds _⟩, fun e hf => ?_⟩
      · rw [setTxn_txn, hat.txn]
        rfl
      · have hc : ¬ S.clean := not_clean hpolicy (by simp [hf])
        exact hfail _ _ (hholds _) (fun h => absurd h hc) fun h => absurd h hc
  · intro w c e _ hat hpolicy hf
    have hc : ¬ S.clean := not_clean hpolicy (by simp [hf])
    exact hfail _ _ hat.2 (fun h => absurd h hc) fun h => absurd h hc

lemma triple_recordUpload {o : StoredObject} {digest : String} (self : EvidenceService)
    (row : Datetime → Evidence) (createdBy : Option String) (hlog : Hashed caseId digest log)
    (hid : ∀ now, (row now).id = E) (hcaseId : ∀ now, (row now).caseId = caseId)
    (hkey : ∀ now, (row now).objectKey = objectKeyOf caseId E name)
    (hdigest : ∀ now, (row now).sha256 = digest)
    (hclean : S.clean → caseId = S.caseId ∧ ∀ now, S.Same (row now) ∧
      (row now).parentEvidenceId = none ∧ o = ⟨S.content, (row now).mimeType⟩) :
    ETriple (machine hashtext) (rules S) i (At i {} (Holds S i caseId E name log (some o)))
      (recordUpload self caseId E (objectKeyOf caseId E name) digest row createdBy)
      (fun r => Outcome S i (.ok r))
      (fun e => Failing S i caseId E name (e, ⟨true, some (objectKeyOf caseId E name), true⟩)) := by
  have hearly := hlog.early
  have hknow : Knowledge (rules S) i (Holds S i caseId E name log (some o)) :=
    knowledge_holds hearly.open
  have hfail : ∀ e w, Inv S w → Faulty S.clean (Holds S i caseId E name log (some o)) e w →
      Failing S i caseId E name (e, ⟨true, some (objectKeyOf caseId E name), true⟩) w :=
    fun e w _ h => failing_of_faulty hearly (by simp) h
  refine etriple_bind (triple_createEvidence hearly row hid hkey
    fun hc now => ⟨((hclean hc).2 now).1, ((hclean hc).2 now).2.1⟩) fun (r : Evidence) => ?_
  refine triple_and ?_
  rintro ⟨now, rfl⟩
  refine etriple_bind (etriple_error (triple_append hknow self.auditService _
    (case_found fun hc => (hclean hc).1)) hfail) fun st => ?_
  refine triple_and ?_
  rintro ⟨p, id, t, rfl⟩
  refine etriple_bind (etriple_error (triple_append hknow self.auditService _
    (case_found fun hc => (hclean hc).1)) hfail) fun c => ?_
  refine triple_and ?_
  rintro ⟨p', id', t', rfl⟩
  refine etriple_bind (etriple_error (triple_commit (H := Outcome S i (.ok (row now))) hknow
    fun w hw hat => ?_) ?_)
    fun _ => etriple_pure fun _ _ h => h.2
  · refine Holds.win hw hat (about_events rfl rfl (by simp [hid]) fun e he => ?_) hearly.open rfl
      (hid now) (hkey now) ?_ fun hc => ⟨(hclean hc).1, ((hclean hc).2 now).1,
        ((hclean hc).2 now).2.2⟩
    · simp only [List.nil_append, List.cons_append, List.mem_cons, List.not_mem_nil,
        or_false] at he
      rcases he with rfl | rfl
      · exact ⟨_, _, _, _, rfl, rfl, rfl, by simp [uploadEvent]⟩
      · exact ⟨_, _, _, _, rfl, rfl, rfl, by simp [uploadEvent]⟩
    · obtain ⟨s, h, rfl, hs, hh, hout⟩ := hlog.events
      have hcase := hcaseId now
      refine .created ⟨s, h, _, _, rfl, ?_, ⟨?_, ?_⟩, ⟨?_, ?_⟩, ?_, ?_⟩
      · simpa [factsOf, hcase] using hs
      · simpa [factsOf, hcase] using hh
      · simpa [factsOf, hdigest now] using hout
      · simp [factsOf, hcase, Of, newEvent, uploadEvent]
      · simp [factsOf, hkey now, newEvent]
      · simp [factsOf, hcase, Of, newEvent, uploadEvent]
      · simp [factsOf, hdigest now, newEvent]
  · rintro e w hw ⟨hc, h | ⟨-, he⟩⟩
    · exact hfail e w hw ⟨hc, h⟩
    · -- applied, but no handler looks at the exception
      refine ⟨fun h => ?_, by simp, fun h => absurd h hc, fun h => absurd h hc⟩
      rw [he (by simp)] at h
      cases h

lemma triple_storeUpload (self : EvidenceService) (upload : UploadFile)
    (sourceType : EvidenceSourceType) (createdBy : Option String) (parentEvidenceId : Option Uuid)
    (extension : String) {s : AuditEvent} (hs : Of caseId .evidenceUploadStarted s)
    (hfits : S.clean → Fits S self caseId upload parentEvidenceId) :
    ETriple (machine hashtext) (rules S) i (At i {} (Holds S i caseId E name [s] none))
      (storeUpload self caseId E upload sourceType createdBy parentEvidenceId name extension)
      (fun r => Outcome S i (.ok r)) (Failing S i caseId E name) := by
  have hearly : Early caseId [s] := .started hs
  refine etriple_bind (triple_within (triple_localCall (knowledge_holds hearly.open) .openTemp)
    fun e w _ h => failing_of_faulty hearly (by simp) h) fun _ => ?_
  refine etriple_bind (triple_within (triple_receiveUpload self upload createdBy parentEvidenceId
    hs hfits) fun _ _ _ h => h) fun p => ?_
  obtain ⟨size, content, digest⟩ := p
  refine triple_and fun hcontent => triple_and fun hdigest => triple_exists fun log => ?_
  refine triple_and fun hlog => ?_
  refine etriple_bind (triple_within (triple_putObject hlog.early content _)
    fun _ _ _ h => h) fun _ => ?_
  refine triple_within (triple_recordUpload self _ createdBy hlog (fun _ => rfl) (fun _ => rfl)
    (fun _ => rfl) (fun _ => rfl) fun hc => ⟨(hfits hc).caseId, fun now => ⟨⟨(hfits hc).caseId, ?_⟩,
      (hfits hc).parent, ?_⟩⟩) fun _ _ _ h => h
  · exact hdigest.trans (congrArg Sha256.hexdigest (hcontent hc))
  · exact congrArg (StoredObject.mk · _) (hcontent hc)

/-! ### Handling exceptions -/

/-- The object is deleted, unless the deletion fails. -/
lemma triple_compensate (hlog : Early caseId log) :
    ETriple (machine hashtext) (rules S) i (At i {} (Ending S i caseId E name log object))
      (call (.deleteObject (objectKeyOf caseId E name)))
      (fun _ => At i {} (Ending S i caseId E name log none))
      (fun _ w => ¬ S.clean ∧ ∃ object, At i {} (Ending S i caseId E name log object) w) := by
  refine triple_exec (stable_at (knowledge_ending hlog).stable) ?_ ?_ ?_
  · -- no committed row has the key
    rintro w hw hat key hkey - r hr rfl
    have hkey' := Op.deleteObject.inj hkey
    have hold : ¬ S.old E := fun hold => by
      have ho := (Inv.old hw E).mpr hold
      rw [hat.2.1.owner] at ho
      cases ho
    have hrow := mem_view_rows hr (Inv.keyed hw r hr caseId E name hold hkey'.symm)
    rw [hat.2.1.view] at hrow
    cases hrow
  · intro w c r v hw hat hpolicy hx
    obtain ⟨rfl, rfl⟩ := Prod.mk.inj (Option.some.inj hx)
    have hkeeps := keeps_setObject (c := caseId) (n := name) (o := none) hw hat.2.1.owner
    have hend : At i {} (Ending S i caseId E name log none)
        (w.setObject (objectKeyOf caseId E name) none) :=
      ⟨hat.1, hat.2.1.setObject none, hat.2.2⟩
    exact ⟨hkeeps.1, hkeeps.2, hend,
      fun e hf => ⟨not_clean hpolicy (by simp [hf]), none, hend⟩⟩
  · intro w c e _ hat hpolicy hf
    exact ⟨not_clean hpolicy (by simp [hf]), object, hat⟩

lemma triple_compensateStorage (hlog : Early caseId log)
    (objectKey : Option String) (stored : Bool)
    (hkey : ∀ k ∈ objectKey, k = objectKeyOf caseId E name)
    (hclean : S.clean → object = none ∨ stored = true ∧
      objectKey = some (objectKeyOf caseId E name)) :
    ETriple (machine hashtext) (rules S) i (At i {} (Ending S i caseId E name log object))
      (compensateStorage objectKey stored)
      (fun _ w => ∃ object, (S.clean → object = none) ∧
        At i {} (Ending S i caseId E name log object) w)
      (fun _ _ => ¬ S.clean) := by
  refine triple_compensateStorage_of (fun w _ hno hat => ?_) (fun key hk _ => ?_)
    (F := fun _ w => ¬ S.clean ∧ ∃ object, At i {} (Ending S i caseId E name log object) w)
    (fun _ _ _ _ h => ?_) fun _ _ _ _ h => h.1
  · exact ⟨object, fun hc => (hclean hc).resolve_right fun h => hno _ h.symm, hat⟩
  · obtain rfl := hkey key hk
    exact etriple_conseq (triple_compensate hlog) (fun _ _ h => h)
      (fun _ _ _ h => ⟨none, fun _ => rfl, h⟩) fun _ _ _ h => h
  · obtain ⟨hc, object', hat⟩ := h
    exact ⟨object', fun h => absurd h hc, hat⟩

lemma triple_recordFailure (self : EvidenceService) (actorId : Option String) (reason : String)
    (hlog : Early caseId log) (hcase : S.clean → caseId = S.caseId)
    (hobject : S.clean → object = none) :
    ETriple (machine hashtext) (rules S) i (At i {} (Ending S i caseId E name log object))
      (recordFailure self caseId E actorId reason)
      (fun _ w => S.clean → Lost S i w) (fun _ _ => ¬ S.clean) := by
  have hknow : Knowledge (rules S) i (Ending S i caseId E name log object) := knowledge_ending hlog
  refine triple_recordFailure_of (etriple_error (triple_append hknow self.auditService _
    (case_found hcase)) fun _ _ _ h => h.1) (fun f => ?_) (fun e _ => ?_) fun _ _ _ _ h => h
  · refine triple_and ?_
    rintro ⟨p, id, now, rfl⟩
    refine etriple_conseq (triple_commit (H := fun w => S.clean → Lost S i w) hknow
      fun w hw hat => ?_) (fun _ _ h => h) (fun _ _ _ h => h.2) fun _ _ _ h => h.1
    have hat' : At i _ (Holds S i caseId E name log object) w := ⟨hat.1, hat.2.1⟩
    obtain ⟨hkeeps, hholds⟩ := Holds.commit hw hat'
      (about_events rfl rfl (by simp) fun e he => ⟨_, p, id, now, List.mem_singleton.mp he, rfl,
        rfl, by simp [uploadEvent]⟩) hlog.open rfl (.failed hlog ⟨rfl, rfl⟩)
    refine ⟨hkeeps, fun hc => ?_⟩
    have hdup : Duplicate S (w.commit i) := Duplicate.commit hw hat.2.2
    rw [hobject hc] at hholds
    exact hholds.lost (hdup hc)
  · refine triple_conseq (P := fun w => ¬ S.clean ∧ True) (triple_and fun hc => ?_)
      (fun _ _ h => ⟨h, trivial⟩) fun _ _ _ h => h
    exact triple_at fun T => etriple_conseq (triple_rollback knowledge_true) (fun _ _ h => h)
      (fun _ _ _ _ h => absurd h hc) fun _ _ _ h => h.1

/-- The handlers roll back, compensate, record the failure and raise. -/
lemma triple_handler (self : EvidenceService) (createdBy : Option String) (e : Exn) (l : Locals)
    (reason : String) (final : Exn) (he : e.isException = true)
    (hcase : S.clean → caseId = S.caseId)
    (hfinal : S.clean → final = .domain duplicateError) :
    ETriple (machine hashtext) (rules S) i (Failing S i caseId E name (e, l))
      (do
        call .rollback
        compensateStorage l.objectKey l.stored
        recordFailure self caseId E createdBy reason
        throw final : M Evidence)
      (fun r => Outcome S i (.ok r)) (fun e => Outcome S i (.error e)) := by
  refine triple_conseq (P := fun w => ∃ log object, (Early caseId log ∧
    (S.clean → object = none ∨ l.stored = true ∧ l.objectKey = some (objectKeyOf caseId E name)) ∧
    ∀ k ∈ l.objectKey, k = objectKeyOf caseId E name) ∧ Ending S i caseId E name log object w)
    (triple_exists fun log => triple_exists fun object => triple_and ?_) ?_ fun _ _ _ h => h
  · rintro ⟨hlog, hobject, hkey⟩
    have hnot : ∀ e w, ¬ S.clean → Outcome S i (.error e) w := fun _ _ h hc => absurd hc h
    refine etriple_bind (triple_at fun T => etriple_error (triple_rollback (knowledge_ending hlog))
      fun e w _ h => hnot e w h.1) fun _ => ?_
    refine etriple_bind (etriple_error (triple_compensateStorage hlog l.objectKey l.stored hkey
      hobject) fun e w _ h => hnot e w h) fun _ => ?_
    refine triple_exists fun object' => triple_and fun hnone => ?_
    refine etriple_bind (etriple_error (triple_recordFailure self createdBy reason hlog hcase
      hnone) fun e w _ h => hnot e w h) fun _ => ?_
    exact etriple_throw fun w _ h hc => ⟨hfinal hc, h hc⟩
  · rintro w - ⟨hheld, hkey, -, hdup⟩
    obtain ⟨log, object, hlog, hholds, hobject⟩ := hheld he
    exact ⟨log, object, ⟨hlog, hobject, hkey⟩, hholds, hdup⟩

lemma triple_handleUpload (self : EvidenceService) (createdBy : Option String)
    (hcase : S.clean → caseId = S.caseId) (outcome : Except (Exn × Locals) Evidence) :
    ETriple (machine hashtext) (rules S) i
      (orElse (fun r => Outcome S i (.ok r)) (Failing S i caseId E name) outcome)
      (handleUpload self caseId E createdBy outcome)
      (fun r => Outcome S i (.ok r)) (fun e => Outcome S i (.error e)) := by
  refine triple_handleUpload_of (fun _ _ _ h => h) ?_ ?_ outcome
  · intro e l reason y he hself hdup
    refine triple_conseq (P := fun w => (S.clean → e = .integrity ∨ e = .domain duplicateError) ∧
      Failing S i caseId E name (e, l) w) (triple_and fun hraised => ?_)
      (fun w _ h => ⟨h.raised, h⟩) fun _ _ _ h => h
    refine triple_handler self createdBy e l reason y he hcase fun hc => ?_
    by_cases hintegrity : e = .integrity
    · exact hdup hintegrity
    · rw [hself hintegrity]
      exact (hraised hc).resolve_left hintegrity
  · intro e l w _ he h hc
    rcases h.raised hc with rfl | rfl
    · cases he
    · cases he

/-! ### The upload -/

lemma triple_cleanUpload {G : World ι → Prop} (hG : Knowledge (rules S) i G) (tempPath : Bool) :
    ETriple (machine hashtext) (rules S) i G (cleanUpload tempPath) (fun _ => G)
      (Faulty S.clean G) := by
  have hlocal : ∀ l, ETriple (machine hashtext) (rules S) i G (call (.localCall l))
      (fun _ => G) (Faulty S.clean G) := fun l => triple_at fun T =>
    etriple_conseq (triple_localCall hG l) (fun _ _ h => h) (fun _ _ _ h => h.2) fun _ _ _ h => h
  exact triple_cleanUpload_of (hlocal _) (hlocal _) tempPath

lemma triple_upload (self : EvidenceService) (caseId : Uuid) (upload : UploadFile)
    (sourceType : EvidenceSourceType) (createdBy : Option String)
    (parentEvidenceId : Option Uuid)
    (hfits : S.clean → Fits S self caseId upload parentEvidenceId) :
    ETriple (machine hashtext) (rules S) i (At i {} (Others i none))
      (self.uploadEvidence caseId upload sourceType createdBy parentEvidenceId)
      (fun r => Outcome S i (.ok r)) (fun e => Outcome S i (.error e)) := by
  have hnot : ∀ e w, ¬ S.clean → Outcome S i (.error e) w := fun _ _ h hc => absurd hc h
  have hknow : Knowledge (rules S) i (Others i none) := knowledge_others none
  refine etriple_bind (etriple_error (triple_requireCase hknow caseId
    (case_found fun hc => (hfits hc).caseId)) fun e w _ h => hnot e w h.1) fun _ => ?_
  refine etriple_bind (etriple_conseq (triple_ofExcept fun hc => (hfits hc).metadata)
    (fun _ _ h => h) (fun _ _ _ h => h.2) fun e w _ h => hnot e w h.1) fun p => ?_
  obtain ⟨name, extension⟩ := p
  have hdraw : ∀ w u, Inv S w → w.owner u = .fresh → Others i none w →
      Holds S i caseId u name [] none (w.draw i u) := by
    intro w u hw hu ho
    have hb := hw.blank u hu
    refine ⟨by simp [World.draw], hb.1, hb.2, by simp, fun x hx hne => ?_⟩
    have hxu : x ≠ u := by simpa using hne
    exact ho x (by simpa [World.draw, hxu] using hx) (by simp)
  refine etriple_bind (etriple_error (triple_uuid4 hknow hdraw)
    fun e w _ h => hnot e w h.1) fun (E : Uuid) => ?_
  have hopen : View.Open ⟨[], [], [], []⟩ := View.open_blank
  refine etriple_bind (etriple_error (triple_append (knowledge_holds hopen) self.auditService _
    (case_found fun hc => (hfits hc).caseId)) fun e w _ h => hnot e w h.1) fun s => ?_
  refine triple_and ?_
  rintro ⟨p, id, now, rfl⟩
  refine etriple_bind (etriple_error (triple_commit_event rfl rfl (by simp [uploadEvent]) hopen
    (.early (Early.started ⟨rfl, rfl⟩ : Early caseId _))) fun e w _ h => hnot e w h.1) fun _ => ?_
  refine etriple_bind (etriple_lift (triple_storeUpload self upload sourceType createdBy
    parentEvidenceId extension ⟨rfl, rfl⟩ hfits)) fun outcome => ?_
  have hor : ∀ r w, orElse (fun r => Outcome S i (.ok r)) (fun e => Outcome S i (.error e)) r w ↔
      Outcome S i r w := fun r w => by cases r <;> rfl
  refine triple_conseq (triple_withFinally (triple_conseq (triple_handleUpload self createdBy
    (fun hc => (hfits hc).caseId) outcome) (fun _ _ h => h) fun r w _ h => (hor r w).mp h) fun r =>
      etriple_error (triple_cleanUpload (knowledge_outcome r) _)
        fun e w _ h => hnot e w h.1) (fun _ _ h => h)
    fun r w _ h => (hor r w).mpr h

end WhaleMas.SessionUploads
