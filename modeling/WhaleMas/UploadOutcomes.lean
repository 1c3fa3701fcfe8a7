import WhaleMas.ConcurrentUploads
import WhaleMas.SoloCalls

/-!
How an upload ends when some of its calls raise an `Exception` without effect: with one row, its
object and its four events, or with no row, no object, and a log of how far it came.
-/

namespace WhaleMas.UploadOutcomes

open WhaleMas.Models WhaleMas.AuditLog WhaleMas.Program WhaleMas.RelyGuarantee WhaleMas.Alone
open WhaleMas.Database WhaleMas.Services WhaleMas.SessionFrame WhaleMas.SessionRuns
open WhaleMas.ConcurrentUploads WhaleMas.SoloCalls

variable {ι : Type} {i : ι} {w₀ w v : World ι} {caseId E : Uuid} {types : List AuditEventType}
  {l : List AuditEvent}

/-! ### Outcomes -/

/-- Calls that clean up after a failure. -/
def CleansUp : Op → Bool
  | .rollback | .localCall .closeUpload | .localCall .unlinkTemp => true
  | _ => false

/-- The call does not raise, or raises an `Exception` without effect, and cleaning up does not
raise. -/
def Harmless (e : Call ι) : Prop :=
  match e.choice.fault with
  | .none => True
  | .before x => x.isException = true ∧ CleansUp e.op = false
  | .after _ => False

instance (e : Call ι) : Decidable (Harmless e) := by
  unfold Harmless
  split <;> infer_instance

/-- The events have these types, and are about this evidence of the case. -/
structure About (caseId E : Uuid) (types : List AuditEventType) (l : List AuditEvent) : Prop where
  types : l.map AuditEvent.eventType = types
  of : ∀ e ∈ l, e.caseId = some caseId ∧ e.resourceType = "evidence" ∧ e.resourceId = some E.str

/-- The log has gained these events, and the rows are as they were. -/
structure Gained (w : World ι) (caseId E : Uuid) (types : List AuditEventType) (v : World ι) :
    Prop where
  cases : v.cases = w.cases
  evidence : v.evidence = w.evidence
  audit : ∃ l, v.audit = w.audit ++ l ∧ About caseId E types l

/-- The deletion of an object has failed. -/
def DeleteRaised (t : List (Call ι)) : Prop :=
  ∃ e ∈ t, (∃ key, e.op = .deleteObject key) ∧ e.choice.fault ≠ .none

/-- The events of an upload that failed: how far it came, and that it failed. -/
def Unfinished (types : List AuditEventType) : Prop :=
  ∃ p, p <+: [.evidenceUploadStarted, .evidenceHashed] ∧
    (types = p ∨ p ≠ [] ∧ types = p ++ [.evidenceUploadFailed])

/-- The rows are as they were, and so are the objects, unless a deletion has failed. -/
def Undone (w : World ι) (caseId : Uuid) (v : World ι) (t : List (Call ι)) : Prop :=
  ∃ E types, Unfinished types ∧ Gained w caseId E types v ∧
    (v.objects = w.objects ∨ DeleteRaised t)

/-- There is one row more, with its object and its events. -/
structure Created (w : World ι) (caseId : Uuid) (content : List UInt8) (row : Evidence)
    (v : World ι) : Prop where
  of : row.caseId = caseId ∧ row.sha256 = Sha256.hexdigest content
  cases : v.cases = w.cases
  evidence : v.evidence = w.evidence ++ [row]
  objects : v.objects =
    Function.update w.objects row.objectKey (some ⟨content, row.mimeType⟩)
  audit : ∃ l, v.audit = w.audit ++ l ∧ About caseId row.id [.evidenceUploadStarted,
    .evidenceHashed, .evidenceStored, .evidenceCreated] l

/-! ### What calls keep -/

lemma About.nil : About caseId E [] [] := ⟨rfl, by simp⟩

lemma About.snoc {a : AppendArgs} {e : AuditEvent} (h : About caseId E types l)
    (he : ∃ previous id now, e = newEvent previous a id now) (hc : a.caseId = caseId)
    (ht : a.resourceType = "evidence") (hid : a.resourceId = some E.str) :
    About caseId E (types ++ [a.eventType]) (l ++ [e]) := by
  obtain ⟨previous, id, now, rfl⟩ := he
  refine ⟨by simp [h.types, newEvent], fun e he => ?_⟩
  rcases List.mem_append.mp he with he | he
  · exact h.of e he
  · obtain rfl := List.mem_singleton.mp he
    exact ⟨congrArg some hc, ht, hid⟩

/-- Steps that do not show keep `G`. -/
def Hides (G : Past ι → Prop) : Prop :=
  ∀ w v s e, Hidden w v → G (w, s) → G (v, s ++ [e])

lemma Gained.hidden (h : Gained w₀ caseId E types w) (hid : Hidden w v) :
    Gained w₀ caseId E types v where
  cases := hid.cases.trans h.cases
  evidence := hid.evidence.trans h.evidence
  audit := by
    rw [hid.audit]
    exact h.audit

lemma DeleteRaised.mono {s : List (Call ι)} {e : Call ι} (h : DeleteRaised s) :
    DeleteRaised (s ++ [e]) := by
  obtain ⟨d, hd, hop⟩ := h
  exact ⟨d, List.mem_append_left _ hd, hop⟩

lemma Undone.hidden {s : List (Call ι)} {e : Call ι} (h : Undone w₀ caseId w s)
    (hid : Hidden w v) : Undone w₀ caseId v (s ++ [e]) := by
  obtain ⟨E, types, hf, hg, ho⟩ := h
  refine ⟨E, types, hf, hg.hidden hid, ?_⟩
  rw [hid.objects]
  exact ho.imp_right DeleteRaised.mono

lemma Created.hidden {content : List UInt8} {row : Evidence}
    (h : Created w₀ caseId content row w) (hid : Hidden w v) :
    Created w₀ caseId content row v := by
  obtain ⟨hrow, hcases, hevidence, hobjects, haudit⟩ := h
  refine ⟨hrow, hid.cases.trans hcases, hid.evidence.trans hevidence,
    hid.objects.trans hobjects, ?_⟩
  rw [hid.audit]
  exact haudit

/-- What a harmless call raises is an `Exception`. -/
lemma Harmless.isException {e : Call ι} {x : Exn} (he : Harmless e) (h : Raised e.choice x) :
    x.isException = true := by
  unfold Harmless at he
  rcases h with h | h | ⟨-, h⟩
  · rw [h] at he
    exact he.1
  · rw [h] at he
    exact he.elim
  · cases x <;> first | rfl | exact absurd rfl h

lemma Hides.steady {G : Past ι → Prop} (hG : Hides G) :
    Steady Harmless G fun x p => x.isException = true ∧ G p where
  pass := fun w v s _ _ _ _ _ hid hg => hG w v s _ hid hg
  fail := fun w v s _ _ _ _ hok hr hid hg => ⟨hok.isException hr, hG w v s _ hid hg⟩
  raise := fun _ _ hg => ⟨rfl, hg⟩

/-- What `K` says is about the objects and the calls so far. -/
def AboutObjects (K : Past ι → Prop) : Prop :=
  ∀ w v s e, v.objects = w.objects → K (w, s) → K (v, s ++ [e])

def Stores (objects : String → Option StoredObject) (p : Past ι) : Prop := p.1.objects = objects

/-- The objects are as they were, unless a deletion has failed. -/
def Restored (w₀ : World ι) (p : Past ι) : Prop :=
  p.1.objects = w₀.objects ∨ DeleteRaised p.2

lemma aboutObjects_stores {objects : String → Option StoredObject} :
    AboutObjects (Stores objects : Past ι → Prop) := fun _ _ _ _ h hk => h.trans hk

lemma aboutObjects_restored : AboutObjects (Restored w₀) :=
  fun _ _ _ _ h hk => hk.imp h.trans DeleteRaised.mono

/-- The log has gained these events, and `K` says what the objects are. -/
def Stage (w₀ : World ι) (caseId E : Uuid) (types : List AuditEventType) (K : Past ι → Prop)
    (p : Past ι) : Prop :=
  Gained w₀ caseId E types p.1 ∧ K p

lemma hides_stage {K : Past ι → Prop} (hK : AboutObjects K) :
    Hides (Stage w₀ caseId E types K) :=
  fun w v s e hid hg => ⟨hg.1.hidden hid, hK w v s e hid.objects hg.2⟩

lemma steady_stores {objects : String → Option StoredObject} :
    Steady Harmless (Stage w₀ caseId E types (Stores objects)) fun x p =>
      x.isException = true ∧ Stage w₀ caseId E types (Stores objects) p :=
  (hides_stage aboutObjects_stores).steady

/-- The log has gained `types`, or that the upload failed besides. -/
def Recorded (w₀ : World ι) (caseId E : Uuid) (types : List AuditEventType) (p : Past ι) : Prop :=
  Stage w₀ caseId E types (Restored w₀) p ∨
    Stage w₀ caseId E (types ++ [.evidenceUploadFailed]) (Restored w₀) p

lemma undone_of_recorded {p : Past ι} (hne : types ≠ [])
    (hpre : types <+: [.evidenceUploadStarted, .evidenceHashed])
    (h : Recorded w₀ caseId E types p) : Undone w₀ caseId p.1 p.2 := by
  rcases h with h | h
  · exact ⟨E, _, ⟨types, hpre, .inl rfl⟩, h.1, h.2⟩
  · exact ⟨E, _, ⟨types, hpre, .inr ⟨hne, rfl⟩⟩, h.1, h.2⟩

variable [DecidableEq ι] [Fintype ι] {hashtext : String → ℤ}

/-! ### The `try` block -/

/-- A harmless call that does one thing to the world: where it raises, it has not done it. -/
lemma triple_harmless {o : Op} {a : o.Response} {f : World ι → World ι} {T : Txn}
    {G Q : Past ι → Prop} (hG : Hides G) (hexec : ∀ w c, exec hashtext o i c w = some (.ok a, f w))
    (hclose : o ≠ .close)
    (hdone : ∀ w s e, Here i T G (w, s) → Q (f w, s ++ [e])) :
    ETriple (recorded (machine hashtext)) (alone Harmless i) i (Here i T G) (call o)
      (fun _ => Q) fun x p => x.isException = true ∧ G p := by
  refine triple_effect hexec hclose (fun w s c h _ _ => hdone w s _ h) ?_ ?_
  · intro w s c x h hok hf
    exact ⟨hok.isException (.inl hf), hG w w s _ (.refl w) h.2⟩
  · intro w s c x _ hok hf
    simp [Harmless, hf] at hok

/-- An event is committed. -/
lemma triple_commitEvent {a : AppendArgs} {K : Past ι → Prop} (hK : AboutObjects K)
    (hc : a.caseId = caseId) (ht : a.resourceType = "evidence")
    (hid : a.resourceId = some E.str) {e : AuditEvent}
    (he : ∃ previous id now, e = newEvent previous a id now) :
    ETriple (recorded (machine hashtext)) (alone Harmless i) i
      (Here i { events := [e] } (Stage w₀ caseId E types K)) (call .commit)
      (fun _ => Here i {} (Stage w₀ caseId E (types ++ [a.eventType]) K))
      (fun x p => x.isException = true ∧ Stage w₀ caseId E types K p) := by
  refine triple_harmless (hides_stage hK) (fun _ _ => rfl) (by simp) ?_
  rintro w s d ⟨htxn, ⟨hcases, hevidence, l, haudit, hl⟩, hk⟩
  obtain ⟨hcases', hevidence', haudit'⟩ := commit_rows htxn
  refine ⟨by rw [commit_txn]; rfl, ⟨hcases'.trans hcases, ?_, l ++ [e], ?_,
    hl.snoc he hc ht hid⟩, hK w _ s d rfl hk⟩
  · rw [hevidence', List.append_nil, hevidence]
  · rw [haudit', haudit, List.append_assoc]

/-- What an exception in the `try` block finds. -/
def Caught (w₀ : World ι) (caseId E : Uuid) (key : String) (x : Exn × Locals) (p : Past ι) : Prop :=
  x.1.isException = true ∧ ∃ types, types ≠ [] ∧
    types <+: [.evidenceUploadStarted, .evidenceHashed] ∧
    ((x.2.stored = false ∧ Stage w₀ caseId E types (Stores w₀.objects) p) ∨
      (x.2.stored = true ∧ x.2.objectKey = some key ∧ ∃ object,
        Stage w₀ caseId E types (Stores (Function.update w₀.objects key (some object))) p))

lemma triple_putObject (key : String) (content : List UInt8) (contentType : String) :
    ETriple (recorded (machine hashtext)) (alone Harmless i) i
      (Here i {} (Stage w₀ caseId E types (Stores w₀.objects)))
      (call (.putObject key content contentType))
      (fun _ => Here i {} (Stage w₀ caseId E types
        (Stores (Function.update w₀.objects key (some ⟨content, contentType⟩)))))
      (fun x p => x.isException = true ∧ Stage w₀ caseId E types (Stores w₀.objects) p) := by
  refine triple_harmless (hides_stage aboutObjects_stores) (fun _ _ => rfl) (by simp) ?_
  rintro w s e ⟨htxn, hg, hobjects : w.objects = w₀.objects⟩
  refine ⟨htxn, ⟨hg.cases, hg.evidence, hg.audit⟩, ?_⟩
  rw [← hobjects]
  rfl

/-- The commit of the row with its events. -/
lemma triple_commitRow {r : Evidence} {st d : AuditEvent} {content : List UInt8}
    {objectKey digest : String} {createdBy : Option String} (hcase : r.caseId = caseId)
    (hid : r.id = E) (hsha : r.sha256 = Sha256.hexdigest content)
    (hst : ∃ previous id now, st = newEvent previous
      { uploadEvent caseId E createdBy .evidenceStored "store" with
        metadata := some (storedMetadata objectKey) } id now)
    (hd : ∃ previous id now, d = newEvent previous
      { uploadEvent caseId E createdBy .evidenceCreated "create" with
        outputHash := some digest } id now) :
    ETriple (recorded (machine hashtext)) (alone Harmless i) i
      (Here i { evidence := [r], events := [st, d] } (Stage w₀ caseId E
        [.evidenceUploadStarted, .evidenceHashed]
        (Stores (Function.update w₀.objects r.objectKey (some ⟨content, r.mimeType⟩)))))
      (call .commit) (fun _ p => Created w₀ caseId content r p.1)
      (fun x p => x.isException = true ∧ Stage w₀ caseId E
        [.evidenceUploadStarted, .evidenceHashed]
        (Stores (Function.update w₀.objects r.objectKey (some ⟨content, r.mimeType⟩))) p) := by
  obtain rfl := hid
  refine triple_harmless (hides_stage aboutObjects_stores) (fun _ _ => rfl) (by simp) ?_
  rintro w s _ ⟨htxn, ⟨hcases, hevidence, l, haudit, hl⟩, hobjects⟩
  obtain ⟨hcases', hevidence', haudit'⟩ := commit_rows htxn
  refine ⟨⟨hcase, hsha⟩, hcases'.trans hcases, ?_, hobjects, l ++ [st] ++ [d], ?_,
    (hl.snoc hst rfl rfl rfl).snoc hd rfl rfl rfl⟩
  · rw [hevidence', hevidence]
  · rw [haudit', haudit]
    simp

/-- The `try` block creates the evidence, or leaves what the handlers expect. -/
lemma triple_storeUpload (self : EvidenceService) (upload : UploadFile)
    (sourceType : EvidenceSourceType) (createdBy : Option String)
    (parentEvidenceId : Option Uuid) (name extension : String) :
    ETriple (recorded (machine hashtext)) (alone Harmless i) i
      (Here i {} (Stage w₀ caseId E [.evidenceUploadStarted] (Stores w₀.objects)))
      (storeUpload self caseId E upload sourceType createdBy parentEvidenceId name extension)
      (fun r p => Created w₀ caseId upload.chunks.flatten r p.1)
      (Caught w₀ caseId E (objectKeyOf caseId E name)) := by
  have hearly : ∀ (types : List AuditEventType) (l : Locals) (x : Exn) (p : Past ι),
      types ≠ [] → types <+: [.evidenceUploadStarted, .evidenceHashed] → l.stored = false →
      x.isException = true ∧ Stage w₀ caseId E types (Stores w₀.objects) p →
      Caught w₀ caseId E (objectKeyOf caseId E name) (x, l) p :=
    fun types l x p hne hpre hl h => ⟨h.1, types, hne, hpre, .inl ⟨hl, h.2⟩⟩
  refine etriple_bind (triple_within (triple_looks trivial steady_stores)
    fun x p _ => hearly _ _ x p (by simp) ⟨_, rfl⟩ rfl) fun _ => ?_
  refine etriple_bind (triple_within (triple_receiveUpload steady_stores self caseId E upload
    createdBy fun e he => triple_commitEvent aboutObjects_stores rfl rfl rfl he)
    fun x p _ => hearly _ _ x p (by simp) ⟨_, rfl⟩ rfl) fun r => ?_
  obtain ⟨size, content, digest⟩ := r
  refine triple_and ?_
  rintro rfl
  refine triple_and ?_
  rintro rfl
  refine etriple_bind (triple_within (triple_putObject _ _ _)
    fun x p _ => hearly _ _ x p (by simp) (List.prefix_refl _) rfl) fun _ => ?_
  refine triple_within (triple_recordUpload steady_stores self caseId E _ _ _ createdBy ?_)
    fun x p _ h => ⟨h.1, _, by simp, List.prefix_refl _, .inr ⟨rfl, rfl, _, h.2⟩⟩
  rintro r ⟨now, rfl⟩ st hst d hd
  exact triple_commitRow rfl rfl rfl hst hd

/-! ### The handlers -/

/-- Rolling back is harmless. -/
lemma triple_rollback {G : Past ι → Prop} (hG : Hides G) :
    ETriple (recorded (machine hashtext)) (alone Harmless i) i G (call .rollback)
      (fun _ => Here i {} G) fun _ _ => False := by
  refine triple_effect (fun _ _ => rfl) (by simp) ?_ ?_ ?_
  · intro w s c hg _ _
    exact ⟨by rw [setTxn_txn]; rfl, hG w _ s _ hidden_setTxn hg⟩
  · intro w s c x _ hok hf
    simp [Harmless, hf, CleansUp] at hok
  · intro w s c x _ hok hf
    simp [Harmless, hf] at hok

/-- The compensation takes the object away again, or fails to. -/
lemma triple_deleteObject {key : String} {object : StoredObject} (hfree : w₀.objects key = none) :
    ETriple (recorded (machine hashtext)) (alone Harmless i) i
      (Here i {} (Stage w₀ caseId E types
        (Stores (Function.update w₀.objects key (some object)))))
      (call (.deleteObject key)) (fun _ => Here i {} (Stage w₀ caseId E types (Restored w₀)))
      (fun x p => x.isException = true ∧
        Here i {} (Stage w₀ caseId E types (Restored w₀)) p) := by
  refine triple_effect (fun _ _ => rfl) (by simp) ?_ ?_ ?_
  · rintro w s c ⟨htxn, hg, hobjects : w.objects = _⟩ - -
    refine ⟨htxn, ⟨hg.cases, hg.evidence, hg.audit⟩, .inl ?_⟩
    have hback : Function.update w.objects key none = w₀.objects := by
      rw [hobjects, Function.update_idem, ← hfree, Function.update_eq_self]
    exact hback
  · rintro w s c x ⟨htxn, hg, -⟩ hok hf
    refine ⟨hok.isException (.inl hf), htxn, hg, .inr ⟨_, List.mem_append_right _
      (List.mem_singleton_self _), ⟨key, rfl⟩, ?_⟩⟩
    simp [hf]
  · intro w s c x _ hok hf
    simp [Harmless, hf] at hok

lemma triple_compensateStorage {key : String} {l : Locals} (hfree : w₀.objects key = none) :
    ETriple (recorded (machine hashtext)) (alone Harmless i) i
      (Here i {} fun p => (l.stored = false ∧ Stage w₀ caseId E types (Stores w₀.objects) p) ∨
        (l.stored = true ∧ l.objectKey = some key ∧ ∃ object,
          Stage w₀ caseId E types (Stores (Function.update w₀.objects key (some object))) p))
      (compensateStorage l.objectKey l.stored)
      (fun _ => Here i {} (Stage w₀ caseId E types (Restored w₀))) fun _ _ => False := by
  obtain ⟨tempPath, objectKey, stored⟩ := l
  cases stored with
  | false =>
    have hnothing : compensateStorage objectKey false = pure () := by
      cases objectKey <;> rfl
    simp only [hnothing]
    refine etriple_pure fun p _ ⟨htxn, h⟩ => ?_
    rcases h with ⟨-, hg⟩ | ⟨hs, -⟩
    · exact ⟨htxn, hg.1, .inl hg.2⟩
    · cases hs
  | true =>
    intro p hp h
    obtain ⟨htxn, ⟨hs, -⟩ | ⟨-, rfl, object, hg⟩⟩ := h
    · cases hs
    · refine etriple_tryCatch (triple_deleteObject hfree) (fun x => ?_) p hp
        ⟨htxn, hg⟩
      refine triple_and fun hx => ?_
      simp only [hx, if_true]
      exact etriple_pure fun _ _ h => h

lemma triple_recordFailure (self : EvidenceService) (createdBy : Option String) (reason : String) :
    ETriple (recorded (machine hashtext)) (alone Harmless i) i
      (Here i {} (Stage w₀ caseId E types (Restored w₀)))
      (recordFailure self caseId E createdBy reason) (fun _ => Recorded w₀ caseId E types)
      (fun _ => Recorded w₀ caseId E types) := by
  have hG : Hides (Stage w₀ caseId E types (Restored w₀)) := hides_stage aboutObjects_restored
  refine triple_recordFailure_of (F := fun x p => x.isException = true ∧
    Stage w₀ caseId E types (Restored w₀) p) (triple_append hG.steady self.auditService _)
    (fun e => ?_) (fun x _ => ?_) fun _ _ _ _ h => .inl h.2
  · refine triple_and fun he => ?_
    exact etriple_conseq (triple_commitEvent aboutObjects_restored rfl rfl rfl he)
      (fun _ _ h => h) (fun _ _ _ h => .inr h.2) fun _ _ _ h => h
  · exact etriple_conseq (triple_rollback hG) (fun _ _ h => h.2) (fun _ _ _ h => .inl h.2)
      fun _ _ _ h => h.elim

/-- What the handlers do before they raise. -/
lemma triple_undo {key : String} {x : Exn} {l : Locals} {k : M Evidence}
    {Q : Evidence → Past ι → Prop} (hfree : w₀.objects key = none) (self : EvidenceService)
    (createdBy : Option String) (reason : String)
    (hk : ETriple (recorded (machine hashtext)) (alone Harmless i) i
      (fun p => Undone w₀ caseId p.1 p.2) k Q fun _ p => Undone w₀ caseId p.1 p.2) :
    ETriple (recorded (machine hashtext)) (alone Harmless i) i (Caught w₀ caseId E key (x, l))
      (do
        call .rollback
        compensateStorage l.objectKey l.stored
        recordFailure self caseId E createdBy reason
        k)
      Q fun _ p => Undone w₀ caseId p.1 p.2 := by
  refine triple_and fun _ => triple_exists fun types => triple_and fun hne => ?_
  refine triple_and fun hpre => ?_
  have hstage : ∀ {K : Past ι → Prop}, AboutObjects K → Hides (Stage w₀ caseId E types K) :=
    hides_stage
  refine etriple_bind (etriple_error (triple_rollback ?_) fun _ _ _ h => h.elim) fun _ => ?_
  · rintro w v s e hid (⟨hs, hg⟩ | ⟨hs, hkey, object, hg⟩)
    · exact .inl ⟨hs, hstage aboutObjects_stores w v s e hid hg⟩
    · exact .inr ⟨hs, hkey, object, hstage aboutObjects_stores w v s e hid hg⟩
  refine etriple_bind (etriple_error (triple_compensateStorage hfree) fun _ _ _ h => h.elim)
    fun _ => ?_
  refine etriple_bind (etriple_conseq (triple_recordFailure self createdBy reason)
    (fun _ _ h => h) (fun _ p _ h => undone_of_recorded hne hpre h)
    fun _ p _ h => undone_of_recorded hne hpre h) fun _ => hk

lemma triple_handleUpload {key : String} {content : List UInt8} (hfree : w₀.objects key = none)
    (self : EvidenceService) (createdBy : Option String)
    (outcome : Except (Exn × Locals) Evidence) :
    ETriple (recorded (machine hashtext)) (alone Harmless i) i
      (orElse (fun r p => Created w₀ caseId content r p.1) (Caught w₀ caseId E key) outcome)
      (handleUpload self caseId E createdBy outcome)
      (fun r p => Created w₀ caseId content r p.1) fun _ p => Undone w₀ caseId p.1 p.2 := by
  refine triple_handleUpload_of (fun _ _ _ h => h) ?_ ?_ outcome
  · intro x l reason y _ _ _
    exact triple_undo hfree self createdBy reason (etriple_throw fun _ _ h => h)
  · intro x l p _ hx h
    exact absurd h.1 (by simp [hx])

/-- Cleaning up is harmless. -/
lemma triple_cleanUpload {G : Past ι → Prop} {E : Exn → Past ι → Prop} (hG : Hides G)
    (tempPath : Bool) :
    ETriple (recorded (machine hashtext)) (alone Harmless i) i G (cleanUpload tempPath)
      (fun _ => G) E := by
  have hlocal : ∀ c, CleansUp (.localCall c) = true → ETriple (recorded (machine hashtext))
      (alone Harmless i) i G (call (.localCall c)) (fun _ => G) E := by
    intro c hc
    refine triple_effect (f := id) (fun _ _ => rfl) (by simp) ?_ ?_ ?_
    · exact fun w s c hg _ _ => hG w w s _ (.refl w) hg
    · intro w s c x _ hok hf
      simp [Harmless, hf, hc] at hok
    · intro w s c x _ hok hf
      simp [Harmless, hf] at hok
  exact triple_cleanUpload_of (hlocal .closeUpload rfl) (hlocal .unlinkTemp rfl) tempPath

/-! ### Every upload -/

lemma triple_uploadEvidence (hw : Opening w₀) (self : EvidenceService) (upload : UploadFile)
    (sourceType : EvidenceSourceType) (createdBy : Option String)
    (parentEvidenceId : Option Uuid) :
    ETriple (recorded (machine hashtext)) (alone Harmless i) i
      (Here i {} fun p => Hidden w₀ p.1)
      (self.uploadEvidence caseId upload sourceType createdBy parentEvidenceId)
      (fun r p => Created w₀ caseId upload.chunks.flatten r p.1)
      fun _ p => Undone w₀ caseId p.1 p.2 := by
  have hfirst : Hides fun p : Past ι => Hidden w₀ p.1 := fun _ _ _ _ hid h => h.trans hid
  have hundone : ∀ p : Past ι, Hidden w₀ p.1 → Undone w₀ caseId p.1 p.2 := fun p h =>
    ⟨0, [], ⟨[], List.nil_prefix, .inl rfl⟩, ⟨h.cases, h.evidence, [], by simp [h.audit], .nil⟩,
      .inl h.objects⟩
  refine etriple_bind (etriple_error (triple_requireCase hfirst.steady caseId)
    fun _ p _ h => hundone p h.2) fun _ => ?_
  refine etriple_bind (etriple_error (triple_ofExcept hfirst.steady _)
    fun _ p _ h => hundone p h.2) fun names => ?_
  obtain ⟨name, extension⟩ := names
  refine etriple_bind (etriple_error (triple_uuid4 (φ := fun u => w₀.owner u = .fresh)
    hfirst.steady fun w s u h hu => h.fresh u hu) fun _ p _ h => hundone p h.2) fun E => ?_
  refine triple_and fun hE => ?_
  have hfree : w₀.objects (objectKeyOf caseId E name) = none :=
    (hw.blank E hE).2 caseId name (by simp)
  have hgained : ∀ p : Past ι, Hidden w₀ p.1 → Stage w₀ caseId E [] (Stores w₀.objects) p :=
    fun p h => ⟨⟨h.cases, h.evidence, [], by simp [h.audit], .nil⟩, h.objects⟩
  refine etriple_bind (etriple_conseq (triple_append steady_stores self.auditService _)
    (fun p _ h => ⟨h.1, hgained p h.2⟩) (fun _ _ _ h => h)
    fun _ p _ h => ⟨E, [], ⟨[], List.nil_prefix, .inl rfl⟩, h.2.1, .inl h.2.2⟩) fun e => ?_
  refine triple_and fun he => ?_
  refine etriple_bind (etriple_error (triple_commitEvent aboutObjects_stores rfl rfl rfl he)
    fun _ p _ h => ⟨E, [], ⟨[], List.nil_prefix, .inl rfl⟩, h.2.1, .inl h.2.2⟩) fun _ => ?_
  refine etriple_bind (etriple_lift (triple_storeUpload self upload sourceType createdBy
    parentEvidenceId name extension)) fun outcome => ?_
  refine triple_withFinally (triple_handleUpload hfree self createdBy outcome) fun r => ?_
  refine etriple_conseq (triple_cleanUpload (E := fun _ _ => False) ?_ _) (fun _ _ h => h)
    (fun _ _ _ h => h) fun _ _ _ h => h.elim
  cases r with
  | ok r => exact fun _ _ _ _ hid h => Created.hidden h hid
  | error x => exact fun _ _ _ _ hid h => Undone.hidden h hid

/-- How an upload ends: with everything, or with nothing but events. -/
def Outcome (w : World ι) (caseId : Uuid) (content : List UInt8) (r : Except Exn Result)
    (p : Past ι) : Prop :=
  (∃ row, r = .ok (.evidence row) ∧ Created w caseId content row p.1) ∨
    ∃ x, r = .error x ∧ Undone w caseId p.1 p.2

lemma triple_upload (hw : Opening w₀) (app : App) (upload : UploadFile)
    (sourceType : EvidenceSourceType) (createdBy : Option String)
    (parentEvidenceId : Option Uuid) :
    Triple (recorded (machine hashtext)) (alone Harmless i) i (Here i {} fun p => Hidden w₀ p.1)
      (app.handle (.upload caseId upload sourceType createdBy parentEvidenceId))
      (Outcome w₀ caseId upload.chunks.flatten) := by
  refine triple_session (etriple_map (H := fun a p => ∃ row, a = Result.evidence row ∧
    Created w₀ caseId upload.chunks.flatten row p.1) (triple_uploadEvidence hw app.evidenceService
      upload sourceType createdBy parentEvidenceId) fun row _ _ h => ⟨row, rfl, h⟩) ?_
  intro r u s c hr
  cases r with
  | ok a =>
    obtain ⟨row, rfl, hc⟩ := hr
    exact .inl ⟨row, rfl, hc.hidden hidden_setTxn⟩
  | error x => exact .inr ⟨x, rfl, Undone.hidden hr hidden_setTxn⟩

/-- **All or nothing**: from whatever rows, objects and log an upload begins, it ends; and
whichever of its calls raise an `Exception` without effect, it returns a row that has been
created, with its object and its events, or it raises and everything is as it was, but for the
events that say how far it came. -/
theorem upload_allOrNothing {app : App} {upload : UploadFile} {sourceType : EvidenceSourceType}
    {createdBy : Option String} {parentEvidenceId : Option Uuid} (hw : Opening w) :
    let p := app.handle (.upload caseId upload sourceType createdBy parentEvidenceId)
    (∀ cs, DrawsFresh hashtext i p w cs →
      ∃ t r v, Chosen cs t ∧ Ends (machine hashtext) i p w t r v) ∧
    ∀ t r v, Ends (machine hashtext) i p w t r v → (∀ e ∈ t, Harmless e) →
      Outcome w caseId upload.chunks.flatten r (v, t) := by
  refine ⟨fun cs hcs => solo_ends (fun j _ => hw.txn j) hcs, fun t r v h hok => ?_⟩
  exact ends_post (triple_upload hw app upload sourceType createdBy parentEvidenceId) h hok
    ⟨by rw [hw.txn]; rfl, .refl w⟩

section Example

/-- Choices that raise nothing, with numbered identifiers. -/
def choices (first n : ℕ) : List Choice := (calls () first n).map Prod.snd

/-- The object cannot be stored. -/
def storageFails : List Choice :=
  choices 100 21 ++
    (⟨.before (.domain (storageError "Unable to store evidence object")), 0, noon⟩ ::
      choices 200 10)

def isError : Except Exn Result → Bool
  | .error _ => true
  | .ok _ => false

lemma storageFails_ends : (follow (machine fun _ => 0) (0 : Fin 2)
    (textApp.handle (.upload 2 textUpload .other none none)) oneCase storageFails).map
    (fun q => q.1.all (fun e => decide (Harmless e)) && isError q.2.1) = some true := by
  decide

/-- The upload raises, and nothing is left of it but its events. -/
theorem upload_allOrNothing_storageFails : ∃ t x v, Ends (machine fun _ => 0) (0 : Fin 2)
    (textApp.handle (.upload 2 textUpload .other none none)) oneCase t (.error x) v ∧
    Undone oneCase 2 v t := by
  obtain ⟨⟨t, r, v⟩, hfollow, hdec⟩ := Option.map_eq_some_iff.mp storageFails_ends
  obtain ⟨hok, herror⟩ := Bool.and_eq_true_iff.mp hdec
  have hends := ends_of_follow hfollow
  have hout := (upload_allOrNothing ready_oneCase.opening).2 t r v hends
    fun e he => of_decide_eq_true (List.all_eq_true.mp hok e he)
  rcases hout with ⟨row, rfl, -⟩ | ⟨x, rfl, hundone⟩
  · cases herror
  · exact ⟨t, x, v, hends, hundone⟩

end Example

end WhaleMas.UploadOutcomes
