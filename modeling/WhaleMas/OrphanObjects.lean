import WhaleMas.UploadOutcomes

/-!
Objects that an upload leaves without a row. While its object has no committed row, an upload
takes it away again only if an `Exception` reaches its handlers and they get past rolling back;
and it knows of the object only if storing it did not raise.
-/

namespace WhaleMas.OrphanObjects

open WhaleMas.Models WhaleMas.AuditLog WhaleMas.Program WhaleMas.RelyGuarantee WhaleMas.Alone
open WhaleMas.Database WhaleMas.Services WhaleMas.SessionFrame WhaleMas.SessionRuns
open WhaleMas.ConcurrentUploads WhaleMas.SoloCalls WhaleMas.UploadOutcomes

variable {ι : Type} {i : ι} {w₀ w v : World ι} {s : List (Call ι)} {e : Call ι} {key : String}
  {p : Past ι}

/-! ### Objects without a row -/

/-- There is an object that was not there at first, and no committed row has its key. -/
def Exposed (w₀ w : World ι) : Prop :=
  ∃ key, w₀.objects key = none ∧ w.objects key ≠ none ∧ ∀ r ∈ w.evidence, r.objectKey ≠ key

/-- While an object has no row: a cancellation, unless of a commit that was applied, and a
rollback that raises. -/
def Abandons (o : Op) (fault : Fault) : Prop :=
  match o with
  | .close | .deleteObject _ => False
  | .commit => fault = .before .cancelled
  | .rollback => fault ≠ .none
  | _ => fault = .before .cancelled ∨ fault = .after .cancelled

/-- The call leaves no object behind: an object is not stored by a call that raises, and not
abandoned while it has no row. -/
def Careful (w₀ : World ι) (e : Call ι) : Prop :=
  (∀ key data contentType, e.op = .putObject key data contentType →
    ∀ x, e.choice.fault ≠ .after x) ∧
  (Exposed w₀ e.before → ¬ Abandons e.op e.choice.fault)

/-- The call is no deletion of an object that fails. -/
def Deletes (e : Call ι) : Prop := ∀ key, e.op = .deleteObject key → e.choice.fault = .none

/-- Nothing is left behind exactly if all calls were careful. -/
def Verdict (w₀ : World ι) (p : Past ι) : Prop :=
  ¬ Exposed w₀ p.1 ↔ ∀ e ∈ p.2, Careful w₀ e

/-- Nothing is left behind, and all calls were careful. -/
def Spared (w₀ : World ι) (p : Past ι) : Prop :=
  ¬ Exposed w₀ p.1 ∧ ∀ e ∈ p.2, Careful w₀ e

/-- All calls were careful, and the object under `key` has no row yet. -/
structure Bare (w₀ : World ι) (key : String) (p : Past ι) : Prop where
  free : w₀.objects key = none
  rows : ∀ r ∈ w₀.evidence, r.objectKey ≠ key
  objects : ∃ object, p.1.objects = Function.update w₀.objects key (some object)
  evidence : p.1.evidence = w₀.evidence
  careful : ∀ e ∈ p.2, Careful w₀ e

/-- No object has been stored, no row committed, and all calls were careful. -/
structure Early (w₀ : World ι) (p : Past ι) : Prop where
  objects : p.1.objects = w₀.objects
  evidence : p.1.evidence = w₀.evidence
  fresh : ∀ u, p.1.owner u = .fresh → w₀.owner u = .fresh
  careful : ∀ e ∈ p.2, Careful w₀ e

lemma Spared.verdict (h : Spared w₀ p) : Verdict w₀ p := iff_of_true h.1 h.2

lemma Bare.exposed (h : Bare w₀ key p) : Exposed w₀ p.1 := by
  obtain ⟨object, hobjects⟩ := h.objects
  refine ⟨key, h.free, ?_, ?_⟩
  · simp [hobjects]
  · rw [h.evidence]
    exact h.rows

lemma Early.spared (h : Early w₀ p) : Spared w₀ p := by
  refine ⟨?_, h.careful⟩
  rintro ⟨key, hfree, hobject, -⟩
  rw [h.objects] at hobject
  exact hobject hfree

lemma exposed_congr (ho : v.objects = w.objects) (he : v.evidence = w.evidence) :
    Exposed w₀ v ↔ Exposed w₀ w := by
  rw [Exposed, Exposed, ho, he]

lemma careful_snoc (hs : ∀ e ∈ s, Careful w₀ e) (he : Careful w₀ e) :
    ∀ e' ∈ s ++ [e], Careful w₀ e' :=
  List.forall_mem_append.mpr ⟨hs, List.forall_mem_singleton.mpr he⟩

/-! ### Calls -/

/-- A call that stores nothing, made while nothing is exposed. -/
lemma careful_of_not_exposed (hput : ∀ k d ct, e.op ≠ .putObject k d ct)
    (h : ¬ Exposed w₀ e.before) : Careful w₀ e :=
  ⟨fun k d ct ho => absurd ho (hput k d ct), fun hx => absurd hx h⟩

/-- Calls that neither show nor store keep the verdict. -/
lemma Verdict.step (h : Verdict w₀ (e.before, s)) (hput : ∀ k d ct, e.op ≠ .putObject k d ct)
    (ho : v.objects = e.before.objects) (he : v.evidence = e.before.evidence) :
    Verdict w₀ (v, s ++ [e]) := by
  have hsame : Exposed w₀ v ↔ Exposed w₀ e.before := exposed_congr ho he
  by_cases hx : Exposed w₀ e.before
  · refine iff_of_false (fun hn => hn (hsame.mpr hx)) fun hall => ?_
    exact h.mpr (fun e' he' => hall e' (List.mem_append_left _ he')) hx
  · exact iff_of_true (fun hv => hx (hsame.mp hv))
      (careful_snoc (h.mp hx) (careful_of_not_exposed hput hx))

/-- What abandons an object is seen in the end. -/
lemma Bare.abandoned (h : Bare w₀ key (e.before, s)) (ha : Abandons e.op e.choice.fault)
    (ho : v.objects = e.before.objects) (he : v.evidence = e.before.evidence) :
    Verdict w₀ (v, s ++ [e]) := by
  refine iff_of_false (fun hn => hn ((exposed_congr ho he).mpr h.exposed)) fun hall => ?_
  exact (hall e (by simp)).2 h.exposed ha

lemma Bare.step (h : Bare w₀ key (e.before, s)) (hput : ∀ k d ct, e.op ≠ .putObject k d ct)
    (ha : ¬ Abandons e.op e.choice.fault) (ho : v.objects = e.before.objects)
    (he : v.evidence = e.before.evidence) : Bare w₀ key (v, s ++ [e]) where
  free := h.free
  rows := h.rows
  objects := by
    obtain ⟨object, hobjects⟩ := h.objects
    exact ⟨object, ho.trans hobjects⟩
  evidence := he.trans h.evidence
  careful := careful_snoc h.careful ⟨fun k d ct hop => absurd hop (hput k d ct), fun _ => ha⟩

lemma Early.step (h : Early w₀ (e.before, s)) (hput : ∀ k d ct, e.op ≠ .putObject k d ct)
    (ho : v.objects = e.before.objects) (he : v.evidence = e.before.evidence)
    (hf : ∀ u, v.owner u = .fresh → e.before.owner u = .fresh) :
    Early w₀ (v, s ++ [e]) where
  objects := ho.trans h.objects
  evidence := he.trans h.evidence
  fresh := fun u hu => h.fresh u (hf u hu)
  careful := careful_snoc h.careful (careful_of_not_exposed hput h.spared.1)

lemma idle_put {o : Op} (ho : Idle o) (k : String) (d : List UInt8) (ct : String) :
    o ≠ .putObject k d ct := by
  rintro rfl
  exact ho

/-- What an exception finds after the object was stored. -/
def Interrupted (w₀ : World ι) (key : String) (x : Exn) (p : Past ι) : Prop :=
  (x.isException = true → Bare w₀ key p ∨ Spared w₀ p) ∧ (x.isException = false → Verdict w₀ p)

lemma steady_verdict : Steady Deletes (Verdict w₀) fun _ => Verdict w₀ where
  pass := fun _ _ _ _ _ ho _ _ hid h => h.step (idle_put ho) hid.objects hid.evidence
  fail := fun _ _ _ _ _ _ ho _ _ hid h => h.step (idle_put ho) hid.objects hid.evidence
  raise := fun _ _ h => h

lemma steady_early : Steady Deletes (Early w₀) fun _ => Verdict w₀ where
  pass := fun _ _ _ _ _ ho _ _ hid h =>
    h.step (idle_put ho) hid.objects hid.evidence hid.fresh
  fail := fun _ _ _ _ _ _ ho _ _ hid h =>
    h.spared.verdict.step (idle_put ho) hid.objects hid.evidence
  raise := fun _ _ h => h.spared.verdict

/-- An idle call that raises abandons an object exactly if it is cancelled. -/
lemma abandons_idle {o : Op} {c : Choice} {x : Exn} (ho : Idle o) (h : Raised c x) :
    Abandons o c.fault ↔ x = .cancelled := by
  have hcases : Abandons o c.fault ↔
      c.fault = .before .cancelled ∨ c.fault = .after .cancelled := by
    cases o <;> first | exact ho.elim | rfl
  rw [hcases]
  rcases h with h | h | ⟨h, hx⟩
  · simp [h]
  · simp [h]
  · simp [h, hx]

lemma not_abandons_none {o : Op} : ¬ Abandons o .none := by
  cases o <;> simp [Abandons]

lemma isException_eq_false {x : Exn} : x.isException = false ↔ x = .cancelled := by
  cases x <;> simp [Exn.isException]

lemma steady_bare : Steady Deletes (Bare w₀ key) (Interrupted w₀ key) where
  pass := fun _ _ _ _ _ ho _ hf hid h =>
    h.step (idle_put ho) (hf ▸ not_abandons_none) hid.objects hid.evidence
  fail := fun w v s o c x ho _ hr hid h => by
    refine ⟨fun hx => .inl (h.step (idle_put ho) ?_ hid.objects hid.evidence), fun hx => ?_⟩
    · intro ha
      rw [(abandons_idle ho hr).mp ha] at hx
      cases hx
    · exact h.abandoned ((abandons_idle ho hr).mpr (isException_eq_false.mp hx)) hid.objects
        hid.evidence
  raise := fun _ _ h => ⟨fun _ => .inl h, fun hx => by cases hx⟩

/-- A committed row gives the object its row. -/
lemma Bare.row_committed {r : Evidence} (h : Bare w₀ key p) (hr : r.objectKey = key)
    (ho : v.objects = p.1.objects) (he : v.evidence = p.1.evidence ++ [r]) : ¬ Exposed w₀ v := by
  rintro ⟨key', hfree, hobject, hrows⟩
  obtain ⟨object, hobjects⟩ := h.objects
  by_cases hk : key' = key
  · refine hrows r ?_ (hr.trans hk.symm)
    simp [he]
  · rw [ho, hobjects, Function.update_of_ne hk] at hobject
    exact hobject hfree

/-- Where the object goes, nothing is left. -/
lemma not_exposed_deleted [DecidableEq ι] (h : Bare w₀ key p ∨ Spared w₀ p) :
    ¬ Exposed w₀ (p.1.setObject key none) := by
  rintro ⟨key', hfree, hobject, hrows⟩
  have hk : key' ≠ key := by
    rintro rfl
    simp [World.setObject] at hobject
  have hobject' : p.1.objects key' ≠ none := by
    simpa [World.setObject, hk] using hobject
  rcases h with h | h
  · obtain ⟨object, hobjects⟩ := h.objects
    rw [hobjects, Function.update_of_ne hk] at hobject'
    exact hobject' hfree
  · exact h.1 ⟨key', hfree, hobject', hrows⟩

variable [DecidableEq ι]

lemma commit_event {a : AuditEvent} (h : core (w.txn i) = { events := [a] }) :
    (w.commit i).evidence = w.evidence := by
  rw [(commit_rows h).2.1, List.append_nil]

variable [Fintype ι] {hashtext : String → ℤ} {caseId E : Uuid}

/-! ### The `try` block -/

lemma triple_commitEarly (a : AuditEvent) :
    ETriple (recorded (machine hashtext)) (alone Deletes i) i
      (Here i { events := [a] } (Early w₀)) (call .commit) (fun _ => Here i {} (Early w₀))
      fun _ => Verdict w₀ := by
  refine triple_effect (fun _ _ => rfl) (by simp) ?_ ?_ ?_
  · rintro w s c ⟨htxn, h⟩ - -
    refine ⟨by rw [commit_txn]; rfl, h.step (by simp) rfl (commit_event htxn) fun _ hu => hu⟩
  · rintro w s c x ⟨-, h⟩ - -
    exact h.spared.verdict.step (by simp) rfl rfl
  · rintro w s c x ⟨htxn, h⟩ - -
    exact h.spared.verdict.step (by simp) rfl (commit_event htxn)

lemma triple_commitVerdict (a : AuditEvent) :
    ETriple (recorded (machine hashtext)) (alone Deletes i) i
      (Here i { events := [a] } (Verdict w₀)) (call .commit) (fun _ => Verdict w₀)
      fun _ => Verdict w₀ := by
  refine triple_effect (fun _ _ => rfl) (by simp) ?_ ?_ ?_
  · rintro w s c ⟨htxn, h⟩ - -
    exact h.step (by simp) rfl (commit_event htxn)
  · rintro w s c x ⟨-, h⟩ - -
    exact h.step (by simp) rfl rfl
  · rintro w s c x ⟨htxn, h⟩ - -
    exact h.step (by simp) rfl (commit_event htxn)

/-- The object is stored; or it is not, or it is although storing it raises. -/
lemma triple_putObject (hfree : w₀.objects key = none)
    (hrows : ∀ r ∈ w₀.evidence, r.objectKey ≠ key) (content : List UInt8)
    (contentType : String) :
    ETriple (recorded (machine hashtext)) (alone Deletes i) i (Here i {} (Early w₀))
      (call (.putObject key content contentType)) (fun _ => Here i {} (Bare w₀ key))
      fun _ => Verdict w₀ := by
  have hbare : ∀ (w : World ι) (s : List (Call ι)), Early w₀ (w, s) →
      Exposed w₀ (w.setObject key (some ⟨content, contentType⟩)) := by
    intro w s h
    refine ⟨key, hfree, by simp [World.setObject], ?_⟩
    intro r hr
    refine hrows r ?_
    rw [← h.evidence]
    exact hr
  refine triple_effect (fun _ _ => rfl) (by simp) ?_ ?_ ?_
  · rintro w s c ⟨htxn, h⟩ - hf
    refine ⟨htxn, hfree, hrows, ⟨⟨content, contentType⟩, ?_⟩, h.evidence,
      careful_snoc h.careful ⟨?_, fun hx => absurd hx h.spared.1⟩⟩
    · rw [← h.objects]
      rfl
    · simp [hf]
  · rintro w s c x ⟨-, h⟩ - hf
    refine iff_of_true h.spared.1 (careful_snoc h.careful ⟨?_, fun hx => absurd hx h.spared.1⟩)
    simp [hf]
  · rintro w s c x ⟨-, h⟩ - hf
    refine iff_of_false (fun hn => hn (hbare w s h)) fun hall => ?_
    exact (hall _ (List.mem_append_right _ (List.mem_singleton_self _))).1 _ _ _ rfl x hf

lemma triple_commitRow {r : Evidence} (hr : r.objectKey = key) (events : List AuditEvent) :
    ETriple (recorded (machine hashtext)) (alone Deletes i) i
      (Here i { evidence := [r], events := events } (Bare w₀ key)) (call .commit)
      (fun _ => Spared w₀) (Interrupted w₀ key) := by
  have hdone : ∀ (w : World ι) (s : List (Call ι)) (e : Call ι),
      Here i { evidence := [r], events := events } (Bare w₀ key) (w, s) →
      e.op = .commit → e.choice.fault ≠ .before .cancelled → Spared w₀ (w.commit i, s ++ [e]) := by
    rintro w s e ⟨htxn, h⟩ ho hf
    refine ⟨h.row_committed hr rfl (commit_rows htxn).2.1, careful_snoc h.careful ⟨?_, fun _ => ?_⟩⟩
    · simp [ho]
    · simpa [Abandons, ho] using hf
  refine triple_effect (fun _ _ => rfl) (by simp) ?_ ?_ ?_
  · intro w s c h _ hf
    exact hdone w s _ h rfl (by simp [hf])
  · rintro w s c x ⟨htxn, h⟩ - hf
    refine ⟨fun hx => .inl (h.step (by simp) ?_ rfl rfl), fun hx => ?_⟩
    · rintro ha
      obtain rfl := Fault.before.inj (hf.symm.trans ha)
      cases hx
    · obtain rfl := isException_eq_false.mp hx
      exact h.abandoned hf rfl rfl
  · intro w s c x h _ hf
    have hs := hdone w s ⟨.commit, c, w⟩ h rfl (by simp [hf])
    exact ⟨fun _ => .inr hs, fun _ => hs.verdict⟩

/-- What an exception in the `try` block finds. -/
def Caught (w₀ : World ι) (key : String) (x : Exn × Locals) (p : Past ι) : Prop :=
  (x.2.stored = false ∧ Verdict w₀ p) ∨
    (x.2.stored = true ∧ x.2.objectKey = some key ∧ Interrupted w₀ key x.1 p)

lemma triple_storeUpload (self : EvidenceService) (upload : UploadFile)
    (sourceType : EvidenceSourceType) (createdBy : Option String)
    (parentEvidenceId : Option Uuid) (name extension : String)
    (hfree : w₀.objects (objectKeyOf caseId E name) = none)
    (hrows : ∀ r ∈ w₀.evidence, r.objectKey ≠ objectKeyOf caseId E name) :
    ETriple (recorded (machine hashtext)) (alone Deletes i) i (Here i {} (Early w₀))
      (storeUpload self caseId E upload sourceType createdBy parentEvidenceId name extension)
      (fun _ => Verdict w₀) (Caught w₀ (objectKeyOf caseId E name)) := by
  refine etriple_bind (triple_within (triple_looks trivial steady_early)
    fun x p _ h => .inl ⟨rfl, h⟩) fun _ => ?_
  refine etriple_bind (triple_within (triple_receiveUpload steady_early self caseId E upload
    createdBy fun e _ => triple_commitEarly e) fun x p _ h => .inl ⟨rfl, h⟩) fun r => ?_
  obtain ⟨size, content, digest⟩ := r
  refine triple_and fun _ => triple_and fun _ => ?_
  refine etriple_bind (triple_within (triple_putObject hfree hrows _ _)
    fun x p _ h => .inl ⟨rfl, h⟩) fun _ => ?_
  refine triple_within (etriple_conseq (triple_recordUpload steady_bare self caseId E _ _ _
    createdBy ?_) (fun _ _ h => h) (fun _ _ _ h => Spared.verdict h) fun _ _ _ h => h)
    fun x p _ h => .inr ⟨rfl, rfl, h⟩
  rintro r ⟨now, rfl⟩ st - d -
  exact triple_commitRow rfl _

/-! ### The handlers -/

lemma triple_localCall (c : LocalCall) :
    ETriple (recorded (machine hashtext)) (alone Deletes i) i (Verdict w₀) (call (.localCall c))
      (fun _ => Verdict w₀) fun _ => Verdict w₀ := by
  refine triple_effect (f := id) (fun _ _ => rfl) (by simp) ?_ ?_ ?_
  · exact fun w s c h _ _ => h.step (by simp) rfl rfl
  · exact fun w s c x h _ _ => h.step (by simp) rfl rfl
  · exact fun w s c x h _ _ => h.step (by simp) rfl rfl

/-- Rolling back while nothing hangs on it. -/
lemma triple_rollback :
    ETriple (recorded (machine hashtext)) (alone Deletes i) i (Verdict w₀) (call .rollback)
      (fun _ => Here i {} (Verdict w₀)) fun _ => Verdict w₀ := by
  refine triple_effect (fun _ _ => rfl) (by simp) ?_ ?_ ?_
  · exact fun w s c h _ _ => ⟨by rw [setTxn_txn]; rfl, h.step (by simp) rfl rfl⟩
  · exact fun w s c x h _ _ => h.step (by simp) rfl rfl
  · exact fun w s c x h _ _ => h.step (by simp) rfl rfl

/-- Rolling back while the object may have no row. -/
lemma triple_rollback_stored :
    ETriple (recorded (machine hashtext)) (alone Deletes i) i
      (fun p => Bare w₀ key p ∨ Spared w₀ p) (call .rollback)
      (fun _ => Here i {} fun p => Bare w₀ key p ∨ Spared w₀ p) fun _ => Verdict w₀ := by
  have hspared : ∀ {w v : World ι} {s : List (Call ι)} {c : Choice}, Spared w₀ (w, s) →
      v.objects = w.objects → v.evidence = w.evidence → Spared w₀ (v, s ++ [⟨.rollback, c, w⟩]) :=
    fun h ho he => ⟨fun hx => h.1 ((exposed_congr ho he).mp hx),
      careful_snoc h.2 (careful_of_not_exposed (by simp) h.1)⟩
  refine triple_effect (fun _ _ => rfl) (by simp) ?_ ?_ ?_
  · rintro w s c h - hf
    refine ⟨by rw [setTxn_txn]; rfl, h.imp (fun h => ?_) fun h => hspared h rfl rfl⟩
    exact h.step (by simp) (by simp [Abandons, hf]) rfl rfl
  · rintro w s c x (h | h) - hf
    · exact h.abandoned (by simp [Abandons, hf]) rfl rfl
    · exact (hspared h rfl rfl).verdict
  · rintro w s c x (h | h) - hf
    · exact h.abandoned (by simp [Abandons, hf]) rfl rfl
    · exact (hspared h rfl rfl).verdict

lemma triple_deleteObject :
    ETriple (recorded (machine hashtext)) (alone Deletes i) i
      (Here i {} fun p => Bare w₀ key p ∨ Spared w₀ p) (call (.deleteObject key))
      (fun _ => Here i {} (Verdict w₀)) fun _ _ => False := by
  refine triple_effect (fun _ _ => rfl) (by simp) ?_ ?_ ?_
  · rintro w s c ⟨htxn, h⟩ - -
    refine ⟨htxn, iff_of_true (not_exposed_deleted h) (careful_snoc ?_ ⟨by simp, fun _ h => h⟩)⟩
    exact h.elim Bare.careful And.right
  · intro w s c x _ hok hf
    simp [Deletes, hf] at hok
  · intro w s c x _ hok hf
    simp [Deletes, hf] at hok

lemma triple_recordFailure (self : EvidenceService) (createdBy : Option String) (reason : String) :
    ETriple (recorded (machine hashtext)) (alone Deletes i) i (Here i {} (Verdict w₀))
      (recordFailure self caseId E createdBy reason) (fun _ => Verdict w₀)
      fun _ => Verdict w₀ := by
  refine triple_recordFailure_of (F := fun _ => Verdict w₀)
    (triple_append steady_verdict self.auditService _)
    (fun e => triple_and fun _ => triple_commitVerdict e) (fun _ _ => ?_) fun _ _ _ _ h => h
  exact etriple_conseq triple_rollback (fun _ _ h => h) (fun _ _ _ h => h.2) fun _ _ _ h => h

/-- What the handlers do before they raise. -/
lemma triple_undo {x : Exn} {l : Locals} {k : M Evidence} {Q : Evidence → Past ι → Prop}
    (hx : x.isException = true) (self : EvidenceService) (createdBy : Option String)
    (reason : String)
    (hk : ETriple (recorded (machine hashtext)) (alone Deletes i) i (Verdict w₀) k Q
      fun _ => Verdict w₀) :
    ETriple (recorded (machine hashtext)) (alone Deletes i) i (Caught w₀ key (x, l))
      (do
        call .rollback
        compensateStorage l.objectKey l.stored
        recordFailure self caseId E createdBy reason
        k)
      Q fun _ => Verdict w₀ := by
  have hrest : ETriple (recorded (machine hashtext)) (alone Deletes i) i (Here i {} (Verdict w₀))
      (do
        recordFailure self caseId E createdBy reason
        k)
      Q fun _ => Verdict w₀ :=
    etriple_bind (triple_recordFailure self createdBy reason) fun _ => hk
  obtain ⟨tempPath, objectKey, stored⟩ := l
  intro p hp h
  obtain ⟨rfl, h⟩ | ⟨rfl, rfl, h⟩ := h
  · have hnothing : compensateStorage objectKey false = pure () := by
      cases objectKey <;> rfl
    refine etriple_bind triple_rollback (fun _ => ?_) p hp h
    simp only [hnothing]
    exact hrest
  · refine etriple_bind triple_rollback_stored (fun _ => ?_) p hp (h.1 hx)
    refine etriple_bind (etriple_tryCatch triple_deleteObject fun _ _ _ h => h.elim) fun _ => ?_
    exact hrest

lemma triple_handleUpload (self : EvidenceService) (createdBy : Option String)
    (outcome : Except (Exn × Locals) Evidence) :
    ETriple (recorded (machine hashtext)) (alone Deletes i) i
      (orElse (fun _ => Verdict w₀) (Caught w₀ key) outcome)
      (handleUpload self caseId E createdBy outcome) (fun _ => Verdict w₀)
      fun _ => Verdict w₀ := by
  refine triple_handleUpload_of (fun _ _ _ h => h) ?_ ?_ outcome
  · intro x l reason y hx _ _
    exact triple_undo hx self createdBy reason (etriple_throw fun _ _ h => h)
  · intro x l p _ hx h
    rcases h with ⟨-, h⟩ | ⟨-, -, h⟩
    · exact h
    · exact h.2 hx

lemma triple_cleanUpload (tempPath : Bool) :
    ETriple (recorded (machine hashtext)) (alone Deletes i) i (Verdict w₀) (cleanUpload tempPath)
      (fun _ => Verdict w₀) fun _ => Verdict w₀ :=
  triple_cleanUpload_of (triple_localCall _) (triple_localCall _) tempPath

/-! ### Every upload -/

lemma triple_uploadEvidence (hw : Opening w₀) (self : EvidenceService) (upload : UploadFile)
    (sourceType : EvidenceSourceType) (createdBy : Option String)
    (parentEvidenceId : Option Uuid) :
    ETriple (recorded (machine hashtext)) (alone Deletes i) i (Here i {} (Early w₀))
      (self.uploadEvidence caseId upload sourceType createdBy parentEvidenceId)
      (fun _ => Verdict w₀) fun _ => Verdict w₀ := by
  refine etriple_bind (triple_requireCase steady_early caseId) fun _ => ?_
  refine etriple_bind (triple_ofExcept steady_early _) fun names => ?_
  obtain ⟨name, extension⟩ := names
  refine etriple_bind (triple_uuid4 (φ := fun u => w₀.owner u = .fresh) steady_early
    fun w s u h hu => h.fresh u hu) fun E => ?_
  refine triple_and fun hE => ?_
  refine etriple_bind (triple_append steady_early self.auditService _) fun e => ?_
  refine triple_and fun _ => ?_
  refine etriple_bind (triple_commitEarly e) fun _ => ?_
  refine etriple_bind (etriple_lift (triple_storeUpload self upload sourceType createdBy
    parentEvidenceId name extension ((hw.blank E hE).2 caseId name (by simp))
    fun r hr => hw.keyed r hr caseId E name hE)) fun outcome => ?_
  refine triple_withFinally (triple_handleUpload self createdBy outcome) fun r => ?_
  cases r with
  | ok a => exact triple_cleanUpload _
  | error x => exact triple_cleanUpload _

lemma triple_upload (hw : Opening w₀) (app : App) (upload : UploadFile)
    (sourceType : EvidenceSourceType) (createdBy : Option String)
    (parentEvidenceId : Option Uuid) :
    Triple (recorded (machine hashtext)) (alone Deletes i) i (Here i {} (Early w₀))
      (app.handle (.upload caseId upload sourceType createdBy parentEvidenceId))
      fun _ => Verdict w₀ := by
  refine triple_session (Q := fun _ => Verdict w₀) (triple_conseq (etriple_map
    (H := fun _ => Verdict w₀) (triple_uploadEvidence hw app.evidenceService upload sourceType
      createdBy parentEvidenceId) fun _ _ _ h => h) (fun _ _ h => h) fun r _ _ h => ?_) ?_
  · cases r with
    | ok a => exact h
    | error x => exact h
  · exact fun _ w s c h => h.step (by simp) rfl rfl

/-- **Orphans**: however an upload ends, it has left no object without a committed row, or has
failed to delete one, exactly if it has failed to delete one or all its calls were careful. -/
theorem orphan_iff {app : App} {upload : UploadFile} {sourceType : EvidenceSourceType}
    {createdBy : Option String} {parentEvidenceId : Option Uuid} {t : List (Call ι)}
    {r : Except Exn Result} (hw : Opening w)
    (h : Ends (machine hashtext) i
      (app.handle (.upload caseId upload sourceType createdBy parentEvidenceId)) w t r v) :
    (¬ Exposed w v ∨ DeleteRaised t) ↔ ((∀ e ∈ t, Careful w e) ∨ DeleteRaised t) := by
  by_cases hd : DeleteRaised t
  · exact iff_of_true (.inr hd) (.inr hd)
  · have hok : ∀ e ∈ t, Deletes e := by
      intro e he key ho
      by_contra hf
      exact hd ⟨e, he, ⟨key, ho⟩, hf⟩
    have hverdict : Verdict w (v, t) := ends_post (Q := fun _ => Verdict w)
      (triple_upload hw app upload sourceType createdBy parentEvidenceId) h hok
      ⟨by rw [hw.txn]; rfl, rfl, rfl, fun _ hu => hu, by simp⟩
    exact or_congr_left hverdict

section Example

def isDelete : Op → Bool
  | .deleteObject _ => true
  | _ => false

/-- No deletion among the calls fails. -/
def deletes (t : List (Call ι)) : Bool :=
  t.all fun e => !isDelete e.op || decide (e.choice.fault = .none)

omit [DecidableEq ι] [Fintype ι] in
lemma not_deleteRaised {t : List (Call ι)} (h : deletes t = true) : ¬ DeleteRaised t := by
  rintro ⟨e, he, ⟨key, hkey⟩, hf⟩
  have hno := List.all_eq_true.mp h e he
  simp [hkey, isDelete, hf] at hno

omit [DecidableEq ι] [Fintype ι] in
/-- Where all is done or nothing, all calls are careful. -/
lemma careful_of_harmless (h : Harmless e) : Careful w₀ e := by
  obtain ⟨o, ⟨fault, uuid, now⟩, before⟩ := e
  cases fault with
  | none => exact ⟨by simp, fun _ => not_abandons_none⟩
  | before x =>
    refine ⟨by simp, fun _ ha => ?_⟩
    obtain ⟨hx, hclean⟩ := h
    have hxc : x ≠ .cancelled := by
      rintro rfl
      cases hx
    cases o <;> simp_all [Abandons, CleansUp]
  | after x => exact h.elim

/-- The row cannot be inserted. -/
def insertFails : List Choice :=
  choices 100 22 ++ (⟨.before (.sqlalchemy "OperationalError"), 0, noon⟩ :: choices 200 11)

lemma insertFails_ends : (follow (machine fun _ => 0) (0 : Fin 2)
    (textApp.handle (.upload 2 textUpload .other none none)) oneCase insertFails).map
    (fun q => q.1.all (fun e => decide (Harmless e)) && (deletes q.1 && isError q.2.1)) =
      some true := by
  decide

/-- The upload takes its object away again. -/
theorem orphan_iff_insertFails : ∃ t x v, Ends (machine fun _ => 0) (0 : Fin 2)
    (textApp.handle (.upload 2 textUpload .other none none)) oneCase t (.error x) v ∧
    ¬ Exposed oneCase v := by
  obtain ⟨⟨t, r, v⟩, hfollow, hdec⟩ := Option.map_eq_some_iff.mp insertFails_ends
  simp only [Bool.and_eq_true] at hdec
  obtain ⟨hok, hdeletes, herror⟩ := hdec
  have hends := ends_of_follow hfollow
  cases r with
  | ok a => cases herror
  | error x =>
    refine ⟨t, x, v, hends, ?_⟩
    have hcareful : ∀ e ∈ t, Careful oneCase e :=
      fun e he => careful_of_harmless (of_decide_eq_true (List.all_eq_true.mp hok e he))
    exact ((orphan_iff ready_oneCase.opening hends).mpr (.inl hcareful)).resolve_right
      (not_deleteRaised hdeletes)

/-- The client goes away while the row is inserted. -/
def clientGone : List Choice :=
  choices 100 22 ++ (⟨.before .cancelled, 0, noon⟩ :: choices 200 3)

/-- The key of the object of the upload. -/
def onlyKey : String := objectKeyOf 2 101 "a.txt"

lemma clientGone_ends : (follow (machine fun _ => 0) (0 : Fin 2)
    (textApp.handle (.upload 2 textUpload .other none none)) oneCase clientGone).map
    (fun q => isError q.2.1 && (deletes q.1 &&
      ((q.2.2.objects onlyKey).isSome && q.2.2.evidence.isEmpty))) = some true := by
  decide

/-- The object stays, without a row, and no deletion has failed. -/
theorem clientGone_orphan : ∃ t x v, Ends (machine fun _ => 0) (0 : Fin 2)
    (textApp.handle (.upload 2 textUpload .other none none)) oneCase t (.error x) v ∧
    Exposed oneCase v ∧ ¬ DeleteRaised t := by
  obtain ⟨⟨t, r, v⟩, hfollow, hdec⟩ := Option.map_eq_some_iff.mp clientGone_ends
  simp only [Bool.and_eq_true] at hdec
  obtain ⟨herror, hdeletes, hobject, hrows⟩ := hdec
  cases r with
  | ok a => cases herror
  | error x =>
    refine ⟨t, x, v, ends_of_follow hfollow, ⟨onlyKey, rfl, ?_, ?_⟩, not_deleteRaised hdeletes⟩
    · exact Option.isSome_iff_ne_none.mp hobject
    · rw [List.isEmpty_iff.mp hrows]
      simp

end Example

end WhaleMas.OrphanObjects
