import WhaleMas.OrphanObjects

/-!
Deletions that fail. The object goes first, and nothing brings it back: a deletion that raises
has left everything as it was exactly if it has not taken an object away.
-/

namespace WhaleMas.FailedDeletes

open WhaleMas.Models WhaleMas.AuditLog WhaleMas.Program WhaleMas.RelyGuarantee WhaleMas.Alone
open WhaleMas.Database WhaleMas.Services WhaleMas.SessionRuns WhaleMas.ConcurrentUploads
open WhaleMas.SoloCalls WhaleMas.UploadOutcomes WhaleMas.OrphanObjects

variable {ι : Type} {i : ι} {w₀ w v : World ι} {s : List (Call ι)} {e : Call ι} {p : Past ι}

/-- Rows, objects and log are as they were. -/
structure Intact (w v : World ι) : Prop where
  evidence : v.evidence = w.evidence
  objects : v.objects = w.objects
  audit : v.audit = w.audit

/-- Where the call raises, it has no effect. -/
def Effectless (e : Call ι) : Prop := ∀ x, e.choice.fault ≠ .after x

/-- The call takes an object away: it finds one, and does not raise. -/
def Takes (e : Call ι) : Prop :=
  ∃ key, e.op = .deleteObject key ∧ e.choice.fault = .none ∧ e.before.objects key ≠ none

/-- All is as it was exactly if no object was taken away. -/
def Verdict (w₀ : World ι) (p : Past ι) : Prop := Intact w₀ p.1 ↔ ∀ e ∈ p.2, ¬ Takes e

/-- All is as it was, and no object was taken away. -/
def Untouched (w₀ : World ι) (p : Past ι) : Prop := Intact w₀ p.1 ∧ ∀ e ∈ p.2, ¬ Takes e

lemma Untouched.verdict (h : Untouched w₀ p) : Verdict w₀ p := iff_of_true h.1 h.2

lemma intact_congr (hid : Hidden w v) : Intact w₀ v ↔ Intact w₀ w := by
  constructor
  · rintro ⟨he, ho, ha⟩
    exact ⟨hid.evidence.symm.trans he, hid.objects.symm.trans ho, hid.audit.symm.trans ha⟩
  · rintro ⟨he, ho, ha⟩
    exact ⟨hid.evidence.trans he, hid.objects.trans ho, hid.audit.trans ha⟩

lemma all_snoc {P : Call ι → Prop} (he : P e) : (∀ e' ∈ s ++ [e], P e') ↔ ∀ e' ∈ s, P e' := by
  rw [List.forall_mem_append, List.forall_mem_singleton]
  exact and_iff_left he

/-- What does not show and deletes no object keeps the verdict. -/
lemma Verdict.step (h : Verdict w₀ (w, s)) (hid : Hidden w v) (he : ¬ Takes e) :
    Verdict w₀ (v, s ++ [e]) :=
  ((intact_congr hid).trans h).trans (all_snoc he).symm

lemma Untouched.step (h : Untouched w₀ (w, s)) (hid : Hidden w v) (he : ¬ Takes e) :
    Untouched w₀ (v, s ++ [e]) :=
  ⟨(intact_congr hid).mpr h.1, (all_snoc he).mpr h.2⟩

lemma not_takes_idle {c : Choice} {o : Op} (ho : Idle o) : ¬ Takes (⟨o, c, w⟩ : Call ι) := by
  rintro ⟨key, rfl, -⟩
  exact ho

lemma steady_untouched : Steady Effectless (Untouched w₀) fun _ => Verdict w₀ where
  pass := fun _ _ _ _ _ ho _ _ hid h => h.step hid (not_takes_idle ho)
  fail := fun _ _ _ _ _ _ ho _ _ hid h => h.verdict.step hid (not_takes_idle ho)
  raise := fun _ _ h => h.verdict

lemma steady_verdict : Steady Effectless (Verdict w₀) fun _ => Verdict w₀ where
  pass := fun _ _ _ _ _ ho _ _ hid h => h.step hid (not_takes_idle ho)
  fail := fun _ _ _ _ _ _ ho _ _ hid h => h.step hid (not_takes_idle ho)
  raise := fun _ _ h => h

variable [DecidableEq ι] [Fintype ι] {hashtext : String → ℤ}

/-- The object is taken away, or there was none, or the call raises. -/
lemma triple_deleteObject (key : String) :
    ETriple (recorded (machine hashtext)) (alone Effectless i) i (Untouched w₀)
      (call (.deleteObject key)) (fun _ => Verdict w₀) fun _ => Verdict w₀ := by
  refine triple_effect (fun _ _ => rfl) (by simp) ?_ ?_ ?_
  · intro w s c h _ hf
    by_cases hobject : w.objects key = none
    · have hsame : (w.setObject key none).objects = w.objects := by
        rw [← hobject]
        exact Function.update_eq_self key w.objects
      refine h.verdict.step ⟨rfl, rfl, rfl, hsame, fun _ hu => hu⟩ ?_
      rintro ⟨key', hkey, -, hsome⟩
      obtain rfl := Op.deleteObject.inj hkey
      exact hsome hobject
    · refine iff_of_false (fun hi => ?_) fun hall => ?_
      · have hgone : (w.setObject key none).objects key = none := by simp [World.setObject]
        rw [hi.objects, ← h.1.objects] at hgone
        exact hobject hgone
      · exact hall _ (List.mem_append_right _ (List.mem_singleton_self _)) ⟨key, rfl, hf, hobject⟩
  · intro w s c x h _ hf
    refine h.verdict.step (.refl w) ?_
    rintro ⟨key', -, hnone, -⟩
    simp [hf] at hnone
  · exact fun w s c x _ hok hf => absurd hf (hok x)

lemma triple_commit :
    ETriple (recorded (machine hashtext)) (alone Effectless i) i (Verdict w₀) (call .commit)
      (fun _ _ => True) fun _ => Verdict w₀ := by
  refine triple_effect (fun _ _ => rfl) (by simp) (fun _ _ _ _ _ _ => trivial) ?_ ?_
  · intro w s c x h _ _
    refine h.step (.refl w) ?_
    rintro ⟨key, hkey, -⟩
    cases hkey
  · exact fun w s c x _ hok hf => absurd hf (hok x)

lemma triple_deleteEvidence (self : EvidenceService) (caseId E : Uuid) :
    ETriple (recorded (machine hashtext)) (alone Effectless i) i (Untouched w₀)
      (self.deleteEvidence caseId E) (fun _ _ => True) fun _ => Verdict w₀ := by
  have hget : ETriple (recorded (machine hashtext)) (alone Effectless i) i (Untouched w₀)
      (self.getEvidence caseId E) (fun _ => Untouched w₀) fun _ => Verdict w₀ := by
    refine etriple_bind (Q := fun _ => Untouched w₀) (triple_here fun T => etriple_conseq
      (triple_requireCase steady_untouched caseId) (fun _ _ h => h) (fun _ _ _ h => h.2)
      fun _ _ _ h => h) fun _ => ?_
    refine etriple_bind (triple_quiet trivial steady_untouched) fun r => ?_
    cases r with
    | none => exact etriple_throw fun _ _ h => h.verdict
    | some evidence => exact etriple_pure fun _ _ h => h
  refine etriple_bind hget fun evidence => ?_
  refine etriple_bind (triple_deleteObject evidence.objectKey) fun _ => ?_
  refine etriple_bind (triple_quiet trivial steady_verdict) fun _ => ?_
  refine etriple_bind (Q := fun _ => Verdict w₀) (triple_here fun T => etriple_conseq
    (triple_append steady_verdict self.auditService _) (fun _ _ h => h) (fun _ _ _ h => h.2.2)
    fun _ _ _ h => h) fun _ => ?_
  exact triple_commit

/-- How a deletion that may raise ends. -/
def Failed (w₀ : World ι) : Except Exn Result → Past ι → Prop
  | .ok _, _ => True
  | .error _, p => Verdict w₀ p

lemma triple_delete (app : App) (caseId E : Uuid) :
    Triple (recorded (machine hashtext)) (alone Effectless i) i (Untouched w₀)
      (app.handle (.delete caseId E)) (Failed w₀) := by
  refine triple_session (etriple_map (H := fun _ _ => True) (triple_deleteEvidence
    app.evidenceService caseId E) fun _ _ _ _ => trivial) ?_
  intro r w s c h
  cases r with
  | ok a => trivial
  | error x =>
    have hv : Verdict w₀ (w, s) := h
    refine hv.step hidden_setTxn ?_
    rintro ⟨key, hkey, -⟩
    cases hkey

/-- **Failed deletions**: where no call has an effect and raises, a deletion that raises has
left everything as it was exactly if it has taken no object away. -/
theorem delete_intact_iff {app : App} {caseId E : Uuid} {t : List (Call ι)} {x : Exn}
    (hok : ∀ e ∈ t, Effectless e)
    (h : Ends (machine hashtext) i (app.handle (.delete caseId E)) w t (.error x) v) :
    Intact w v ↔ ∀ e ∈ t, ¬ Takes e :=
  ends_post (triple_delete app caseId E) h hok ⟨⟨rfl, rfl, rfl⟩, by simp⟩

section Example

/-- A file is uploaded to the case, and then deleted. -/
def uploadAndDelete (cs : List Choice) :
    Option ((List (Call (Fin 2)) × Except Exn Result × World (Fin 2)) ×
      List (Call (Fin 2)) × Except Exn Result × World (Fin 2)) :=
  (follow (machine fun _ => 0) (0 : Fin 2) (textApp.handle (.upload 2 textUpload .other none none))
    oneCase (choices 100 37)).bind fun q =>
      (follow (machine fun _ => 0) (1 : Fin 2) (textApp.handle (.delete 2 101)) q.2.2 cs).map
        fun q' => (q, q')

lemma ends_of_uploadAndDelete {cs : List Choice} {q q' : List (Call (Fin 2)) × Except Exn Result ×
    World (Fin 2)} (h : uploadAndDelete cs = some (q, q')) :
    Ends (machine fun _ => 0) (1 : Fin 2) (textApp.handle (.delete 2 101)) q.2.2 q'.1 q'.2.1
      q'.2.2 := by
  obtain ⟨p, hup, hmap⟩ := Option.bind_eq_some_iff.mp h
  obtain ⟨p', hdel, heq⟩ := Option.map_eq_some_iff.mp hmap
  obtain ⟨rfl, rfl⟩ := Prod.mk.inj heq
  exact ends_of_follow hdel

/-- A call in the middle raises without effect. -/
def failsAfter (n m : ℕ) (x : Exn) : List Choice :=
  choices 300 n ++ (⟨.before x, 0, noon⟩ :: choices 400 m)

def effectless (e : Call ι) : Bool :=
  match e.choice.fault with
  | .after _ => false
  | _ => true

omit [DecidableEq ι] [Fintype ι] in
lemma effectless_of_all {t : List (Call ι)} (h : t.all effectless = true) :
    ∀ e ∈ t, Effectless e := by
  intro e he x hx
  have hno := List.all_eq_true.mp h e he
  simp [effectless, hx] at hno

/-- The storage does not delete the object. -/
def storageRefuses : List Choice :=
  failsAfter 2 1 (.domain (storageError "Unable to delete evidence object"))

lemma storageRefuses_ends : (uploadAndDelete storageRefuses).map (fun q =>
    isError q.2.2.1 && (q.2.1.all effectless &&
      q.2.1.all fun e => !isDelete e.op || decide (e.choice.fault ≠ .none))) = some true := by
  decide

/-- Nothing has changed. -/
theorem delete_intact_iff_storageRefuses : ∃ w t x v, Ends (machine fun _ => 0) (1 : Fin 2)
    (textApp.handle (.delete 2 101)) w t (.error x) v ∧ Intact w v := by
  obtain ⟨⟨⟨t₁, r₁, w⟩, t, r, v⟩, hq, hdec⟩ := Option.map_eq_some_iff.mp storageRefuses_ends
  simp only [Bool.and_eq_true] at hdec
  obtain ⟨herror, hok, hraised⟩ := hdec
  have hends := ends_of_uploadAndDelete hq
  cases r with
  | ok a => cases herror
  | error x =>
    refine ⟨w, t, x, v, hends, (delete_intact_iff (effectless_of_all hok) hends).mpr ?_⟩
    rintro e he ⟨key, hkey, hnone, -⟩
    have hno := List.all_eq_true.mp hraised e he
    simp [hkey, hnone, isDelete] at hno

/-- The database does not delete the row. -/
def databaseRefuses : List Choice := failsAfter 3 1 (.sqlalchemy "OperationalError")

lemma databaseRefuses_ends : (uploadAndDelete databaseRefuses).map (fun q =>
    isError q.2.2.1 && (q.2.1.all effectless && decide (∃ r ∈ q.2.2.2.evidence,
      (q.1.2.2.objects r.objectKey).isSome && (q.2.2.2.objects r.objectKey).isNone))) =
        some true := by
  decide

/-- A committed row has lost its object. -/
theorem databaseRefuses_not_intact : ∃ w t x v, Ends (machine fun _ => 0) (1 : Fin 2)
    (textApp.handle (.delete 2 101)) w t (.error x) v ∧ (∀ e ∈ t, Effectless e) ∧
    ¬ Intact w v ∧ ∃ r ∈ v.evidence, v.objects r.objectKey = none := by
  obtain ⟨⟨⟨t₁, r₁, w⟩, t, r, v⟩, hq, hdec⟩ := Option.map_eq_some_iff.mp databaseRefuses_ends
  simp only [Bool.and_eq_true, decide_eq_true_eq] at hdec
  obtain ⟨herror, hok, row, hrow, hbefore, hafter⟩ := hdec
  have hgone : v.objects row.objectKey = none := Option.isNone_iff_eq_none.mp hafter
  cases r with
  | ok a => cases herror
  | error x =>
    refine ⟨w, t, x, v, ends_of_uploadAndDelete hq, effectless_of_all hok, fun hi => ?_, row, hrow,
      hgone⟩
    rw [← hi.objects, hgone] at hbefore
    cases hbefore

end Example

end WhaleMas.FailedDeletes
