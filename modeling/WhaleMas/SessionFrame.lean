import WhaleMas.EvidenceLife

/-!
The calls of a session, one by one, under any rules that leave every session its transaction:
what a session knows, and what its transaction holds, before and after each call. A call of a
clean run does not raise by itself.
-/

namespace WhaleMas.SessionFrame

open WhaleMas.Models WhaleMas.AuditLog WhaleMas.Program WhaleMas.RelyGuarantee
open WhaleMas.Database WhaleMas.Services WhaleMas.EvidenceLife

/-! ### Blocks of programs -/

section Blocks

variable {ι W C : Type} {N : Machine ι W C Op Answer} {R : Rules ι W C Op} {i : ι}

/-- The block of a `finally` is run in the end. -/
lemma triple_withFinally {α : Type} {p : M α} {q : M Unit} {P : W → Prop}
    {Q : Except Exn α → W → Prop} (hp : Triple N R i P p.run Q)
    (hq : ∀ r, ETriple N R i (Q r) q (fun _ => Q r) fun e => Q (.error e)) :
    Triple N R i P (withFinally p q).run Q := by
  refine triple_bind hp fun r => ?_
  refine triple_bind (hq r) fun r' => ?_
  cases r' with
  | ok _ => exact triple_ret fun _ _ h => h
  | error e => exact triple_ret fun _ _ h => h

/-- A part of a `try` block: an exception comes with the variables. -/
lemma triple_within {α : Type} {l : Locals} {p : M α} {P : W → Prop}
    {Q : α → W → Prop} {E : Exn → W → Prop} {E' : Exn × Locals → W → Prop}
    (hp : ETriple N R i P p Q E)
    (hE : ∀ e w, R.inv w → E e w → E' (e, l) w) :
    ETriple N R i P (within l p) Q E' := by
  refine triple_bind hp fun r => ?_
  cases r with
  | ok a => exact triple_ret fun _ _ h => h
  | error e => exact triple_ret fun w hw h => hE e w hw h

/-- The calls of an append, whether or not it looks for the event before. -/
lemma triple_append_of {self : AuditService} {a : AppendArgs} {P P' : W → Prop}
    {D : Uuid → W → Prop} {Q : AuditEvent → W → Prop} {E : Exn → W → Prop}
    (hlock : ETriple N R i P (call (.lockCaseChain a.caseId)) (fun _ => P') E)
    (hlatest : ETriple N R i P' (call (.latest a.caseId)) (fun _ => P') E)
    (hdraw : ETriple N R i P' (call .uuid4) D E)
    (hnow : ∀ id, ETriple N R i (D id) (call .now) (fun _ => D id) E)
    (hevent : ∀ previous id now, ETriple N R i (D id)
      (call (.appendEvent (newEvent previous a id now))) Q E) :
    ETriple N R i P (self.append a) Q E := by
  have hrest : ∀ previous, ETriple N R i P'
      (do
        let id ← call .uuid4
        let now ← call .now
        call (.appendEvent (newEvent previous a id now))) Q E := by
    intro previous
    refine etriple_bind hdraw fun id => ?_
    exact etriple_bind (hnow id) fun now => hevent previous id now
  refine etriple_bind hlock fun _ => ?_
  obtain ⟨chainEnabled⟩ := self
  cases chainEnabled
  · exact hrest none
  · exact etriple_bind hlatest hrest

/-- The loop that reads an upload gives its content and its size, where the calls and the checks
of a size keep `P`. -/
lemma triple_readUpload_of {v : FileValidator} {P : W → Prop} {E : Exn → W → Prop}
    (hcall : ∀ c, ETriple N R i P (call (.localCall c)) (fun _ => P) E)
    (chunks : List (List UInt8)) (size : ℕ) (content : List UInt8)
    (hcheck : ∀ n, v.maxSizeBytes < n → n ≤ size + chunks.flatten.length →
      ETriple N R i P (ofExcept (v.validateSize n)) (fun _ => P) E) :
    ETriple N R i P (readUpload v chunks size content)
      (fun p w => p = (size + chunks.flatten.length, content ++ chunks.flatten) ∧ P w) E := by
  induction chunks generalizing size content with
  | nil =>
    refine etriple_bind (hcall .readUpload) fun _ => ?_
    exact etriple_pure fun _ _ h => ⟨by simp, h⟩
  | cons chunk chunks ih =>
    have hlength : size + (chunk :: chunks).flatten.length =
        size + chunk.length + chunks.flatten.length := by
      rw [List.flatten_cons, List.length_append, Nat.add_assoc]
    rw [hlength] at hcheck ⊢
    have hrest : ETriple N R i P
        (do
          call (.localCall (.writeTemp chunk))
          readUpload v chunks (size + chunk.length) (content ++ chunk))
        (fun p w => p = (size + chunk.length + chunks.flatten.length,
          content ++ (chunk :: chunks).flatten) ∧ P w) E := by
      refine etriple_bind (hcall (.writeTemp chunk)) fun _ => ?_
      rw [List.flatten_cons, ← List.append_assoc]
      exact ih (size + chunk.length) (content ++ chunk) hcheck
    refine etriple_bind (hcall .readUpload) fun _ => ?_
    by_cases hbig : v.maxSizeBytes < size + chunk.length
    · simp only [hbig, if_true]
      exact etriple_bind (hcheck _ hbig (Nat.le_add_right ..)) fun _ => hrest
    · simp only [hbig, if_false]
      exact hrest

lemma triple_cleanUpload_of {P : W → Prop} {E : Exn → W → Prop}
    (hclose : ETriple N R i P (call (.localCall .closeUpload)) (fun _ => P) E)
    (hunlink : ETriple N R i P (call (.localCall .unlinkTemp)) (fun _ => P) E)
    (tempPath : Bool) : ETriple N R i P (cleanUpload tempPath) (fun _ => P) E := by
  refine etriple_bind hclose fun _ => ?_
  cases tempPath with
  | false => exact etriple_pure fun _ _ h => h
  | true => exact hunlink

/-- The compensation of a stored object, whose failure is forgotten. -/
lemma triple_compensateStorage_of {objectKey : Option String} {stored : Bool} {P Q : W → Prop}
    {E F : Exn → W → Prop}
    (hskip : ∀ w, R.inv w → (∀ key, ¬ (objectKey = some key ∧ stored = true)) → P w → Q w)
    (hdelete : ∀ key, objectKey = some key → stored = true →
      ETriple N R i P (call (.deleteObject key)) (fun _ => Q) F)
    (hforget : ∀ e w, R.inv w → e.isException = true → F e w → Q w)
    (hpass : ∀ e w, R.inv w → e.isException = false → F e w → E e w) :
    ETriple N R i P (compensateStorage objectKey stored) (fun _ => Q) E := by
  have hnothing : (∀ key, ¬ (objectKey = some key ∧ stored = true)) →
      ETriple N R i P (pure () : M Unit) (fun _ => Q) E :=
    fun h => etriple_pure fun w hw hP => hskip w hw h hP
  cases objectKey with
  | none => exact hnothing (by simp)
  | some key =>
    cases stored with
    | false => exact hnothing (by simp)
    | true =>
      refine etriple_tryCatch (hdelete key rfl rfl) fun e => ?_
      by_cases he : e.isException = true
      · simp only [he, if_true]
        exact etriple_pure fun w hw h => hforget e w hw he h
      · simp only [he]
        exact etriple_throw fun w hw h => hpass e w hw (by simpa using he) h

/-- The record of a failure, given up when the database fails. -/
lemma triple_recordFailure_of {self : EvidenceService} {caseId evidenceId : Uuid}
    {actorId : Option String} {reason : String} {P Q : W → Prop} {K : AuditEvent → W → Prop}
    {E F : Exn → W → Prop}
    (happend : ETriple N R i P (self.auditService.append
      { uploadEvent caseId evidenceId actorId .evidenceUploadFailed "upload" with
        metadata := some (failedMetadata reason) }) K F)
    (hcommit : ∀ event, ETriple N R i (K event) (call .commit) (fun _ => Q) F)
    (hrollback : ∀ e, e.isSQLAlchemyError = true →
      ETriple N R i (F e) (call .rollback) (fun _ => Q) E)
    (hpass : ∀ e w, R.inv w → e.isSQLAlchemyError = false → F e w → E e w) :
    ETriple N R i P (recordFailure self caseId evidenceId actorId reason) (fun _ => Q) E := by
  refine etriple_tryCatch (etriple_bind happend hcommit) fun e => ?_
  by_cases he : e.isSQLAlchemyError = true
  · simp only [he, if_true]
    exact hrollback e he
  · simp only [he]
    exact etriple_throw fun w hw h => hpass e w hw (by simpa using he) h

/-- The handlers hand an exception on, or undo the upload and raise `y`: the conflict for a
constraint that has failed, and else what they caught. -/
lemma triple_handleUpload_of {self : EvidenceService} {caseId evidenceId : Uuid}
    {createdBy : Option String} {P : Except (Exn × Locals) Evidence → W → Prop}
    {Q : Evidence → W → Prop} {E : Exn → W → Prop}
    (hok : ∀ r w, R.inv w → P (.ok r) w → Q r w)
    (hundo : ∀ x l reason y, x.isException = true → (x ≠ .integrity → y = x) →
      (x = .integrity →
        y = .domain (conflictError "DUPLICATE_EVIDENCE" "Duplicate evidence in this case")) →
      ETriple N R i (P (.error (x, l)))
        (do
          call .rollback
          compensateStorage l.objectKey l.stored
          recordFailure self caseId evidenceId createdBy reason
          throw y : M Evidence) Q E)
    (hpass : ∀ x l w, R.inv w → x.isException = false → P (.error (x, l)) w → E x w)
    (outcome : Except (Exn × Locals) Evidence) :
    ETriple N R i (P outcome) (handleUpload self caseId evidenceId createdBy outcome) Q E := by
  match outcome with
  | .ok r => exact etriple_pure (hok r)
  | .error (x, l) =>
    dsimp only [handleUpload]
    split_ifs with hintegrity hexception
    · subst hintegrity
      exact hundo .integrity l _ _ rfl (fun h => absurd rfl h) fun _ => rfl
    · exact hundo x l _ x hexception (fun _ => rfl) fun h => absurd h hintegrity
    · exact etriple_throw fun w hw h => hpass x l w hw (by simpa using hexception) h

end Blocks

variable {ι : Type} {R : Rules ι (World ι) Choice Op} {i : ι} {clean : Prop}
  {T : Txn} {G : World ι → Prop} {w v : World ι}

/-! ### What a session keeps -/

/-- Session `i` keeps the invariant and what the others rely on. -/
def Keeps (R : Rules ι (World ι) Choice Op) (i : ι) (w v : World ι) : Prop :=
  R.inv v ∧ ∀ j, j ≠ i → R.rely j w v

lemma Keeps.refl (hw : R.inv w) : Keeps R i w w := ⟨hw, fun j _ => R.refl j w⟩

/-- Only the transaction of session `i` changes, and what no other session sees. -/
structure Quiet (i : ι) (w v : World ι) : Prop where
  cases : v.cases = w.cases
  evidence : v.evidence = w.evidence
  audit : v.audit = w.audit
  objects : v.objects = w.objects
  owner : v.owner = w.owner
  txn : ∀ j, j ≠ i → v.txn j = w.txn j

lemma Quiet.view (h : Quiet i w v) (u : Uuid) : view u v = view u w := by
  simp only [EvidenceLife.view, h.cases, h.evidence, h.audit]

/-- The rules leave session `i` its transaction, which it may forget or append events to, and
the identifiers it drew. -/
class Frame (R : Rules ι (World ι) Choice Op) (i : ι) (clean : outParam Prop) : Prop where
  demand : ∀ w o, (∀ key, o ≠ .deleteObject key) → R.demand w i o
  policy : ∀ w o c, R.policy w i o c → clean → c.fault = .none
  txn : ∀ w v, R.rely i w v → v.txn i = w.txn i
  owner : ∀ w v u, R.rely i w v → w.owner u = .drawn i → v.owner u = .drawn i
  quiet : ∀ w v, R.inv w → Quiet i w v →
    (v.txn i).deleted = [] ∨ (v.txn i).deleted = (w.txn i).deleted →
    (v.txn i).evidence = [] ∨ (v.txn i).evidence = (w.txn i).evidence → Keeps R i w v
  draw : ∀ w u, R.inv w → w.owner u = .fresh → Keeps R i w (w.draw i u)

/-! ### What a session knows -/

/-- A transaction but for its locks. -/
def core (t : Txn) : Txn := { t with locks := [] }

@[simp] lemma core_empty : core {} = {} := rfl

/-- Session `i` has done `T` since its last commit, and knows `G`. -/
def At (i : ι) (T : Txn) (G : World ι → Prop) (w : World ι) : Prop := core (w.txn i) = T ∧ G w

/-- Neither the others nor the quiet steps of the session itself take `G` away. -/
structure Knowledge (R : Rules ι (World ι) Choice Op) (i : ι) (G : World ι → Prop) : Prop where
  stable : Stable R i G
  quiet : ∀ w v, Quiet i w v → G w → G v
  draw : ∀ w u, R.inv w → w.owner u = .fresh → G w → G (w.draw i u)

/-- A call has failed by itself. -/
def Faulty (clean : Prop) (G : World ι → Prop) (_ : Exn) (w : World ι) : Prop := ¬ clean ∧ G w

lemma At.txn (h : At i T G w) : w.txn i = { T with locks := (w.txn i).locks } := by
  rw [← h.1]
  rfl

lemma At.txn_evidence (h : At i T G w) : (w.txn i).evidence = T.evidence := by
  rw [← h.1]
  rfl

lemma At.txn_deleted (h : At i T G w) : (w.txn i).deleted = T.deleted := by
  rw [← h.1]
  rfl

lemma At.txn_events (h : At i T G w) : (w.txn i).events = T.events := by
  rw [← h.1]
  rfl

lemma At.txnView (h : At i T G w) (u : Uuid) : txnView u (w.txn i) = txnView u T := by
  rw [← h.1]
  rfl

lemma stable_at [Frame R i clean] (hG : Stable R i G) : Stable R i (At i T G) := by
  rintro u v ⟨ht, hg⟩ hu hr hv
  refine ⟨?_, hG u v hg hu hr hv⟩
  rw [Frame.txn u v hr, ht]

/-- Where a call fails by itself, the run is not clean. -/
lemma not_clean [Frame R i clean] {o : Op} {c : Choice} (hc : R.policy w i o c)
    (hf : c.fault ≠ .none) : ¬ clean := fun hclean => hf (Frame.policy w o c hc hclean)

lemma knowledge_true : Knowledge R i fun _ => True where
  stable := stable_const
  quiet := fun _ _ _ h => h
  draw := fun _ _ _ _ h => h

lemma Knowledge.and {H : World ι → Prop} (hG : Knowledge R i G) (hH : Knowledge R i H) :
    Knowledge R i fun w => G w ∧ H w where
  stable := hG.stable.and hH.stable
  quiet := fun w v hq h => ⟨hG.quiet w v hq h.1, hH.quiet w v hq h.2⟩
  draw := fun w u hw hu h => ⟨hG.draw w u hw hu h.1, hH.draw w u hw hu h.2⟩

lemma At.imp {H : World ι → Prop} (h : At i T G w) (hH : G w → H w) : At i T H w := ⟨h.1, hH h.2⟩

/-- A session sees the committed cases. -/
lemma exists_casesFor {caseId : Uuid} (h : ∃ c ∈ w.cases, c.id = caseId) :
    ∃ c ∈ w.casesFor i, c.id = caseId := by
  obtain ⟨c, hmem, hid⟩ := h
  refine ⟨updateCase (w.txn i).updates c, ?_, (updateCase_keeps _ c).1.trans hid⟩
  exact List.mem_map_of_mem (List.mem_append_left _ hmem)

lemma owner_draw {u x : Uuid} {j : ι} (hx : w.owner x = .fresh) (hu : w.owner u = .drawn j) :
    (w.draw i x).owner u = .drawn j := by
  have hne : u ≠ x := by
    rintro rfl
    simp [hx] at hu
  simpa [World.draw, hne] using hu

lemma knowledge_drawn [Frame R i clean] (u : Uuid) :
    Knowledge R i fun w => w.owner u = .drawn i where
  stable := fun w v h _ hr _ => Frame.owner w v u hr h
  quiet := fun _ _ hq h => by rwa [hq.owner]
  draw := fun _ _ _ hx h => owner_draw hx h

variable [DecidableEq ι]

lemma quiet_setTxn {t : Txn} : Quiet i w (w.setTxn i t) :=
  ⟨rfl, rfl, rfl, rfl, rfl, fun _ hj => setTxn_txn_of_ne hj⟩

lemma quiet_insertEvent {e : AuditEvent} : Quiet i w (w.insertEvent i e) :=
  ⟨rfl, rfl, rfl, rfl, rfl, fun _ hj => insertEvent_txn_of_ne hj⟩

lemma Knowledge.setTxn (hG : Knowledge R i G) (hg : G w) (t : Txn) : G (w.setTxn i t) :=
  hG.quiet _ _ quiet_setTxn hg

/-- A session forgets its transaction, or changes nothing of its rows of evidence. -/
lemma keeps_setTxn [Frame R i clean] {t : Txn} (hw : R.inv w)
    (hd : t.deleted = [] ∨ t.deleted = (w.txn i).deleted)
    (he : t.evidence = [] ∨ t.evidence = (w.txn i).evidence) :
    Keeps R i w (w.setTxn i t) := by
  refine Frame.quiet _ _ hw quiet_setTxn ?_ ?_
  · rwa [setTxn_txn]
  · rwa [setTxn_txn]

variable [Fintype ι] {hashtext : String → ℤ}

/-! ### Programs of a session -/

/-- What a session knows, whatever it has done since its last commit. -/
lemma triple_at {α : Type} {p : Prog Op Answer α} {Q : α → World ι → Prop}
    (h : ∀ T, Triple (machine hashtext) R i (At i T G) p Q) :
    Triple (machine hashtext) R i G p Q :=
  fun w hw hg => h _ w hw ⟨rfl, hg⟩

/-- Closing the session when all is done. -/
lemma triple_session [Frame R i clean] {α : Type} {p : M α} {P : World ι → Prop}
    {Q : Except Exn α → World ι → Prop} (hQ : ∀ r, Knowledge R i (Q r))
    (hp : Triple (machine hashtext) R i P p.run Q) :
    Triple (machine hashtext) R i P (withSession p) Q := by
  refine triple_withSession hp (fun r => (hQ r).stable) (fun w => Frame.demand w _ (by simp)) ?_
  intro r w hw hq
  have hkeeps : Keeps R i w (w.setTxn i {}) := keeps_setTxn hw (.inl rfl) (.inl rfl)
  exact ⟨hkeeps.1, hkeeps.2, (hQ r).setTxn hq {}⟩

/-! ### Quiet calls -/

variable [Frame R i clean]

/-- A call that neither commits nor deletes an object. -/
lemma triple_step {o : Op} {Q : o.Response → World ι → Prop} (hG : Knowledge R i G)
    (ho : ∀ key, o ≠ .deleteObject key)
    (hexec : ∀ w c r v, R.inv w → R.policy w i o c → At i T G w →
      exec hashtext o i c w = some (r, v) → Keeps R i w v ∧ G v ∧ orElse Q (Faulty clean G) r v) :
    ETriple (machine hashtext) R i (At i T G) (call o) Q (Faulty clean G) := by
  refine triple_exec (stable_at hG.stable) (fun w _ _ => Frame.demand w o ho) ?_ ?_
  · intro w c r v hw hat hpolicy hx
    obtain ⟨hkeeps, hg, hpost⟩ := hexec w c r v hw hpolicy hat hx
    exact ⟨hkeeps.1, hkeeps.2, hpost, fun e hf => ⟨not_clean hpolicy (by simp [hf]), hg⟩⟩
  · intro w c e _ hat hpolicy hf
    exact ⟨not_clean hpolicy (by simp [hf]), hat.2⟩

/-- A call that only looks. -/
lemma triple_look {o : Op} {Q : o.Response → World ι → Prop} (hG : Knowledge R i G)
    (ho : ∀ key, o ≠ .deleteObject key)
    (hexec : ∀ w c r v, R.inv w → At i T G w → exec hashtext o i c w = some (r, v) →
      v = w ∧ ∃ a, r = .ok a ∧ Q a w) :
    ETriple (machine hashtext) R i (At i T G) (call o) Q (Faulty clean G) := by
  refine triple_step hG ho fun w c r v hw _ hat hx => ?_
  obtain ⟨rfl, a, rfl, hQ⟩ := hexec w c r v hw hat hx
  exact ⟨.refl hw, hat.2, hQ⟩

lemma triple_localCall (hG : Knowledge R i G) (l : LocalCall) :
    ETriple (machine hashtext) R i (At i T G) (call (.localCall l)) (fun _ => At i T G)
      (Faulty clean G) := by
  refine triple_look hG (by simp) fun w c r v _ hat hx => ?_
  obtain ⟨rfl, rfl⟩ := Prod.mk.inj (Option.some.inj hx)
  exact ⟨rfl, _, rfl, hat⟩

lemma triple_now (hG : Knowledge R i G) :
    ETriple (machine hashtext) R i (At i T G) (call .now) (fun _ => At i T G)
      (Faulty clean G) := by
  refine triple_look hG (by simp) fun w c r v _ hat hx => ?_
  obtain ⟨rfl, rfl⟩ := Prod.mk.inj (Option.some.inj hx)
  exact ⟨rfl, _, rfl, hat⟩

lemma triple_latest (hG : Knowledge R i G) (caseId : Uuid) :
    ETriple (machine hashtext) R i (At i T G) (call (.latest caseId)) (fun _ => At i T G)
      (Faulty clean G) := by
  refine triple_look hG (by simp) fun w c r v _ hat hx => ?_
  obtain ⟨rfl, rfl⟩ := Prod.mk.inj (Option.some.inj hx)
  exact ⟨rfl, _, rfl, hat⟩

lemma triple_lockCaseChain (hG : Knowledge R i G) (caseId : Uuid) :
    ETriple (machine hashtext) R i (At i T G) (call (.lockCaseChain caseId))
      (fun _ => At i T G) (Faulty clean G) := by
  refine triple_step hG (by simp) fun w c r v hw _ hat hx => ?_
  simp only [exec] at hx
  split_ifs at hx
  obtain ⟨rfl, rfl⟩ := Prod.mk.inj (Option.some.inj hx)
  have hg := hG.setTxn hat.2
  refine ⟨keeps_setTxn hw (.inr rfl) (.inr rfl), hg _, ?_, hg _⟩
  rw [setTxn_txn]
  exact hat.1

/-- An identifier is drawn. -/
lemma triple_uuid4 {H : Uuid → World ι → Prop} (hG : Knowledge R i G)
    (hH : ∀ w u, R.inv w → w.owner u = .fresh → G w → H u (w.draw i u)) :
    ETriple (machine hashtext) R i (At i T G) (call .uuid4) (fun u => At i T (H u))
      (Faulty clean G) := by
  refine triple_step hG (by simp) fun w c r v hw _ hat hx => ?_
  simp only [exec] at hx
  split_ifs at hx with hfresh
  obtain ⟨rfl, rfl⟩ := Prod.mk.inj (Option.some.inj hx)
  exact ⟨Frame.draw w _ hw hfresh, hG.draw w _ hw hfresh hat.2, hat.1, hH w _ hw hfresh hat.2⟩

/-- The case that a session asks for is found where a clean run has it. -/
lemma triple_getCase (hG : Knowledge R i G) (caseId : Uuid)
    (hcase : clean → ∀ w, R.inv w → G w → ∃ c ∈ w.casesFor i, c.id = caseId) :
    ETriple (machine hashtext) R i (At i T G) (call (.getCase caseId))
      (fun r w => At i T G w ∧ (clean → r ≠ none)) (Faulty clean G) := by
  refine triple_look hG (by simp) fun w c r v hw hat hx => ?_
  obtain ⟨rfl, rfl⟩ := Prod.mk.inj (Option.some.inj hx)
  refine ⟨rfl, _, rfl, hat, fun hc hnone => ?_⟩
  obtain ⟨c, hmem, hid⟩ := hcase hc w hw hat.2
  have hne := List.find?_eq_none.mp hnone c hmem
  simp [hid] at hne

lemma triple_requireCase (hG : Knowledge R i G) (caseId : Uuid)
    (hcase : clean → ∀ w, R.inv w → G w → ∃ c ∈ w.casesFor i, c.id = caseId) :
    ETriple (machine hashtext) R i (At i T G) (requireCase caseId) (fun _ => At i T G)
      (Faulty clean G) := by
  refine etriple_bind (triple_getCase hG caseId hcase) fun r => ?_
  cases r with
  | none => exact etriple_throw fun w _ h => ⟨fun hc => h.2 hc rfl, h.1.2⟩
  | some c => exact etriple_pure fun w _ h => h.1

lemma triple_appendEvent (hG : Knowledge R i G) (e : AuditEvent) {caseId : Uuid}
    (he : e.caseId = some caseId)
    (hcase : clean → ∀ w, R.inv w → G w → ∃ c ∈ w.casesFor i, c.id = caseId) :
    ETriple (machine hashtext) R i (At i T G) (call (.appendEvent e))
      (fun r w => r = e ∧ At i { T with events := T.events ++ [e] } G w) (Faulty clean G) := by
  refine triple_step hG (by simp) fun w c r v hw _ hat hx => ?_
  simp only [exec] at hx
  split_ifs at hx with hmiss
  · obtain ⟨rfl, rfl⟩ := Prod.mk.inj (Option.some.inj hx)
    refine ⟨.refl hw, hat.2, fun hc => ?_, hat.2⟩
    obtain ⟨c, hmem, hid⟩ := hcase hc w hw hat.2
    simp only [he, Option.any_some, decide_eq_true_eq] at hmiss
    exact hmiss c hmem hid
  · obtain ⟨rfl, rfl⟩ := Prod.mk.inj (Option.some.inj hx)
    have hg := hG.quiet _ _ (quiet_insertEvent (e := e)) hat.2
    refine ⟨Frame.quiet _ _ hw quiet_insertEvent (.inr ?_) (.inr ?_), hg, rfl, ?_, hg⟩
    · rw [insertEvent_txn]
    · rw [insertEvent_txn]
    · rw [insertEvent_txn, ← hat.1]
      rfl

/-- An event is appended for the arguments, under an identifier that the session draws. -/
lemma triple_append_drawn (hG : Knowledge R i G) (auditService : AuditService) (a : AppendArgs)
    (hcase : clean → ∀ w, R.inv w → G w → ∃ c ∈ w.casesFor i, c.id = a.caseId) :
    ETriple (machine hashtext) R i (At i T G) (auditService.append a)
      (fun e w => (∃ previous id now, e = newEvent previous a id now) ∧
        At i { T with events := T.events ++ [e] } (fun w => G w ∧ w.owner e.id = .drawn i) w)
      (Faulty clean G) := by
  have hdrawn : ∀ id, Knowledge R i fun w => G w ∧ w.owner id = .drawn i :=
    fun id => hG.and (knowledge_drawn id)
  refine triple_append_of (triple_lockCaseChain hG a.caseId) (triple_latest hG a.caseId)
    (triple_uuid4 (H := fun id w => G w ∧ w.owner id = .drawn i) hG
      fun w id hw hid hg => ⟨hG.draw w id hw hid hg, by simp [World.draw]⟩)
    (fun id => etriple_error (triple_now (hdrawn id)) fun _ _ _ h => ⟨h.1, h.2.1⟩) ?_
  intro previous id now
  refine etriple_conseq (triple_appendEvent (hdrawn id) (newEvent previous a id now) rfl
    fun hc w hw hg => hcase hc w hw hg.1) (fun _ _ h => h) ?_ fun _ _ _ h => ⟨h.1, h.2.1⟩
  rintro e w - ⟨rfl, hat⟩
  exact ⟨⟨previous, id, now, rfl⟩, hat⟩

/-- An event is appended for the arguments. -/
lemma triple_append (hG : Knowledge R i G) (auditService : AuditService) (a : AppendArgs)
    (hcase : clean → ∀ w, R.inv w → G w → ∃ c ∈ w.casesFor i, c.id = a.caseId) :
    ETriple (machine hashtext) R i (At i T G) (auditService.append a)
      (fun e w => (∃ previous id now, e = newEvent previous a id now) ∧
        At i { T with events := T.events ++ [e] } G w) (Faulty clean G) :=
  etriple_conseq (triple_append_drawn hG auditService a hcase) (fun _ _ h => h)
    (fun _ _ _ h => ⟨h.1, h.2.imp fun hg => hg.1⟩) fun _ _ _ h => h

lemma triple_rollback (hG : Knowledge R i G) :
    ETriple (machine hashtext) R i (At i T G) (call .rollback) (fun _ => At i {} G)
      (Faulty clean G) := by
  refine triple_step hG (by simp) fun w c r v hw _ hat hx => ?_
  obtain ⟨rfl, rfl⟩ := Prod.mk.inj (Option.some.inj hx)
  have hg := hG.setTxn hat.2
  exact ⟨keeps_setTxn hw (.inl rfl) (.inl rfl), hg _, by rw [setTxn_txn]; rfl, hg _⟩

end WhaleMas.SessionFrame
