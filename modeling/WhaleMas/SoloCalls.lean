import WhaleMas.Alone
import WhaleMas.SessionFrame

/-!
The calls of a session that runs alone, one by one: its transaction before and after each call,
and what is known of the committed state and of the calls so far. Calls may raise.
-/

namespace WhaleMas.SoloCalls

open WhaleMas.Models WhaleMas.AuditLog WhaleMas.Program WhaleMas.RelyGuarantee
open WhaleMas.Alone WhaleMas.Database WhaleMas.Hashing WhaleMas.Services WhaleMas.SessionFrame

abbrev Call (ι : Type) := Event (World ι) Choice Op

/-- A world, and the calls that led to it. -/
abbrev Past (ι : Type) := World ι × List (Call ι)

variable {ι : Type} {i : ι} {w v : World ι} {c : Choice} {o : Op}

/-- Calls that change nothing but the transaction of their session and who has which
identifier, and that leave the transaction to be committed or forgotten. -/
def Idle : Op → Prop
  | .commit | .rollback | .close | .putObject .. | .deleteObject _ => False
  | _ => True

/-- What is committed and what is stored is the same, and no identifier is given back. -/
structure Hidden (w v : World ι) : Prop where
  cases : v.cases = w.cases
  evidence : v.evidence = w.evidence
  audit : v.audit = w.audit
  objects : v.objects = w.objects
  fresh : ∀ u, v.owner u = .fresh → w.owner u = .fresh

lemma Hidden.refl (w : World ι) : Hidden w w := ⟨rfl, rfl, rfl, rfl, fun _ h => h⟩

lemma Hidden.trans {u : World ι} (h : Hidden w v) (h' : Hidden v u) : Hidden w u :=
  ⟨h'.cases.trans h.cases, h'.evidence.trans h.evidence, h'.audit.trans h.audit,
    h'.objects.trans h.objects, fun x hx => h.fresh x (h'.fresh x hx)⟩

/-- The call has raised: by its choice, or by itself, which is no cancellation. -/
def Raised (c : Choice) (x : Exn) : Prop :=
  c.fault = .before x ∨ c.fault = .after x ∨ (c.fault = .none ∧ x ≠ .cancelled)

section Exec

variable [DecidableEq ι]

lemma hidden_setTxn {t : Txn} : Hidden w (w.setTxn i t) := ⟨rfl, rfl, rfl, rfl, fun _ h => h⟩

lemma orphan_nil : orphan [] = id := by
  funext r
  have hkeep : r.parentEvidenceId.filter (fun p => p ∉ ([] : List Uuid)) =
      r.parentEvidenceId := by
    cases r.parentEvidenceId <;> simp
  simp only [orphan, hkeep, id]

/-- What a session with a row and events to commit commits. -/
lemma commit_rows {rows : List Evidence} {events : List AuditEvent}
    (h : core (w.txn i) = { evidence := rows, events := events }) :
    (w.commit i).cases = w.cases ∧ (w.commit i).evidence = w.evidence ++ rows ∧
      (w.commit i).audit = w.audit ++ events := by
  have hcases : (w.txn i).cases = [] := congrArg Txn.cases h
  have hupdates : (w.txn i).updates = [] := congrArg Txn.updates h
  have hrows : (w.txn i).evidence = rows := congrArg Txn.evidence h
  have hdeleted : (w.txn i).deleted = [] := congrArg Txn.deleted h
  have hevents : (w.txn i).events = events := congrArg Txn.events h
  have hcase : updateCase [] = id := rfl
  refine ⟨?_, ?_, ?_⟩
  · simp [hcases, hupdates, hcase]
  · simp [hrows, hdeleted, orphan_nil]
  · simp [hevents]

/-- An idle call does not show. -/
lemma hidden_effect (ho : Idle o) (h : Effect i c w o v) : Hidden w v := by
  cases h with
  | nothing => exact .refl w
  | commit => exact ho.elim
  | rollback => exact ho.elim
  | close => exact ho.elim
  | putObject => exact ho.elim
  | deleteObject => exact ho.elim
  | uuid4 hfresh =>
    refine ⟨rfl, rfl, rfl, rfl, fun u hu => ?_⟩
    by_cases huc : u = c.uuid
    · rw [huc, hfresh]
    · simpa [World.draw, huc] using hu
  | _ => exact ⟨rfl, rfl, rfl, rfl, fun _ h => h⟩

variable [Fintype ι] {hashtext : String → ℤ} {r : Answer o}

/-- What an idle call does: it answers, or it raises, and neither shows. -/
lemma idle_cases (ho : Idle o) (h : perform hashtext o i c w = some (r, v)) :
    Hidden w v ∧ ((∃ a, r = .ok a ∧ c.fault = .none ∧ exec hashtext o i c w = some (.ok a, v)) ∨
      ∃ x, r = .error x ∧ Raised c x) := by
  have hclose : o ≠ .close := by
    rintro rfl
    exact ho
  obtain ⟨hx, hf⟩ | ⟨x, hf, rfl, rfl⟩ | ⟨x, r', hf, rfl, hx⟩ := perform_cases hashtext h
  · have hnone := hf.resolve_right hclose
    obtain ⟨heffect, hraises⟩ := exec_effect hx
    refine ⟨hidden_effect ho heffect, ?_⟩
    cases r with
    | ok a => exact .inl ⟨a, rfl, hnone, hx⟩
    | error x =>
      have hcancelled : x ≠ .cancelled := by
        rintro rfl
        exact Bool.false_ne_true (hraises _ rfl)
      exact .inr ⟨x, rfl, .inr (.inr ⟨hnone, hcancelled⟩)⟩
  · exact ⟨.refl _, .inr ⟨x, rfl, .inl hf⟩⟩
  · exact ⟨hidden_effect ho (exec_effect hx).1, .inr ⟨x, rfl, .inr (.inl hf)⟩⟩

/-! ### Waiting -/

/-- Where the other sessions have nothing to commit, a call only waits for an identifier. -/
lemma exec_waits (hidle : ∀ j, j ≠ i → w.txn j = {}) (h : exec hashtext o i c w = none) :
    o = .uuid4 ∧ w.owner c.uuid ≠ .fresh := by
  cases o with
  | uuid4 =>
    simp only [exec] at h
    split_ifs at h with hfresh
    exact ⟨rfl, hfresh⟩
  | createCase row =>
    simp only [exec, execCreateCase] at h
    split_ifs at h with _ hwait
    obtain ⟨j, hj, hc⟩ := hwait
    simp [hidle j hj] at hc
  | flushCase case changes =>
    simp only [exec, execFlushCase] at h
    cases hcol : changes.columns case c.now with
    | none => simp [hcol] at h
    | some columns =>
      simp only [hcol] at h
      split_ifs at h with _ hwait
      obtain ⟨j, hj, hu⟩ := hwait
      simp [hidle j hj] at hu
  | refreshCase caseId =>
    simp only [exec, execRefreshCase] at h
    split at h <;> cases h
  | createEvidence row =>
    simp only [exec, execCreateEvidence] at h
    split_ifs at h with hwait
    obtain ⟨j, hj, hw⟩ := hwait
    cases hp : (row c.now).parentEvidenceId <;> simp [hidle j hj, hp] at hw
  | deleteEvidence E =>
    simp only [exec, execDeleteEvidence] at h
    split_ifs at h with hwait
    obtain ⟨j, hj, hd⟩ := hwait
    simp [hidle j hj] at hd
  | lockCaseChain caseId =>
    simp only [exec] at h
    split_ifs at h with hwait
    obtain ⟨j, hj, hk⟩ := hwait
    simp [hidle j hj] at hk
  | appendEvent e =>
    simp only [exec] at h
    split_ifs at h
  | _ => cases h

lemma perform_waits (hidle : ∀ j, j ≠ i → w.txn j = {}) (h : perform hashtext o i c w = none) :
    o = .uuid4 ∧ w.owner c.uuid ≠ .fresh := by
  by_cases ho : o = .close
  · subst ho
    cases h
  · suffices h' : exec hashtext o i c w = none from exec_waits hidle h'
    cases hf : c.fault with
    | none => cases o <;> first | exact absurd rfl ho | simpa only [perform, hf] using h
    | before e => cases o <;> first | exact absurd rfl ho | simp [perform, hf] at h
    | after e =>
      cases o <;> first
        | exact absurd rfl ho
        | simpa only [perform, hf, Option.map_eq_none_iff] using h

/-- Where the other sessions have nothing to commit, that stays so. -/
lemma makes_idle {α : Type} {p q : Prog Op Answer α} {t : List (Call ι)}
    (h : Makes (machine hashtext) i p w t q v) (hidle : ∀ j, j ≠ i → w.txn j = {}) :
    ∀ j, j ≠ i → v.txn j = {} := by
  induction h with
  | refl p w => exact hidle
  | @op o k c w u v r t q hp _ ih =>
    refine ih fun j hj => ?_
    obtain ⟨hx, -⟩ | ⟨_, _, -, rfl⟩ | ⟨_, _, _, -, hx⟩ := perform_cases hashtext hp
    · rw [(exec_effect hx).1.others hj, hidle j hj]
    · exact hidle j hj
    · rw [(exec_effect hx).1.others hj, hidle j hj]

/-- Nobody has the identifiers that the program draws. -/
def DrawsFresh {α : Type} (hashtext : String → ℤ) (i : ι) (p : Prog Op Answer α) (w : World ι)
    (cs : ℕ → Choice) : Prop :=
  ∀ t k u, Chosen cs t → Makes (machine hashtext) i p w t (.op .uuid4 k) u →
    u.owner (cs t.length).uuid = .fresh

/-- **A session that runs alone ends**, whichever of its calls raise. -/
theorem solo_ends {α : Type} {p : Prog Op Answer α} {cs : ℕ → Choice}
    (hidle : ∀ j, j ≠ i → w.txn j = {}) (hcs : DrawsFresh hashtext i p w cs) :
    ∃ t a v, Chosen cs t ∧ Ends (machine hashtext) i p w t a v := by
  rcases ends_or_waits (machine hashtext) i p w cs with h | ⟨t, o, k, u, hc, hm, hw⟩
  · exact h
  · obtain ⟨rfl, hu⟩ := perform_waits (makes_idle hm hidle) hw
    exact absurd (hcs t k u hc hm) hu

end Exec

/-! ### What is known between two calls -/

/-- Session `i` has done `T` since its last commit, and `G` holds. -/
def Here (i : ι) (T : Txn) (G : Past ι → Prop) (x : Past ι) : Prop := core (x.1.txn i) = T ∧ G x

/-- Idle calls that do not raise keep `G`, and where the session raises `E` holds. -/
structure Steady (ok : Call ι → Prop) (G : Past ι → Prop) (E : Exn → Past ι → Prop) : Prop where
  pass : ∀ w v s o c, Idle o → ok ⟨o, c, w⟩ → c.fault = .none → Hidden w v → G (w, s) →
    G (v, s ++ [⟨o, c, w⟩])
  fail : ∀ w v s o c x, Idle o → ok ⟨o, c, w⟩ → Raised c x → Hidden w v → G (w, s) →
    E x (v, s ++ [⟨o, c, w⟩])
  raise : ∀ e x, G x → E (.domain e) x

/-- Calls that also leave the transaction as it is, but for its locks. -/
def Looks : Op → Prop
  | .getCase _ | .lockCaseChain _ | .latest _ | .getEvidence .. | .getByHash .. | .uuid4 | .now
  | .localCall _ => True
  | _ => False

lemma Looks.idle (ho : Looks o) : Idle o := by
  cases o <;> trivial

section Rules

variable [DecidableEq ι] [Fintype ι] {hashtext : String → ℤ} {ok : Call ι → Prop} {T : Txn}
  {G : Past ι → Prop} {E : Exn → Past ι → Prop}

lemma core_looks {r : Answer o} (ho : Looks o) (h : exec hashtext o i c w = some (r, v)) :
    core (v.txn i) = core (w.txn i) := by
  cases (exec_effect h).1 with
  | nothing | uuid4 => rfl
  | lockCaseChain =>
    rw [setTxn_txn]
    rfl
  | _ => exact ho.elim

/-- The rule for idle calls: what the session has done after the call. -/
lemma triple_idle {φ : o.Response → Prop} {T' : o.Response → Txn} (ho : Idle o)
    (hG : Steady ok G E)
    (hexec : ∀ w s c a v, Here i T G (w, s) → exec hashtext o i c w = some (.ok a, v) →
      φ a ∧ core (v.txn i) = T' a) :
    ETriple (recorded (machine hashtext)) (alone ok i) i (Here i T G) (call o)
      (fun a x => φ a ∧ Here i (T' a) G x) E := by
  refine triple_solo fun w s c r v hat hok hp => ?_
  obtain ⟨hid, ⟨a, rfl, hf, hx⟩ | ⟨x, rfl, hr⟩⟩ := idle_cases ho hp
  · obtain ⟨hφ, ht⟩ := hexec w s c a v hat hx
    exact ⟨hφ, ht, hG.pass w v s o c ho hok hf hid hat.2⟩
  · exact hG.fail w v s o c x ho hok hr hid hat.2

/-- Whatever the session has done since its last commit. -/
lemma triple_here {α : Type} {p : Prog Op Answer α} {Q : α → Past ι → Prop}
    (h : ∀ T, Triple (recorded (machine hashtext)) (alone ok i) i (Here i T G) p Q) :
    Triple (recorded (machine hashtext)) (alone ok i) i G p Q :=
  fun x hx hg => h _ x hx ⟨rfl, hg⟩

/-- The rule for idle calls where it does not matter what the session has done. -/
lemma triple_quiet (ho : Idle o) (hG : Steady ok G E) :
    ETriple (recorded (machine hashtext)) (alone ok i) i G (call o) (fun _ => G) E := by
  refine triple_solo fun w s c r v hg hok hp => ?_
  obtain ⟨hid, ⟨a, rfl, hf, -⟩ | ⟨x, rfl, hr⟩⟩ := idle_cases ho hp
  · exact hG.pass w v s o c ho hok hf hid hg
  · exact hG.fail w v s o c x ho hok hr hid hg

lemma triple_looks (ho : Looks o) (hG : Steady ok G E) :
    ETriple (recorded (machine hashtext)) (alone ok i) i (Here i T G) (call o)
      (fun _ => Here i T G) E :=
  etriple_conseq (triple_idle (φ := fun _ => True) ho.idle hG
    fun _ _ _ _ _ h hx => ⟨trivial, (core_looks ho hx).trans h.1⟩) (fun _ _ h => h)
    (fun _ _ _ h => h.2) fun _ _ _ h => h

lemma triple_appendEvent (hG : Steady ok G E) (e : AuditEvent) :
    ETriple (recorded (machine hashtext)) (alone ok i) i (Here i T G) (call (.appendEvent e))
      (fun a x => a = e ∧ Here i { T with events := T.events ++ [e] } G x) E := by
  refine triple_idle trivial hG fun w s c a v h hx => ?_
  simp only [exec] at hx
  split_ifs at hx
  · cases hx
  · obtain ⟨ha, rfl⟩ := Prod.mk.inj (Option.some.inj hx)
    refine ⟨(Except.ok.inj ha).symm, ?_⟩
    rw [insertEvent_txn, ← h.1]
    rfl

lemma triple_createEvidence (hG : Steady ok G E) (row : Datetime → Evidence) :
    ETriple (recorded (machine hashtext)) (alone ok i) i (Here i T G) (call (.createEvidence row))
      (fun a x => (∃ now, a = row now) ∧ Here i { T with evidence := T.evidence ++ [a] } G x)
      E := by
  refine triple_idle trivial hG fun w s c a v h hx => ?_
  simp only [exec, execCreateEvidence] at hx
  split_ifs at hx
  · cases hx
  · obtain ⟨ha, rfl⟩ := Prod.mk.inj (Option.some.inj hx)
    obtain rfl := Except.ok.inj ha
    refine ⟨⟨c.now, rfl⟩, ?_⟩
    rw [setTxn_txn, ← h.1]
    rfl

/-- An identifier is drawn that nobody has. -/
lemma triple_uuid4 (hG : Steady ok G E) {φ : Uuid → Prop}
    (hφ : ∀ w s u, G (w, s) → w.owner u = .fresh → φ u) :
    ETriple (recorded (machine hashtext)) (alone ok i) i (Here i T G) (call .uuid4)
      (fun u x => φ u ∧ Here i T G x) E := by
  refine triple_idle trivial hG fun w s c a v h hx => ?_
  have hlooks : Looks .uuid4 := trivial
  refine ⟨?_, (core_looks hlooks hx).trans h.1⟩
  simp only [exec] at hx
  split_ifs at hx with hfresh
  obtain ⟨ha, -⟩ := Prod.mk.inj (Option.some.inj hx)
  obtain rfl := Except.ok.inj ha
  exact hφ w s _ h.2 hfresh

/-- The rule for calls that do one thing to the world. -/
lemma triple_effect {a : o.Response} {f : World ι → World ι} {P Q : Past ι → Prop}
    (hexec : ∀ w c, exec hashtext o i c w = some (.ok a, f w)) (hclose : o ≠ .close)
    (hdone : ∀ w s c, P (w, s) → ok ⟨o, c, w⟩ → c.fault = .none → Q (f w, s ++ [⟨o, c, w⟩]))
    (hbefore : ∀ w s c x, P (w, s) → ok ⟨o, c, w⟩ → c.fault = .before x →
      E x (w, s ++ [⟨o, c, w⟩]))
    (hafter : ∀ w s c x, P (w, s) → ok ⟨o, c, w⟩ → c.fault = .after x →
      E x (f w, s ++ [⟨o, c, w⟩])) :
    ETriple (recorded (machine hashtext)) (alone ok i) i P (call o) (fun _ => Q) E := by
  refine triple_solo fun w s c r v hP hok hp => ?_
  obtain ⟨hx, hf⟩ | ⟨x, hf, rfl, rfl⟩ | ⟨x, r', hf, rfl, hx⟩ := perform_cases hashtext hp
  · obtain ⟨rfl, rfl⟩ := Prod.mk.inj (Option.some.inj ((hexec w c).symm.trans hx))
    exact hdone w s c hP hok (hf.resolve_right hclose)
  · exact hbefore v s c x hP hok hf
  · obtain ⟨-, rfl⟩ := Prod.mk.inj (Option.some.inj ((hexec w c).symm.trans hx))
    exact hafter w s c x hP hok hf

/-- Closing the session, which does not fail. -/
lemma triple_session {α : Type} {p : M α} {P : Past ι → Prop}
    {Q Q' : Except Exn α → Past ι → Prop}
    (hp : Triple (recorded (machine hashtext)) (alone ok i) i P p.run Q)
    (hclose : ∀ r w s c, Q r (w, s) → Q' r (w.setTxn i {}, s ++ [⟨.close, c, w⟩])) :
    Triple (recorded (machine hashtext)) (alone ok i) i P (withSession p) Q' := by
  refine triple_bind hp fun r => ?_
  refine triple_bind (Q := fun _ => Q' r) (triple_solo fun w s c a v hQ _ hx => ?_)
    fun _ => triple_ret fun _ _ h => h
  obtain ⟨-, rfl⟩ := Prod.mk.inj (Option.some.inj hx)
  exact hclose r w s c hQ

/-- An event is appended for the arguments. -/
lemma triple_append (hG : Steady ok G E) (self : AuditService) (a : AppendArgs) :
    ETriple (recorded (machine hashtext)) (alone ok i) i (Here i T G) (self.append a)
      (fun e x => (∃ previous id now, e = newEvent previous a id now) ∧
        Here i { T with events := T.events ++ [e] } G x) E := by
  refine triple_append_of (triple_looks trivial hG) (triple_looks trivial hG)
    (triple_looks trivial hG) (fun _ => triple_looks trivial hG) fun previous id now => ?_
  refine etriple_conseq (triple_appendEvent hG (newEvent previous a id now)) (fun _ _ h => h)
    ?_ fun _ _ _ h => h
  rintro e x - ⟨rfl, hat⟩
  exact ⟨⟨previous, id, now, rfl⟩, hat⟩

/-- A validation that may raise. -/
lemma triple_ofExcept {α : Type} (hG : Steady ok G E) (r : Except DomainError α) :
    ETriple (recorded (machine hashtext)) (alone ok i) i (Here i T G) (ofExcept r)
      (fun _ => Here i T G) E := by
  cases r with
  | ok a => exact etriple_pure fun _ _ h => h
  | error e => exact etriple_throw fun x _ h => hG.raise e x h.2

lemma triple_requireCase (hG : Steady ok G E) (caseId : Uuid) :
    ETriple (recorded (machine hashtext)) (alone ok i) i (Here i T G) (requireCase caseId)
      (fun _ => Here i T G) E := by
  refine etriple_bind (triple_looks trivial hG) fun r => ?_
  cases r with
  | none => exact etriple_throw fun x _ h => hG.raise _ x h.2
  | some c => exact etriple_pure fun _ _ h => h

/-- The loop that reads an upload keeps the size and the content of what it has read. -/
lemma triple_readUpload (hG : Steady ok G E) (v : FileValidator) (chunks : List (List UInt8))
    (size : ℕ) (content : List UInt8) :
    ETriple (recorded (machine hashtext)) (alone ok i) i (Here i T G)
      (readUpload v chunks size content)
      (fun r x => r.2 = content ++ chunks.flatten ∧ Here i T G x) E :=
  etriple_conseq (triple_readUpload_of (fun _ => triple_looks trivial hG) chunks size content
    fun _ _ _ => triple_ofExcept hG _) (fun _ _ h => h)
    (fun _ _ _ h => ⟨congrArg Prod.snd h.1, h.2⟩) fun _ _ _ h => h

/-! ### The parts of an upload -/

/-- The first part of the `try` block, up to the commit of the hash. -/
lemma triple_receiveUpload {H : Past ι → Prop} (hG : Steady ok G E) (self : EvidenceService)
    (caseId evidenceId : Uuid) (upload : UploadFile) (createdBy : Option String)
    (hcommit : ∀ e, (∃ previous id now, e = newEvent previous
        { uploadEvent caseId evidenceId createdBy .evidenceHashed "hash" with
          outputHash := some (Sha256.hexdigest upload.chunks.flatten) } id now) →
      ETriple (recorded (machine hashtext)) (alone ok i) i
        (Here i { T with events := T.events ++ [e] } G) (call .commit) (fun _ => Here i {} H) E) :
    ETriple (recorded (machine hashtext)) (alone ok i) i (Here i T G)
      (receiveUpload self caseId evidenceId upload createdBy)
      (fun r x => r.2.1 = upload.chunks.flatten ∧ r.2.2 = Sha256.hexdigest upload.chunks.flatten ∧
        Here i {} H x) E := by
  refine etriple_bind (triple_readUpload hG self.validator upload.chunks 0 []) fun r => ?_
  obtain ⟨size, content⟩ := r
  refine triple_and ?_
  simp only [List.nil_append]
  rintro rfl
  refine etriple_bind (triple_looks trivial hG) fun _ => ?_
  refine etriple_bind (triple_ofExcept hG _) fun _ => ?_
  refine etriple_bind (triple_looks trivial hG) fun _ => ?_
  simp only [sha256File_default]
  refine etriple_bind (triple_looks trivial hG) fun known => ?_
  cases known with
  | some row =>
    refine etriple_bind (Q := fun _ _ => False) (etriple_throw fun x _ h => hG.raise _ x h.2)
      fun _ _ _ h => h.elim
  | none =>
    refine etriple_bind (triple_append hG self.auditService
      { uploadEvent caseId evidenceId createdBy .evidenceHashed "hash" with
        outputHash := some (Sha256.hexdigest upload.chunks.flatten) }) fun e => ?_
    refine triple_and fun he => ?_
    refine etriple_bind (hcommit e he) fun _ => ?_
    exact etriple_pure fun _ _ h => ⟨rfl, rfl, h⟩

/-- The last part of the `try` block, up to the commit of the row. -/
lemma triple_recordUpload {Q : Evidence → Past ι → Prop} (hG : Steady ok G E)
    (self : EvidenceService) (caseId evidenceId : Uuid) (objectKey digest : String)
    (row : Datetime → Evidence) (createdBy : Option String)
    (hcommit : ∀ r, (∃ now, r = row now) → ∀ s, (∃ previous id now, s = newEvent previous
        { uploadEvent caseId evidenceId createdBy .evidenceStored "store" with
          metadata := some (storedMetadata objectKey) } id now) →
      ∀ d, (∃ previous id now, d = newEvent previous
        { uploadEvent caseId evidenceId createdBy .evidenceCreated "create" with
          outputHash := some digest } id now) →
      ETriple (recorded (machine hashtext)) (alone ok i) i
        (Here i { evidence := [r], events := [s, d] } G) (call .commit) (fun _ => Q r) E) :
    ETriple (recorded (machine hashtext)) (alone ok i) i (Here i {} G)
      (recordUpload self caseId evidenceId objectKey digest row createdBy) Q E := by
  refine etriple_bind (triple_createEvidence hG row) fun (r : Evidence) => ?_
  refine triple_and fun hr => ?_
  refine etriple_bind (triple_append hG self.auditService _) fun s => ?_
  refine triple_and fun hs => ?_
  refine etriple_bind (triple_append hG self.auditService _) fun d => ?_
  refine triple_and fun hd => ?_
  refine etriple_bind (hcommit r hr s hs d hd) fun _ => ?_
  exact etriple_pure fun _ _ h => h

end Rules

end WhaleMas.SoloCalls
