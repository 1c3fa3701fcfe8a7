import WhaleMas.FileValidation
import WhaleMas.SessionRuns

/-!
What an upload knows of the constraints that its insert meets: its case is there, and nothing
that is committed has the identifier it drew or an object key under it. So its content and its
parent are what is left for the insert to fail on.
-/

namespace WhaleMas.DuplicateRules

open WhaleMas.Models WhaleMas.AuditLog WhaleMas.Program WhaleMas.RelyGuarantee
open WhaleMas.Database WhaleMas.Services WhaleMas.EvidenceLife WhaleMas.SessionRules
open WhaleMas.SessionFrame WhaleMas.SessionRuns

variable {ι : Type} {i j : ι} {w v : World ι} {o : Op} {c : Choice}

/-! ### Rows and the identifiers they name -/

/-- The row has the identifier, or its object lies under it. -/
def Names (r : Evidence) (u : Uuid) : Prop :=
  r.id = u ∨ ∃ caseId name, r.objectKey = objectKeyOf caseId u name

/-- Committed rows name no identifier that is still to be drawn, and rows that a session has
inserted only those that it has drawn. -/
structure Owned (w : World ι) : Prop where
  committed : ∀ r ∈ w.evidence, ∀ u, Names r u → w.owner u ≠ .fresh
  inserted : ∀ i, ∀ r ∈ (w.txn i).evidence, ∀ u, Names r u → w.owner u = .drawn i

/-- No committed row names an identifier that session `i` has drawn. -/
def Unused (i : ι) (w : World ι) : Prop :=
  ∀ r ∈ w.evidence, ∀ u, Names r u → w.owner u ≠ .drawn i

def CaseThere (caseId : Uuid) (w : World ι) : Prop := ∃ c ∈ w.cases, c.id = caseId

/-- What session `i` relies on. -/
structure Rely (i : ι) (w v : World ι) : Prop where
  txn : v.txn i = w.txn i
  owner : ∀ u, w.owner u = .drawn i → v.owner u = .drawn i
  unused : Unused i w → Unused i v
  caseThere : ∀ caseId, CaseThere caseId w → CaseThere caseId v

lemma Rely.refl (i : ι) (w : World ι) : Rely i w w :=
  ⟨rfl, fun _ h => h, fun h => h, fun _ h => h⟩

lemma Rely.trans {u : World ι} (h : Rely i w v) (h' : Rely i v u) : Rely i w u where
  txn := h'.txn.trans h.txn
  owner := fun x hx => h'.owner x (h.owner x hx)
  unused := fun hu => h'.unused (h.unused hu)
  caseThere := fun k hk => h'.caseThere k (h.caseThere k hk)

/-- A session inserts rows that name what it has drawn. -/
def Demand (w : World ι) (i : ι) (o : Op) : Prop :=
  ∀ row, o = .createEvidence row → ∀ now u, Names (row now) u → w.owner u = .drawn i

/-! ### What a call does to them -/

section Effects

variable [DecidableEq ι]

/-- What a call of session `i` does to the rows of evidence and to the identifiers. -/
inductive RowStep (i : ι) (c : Choice) (w : World ι) (o : Op) (v : World ι) : Prop
  | kept (hevidence : v.evidence = w.evidence) (howner : v.owner = w.owner)
      (hrows : (v.txn i).evidence ⊆ (w.txn i).evidence)
  | insert (row : Datetime → Evidence) (ho : o = .createEvidence row)
      (hv : v = w.setTxn i { w.txn i with evidence := (w.txn i).evidence ++ [row c.now] })
  | commit (hv : v = w.commit i)
  | draw (hfresh : w.owner c.uuid = .fresh) (hv : v = w.draw i c.uuid)

lemma rowStep_effect (h : Effect i c w o v) : RowStep i c w o v := by
  cases h with
  | nothing | nextSequenceValue | putObject | deleteObject =>
    exact .kept rfl rfl (List.Subset.refl _)
  | createCase | flushCase | lockCaseChain | deleteEvidence =>
    exact .kept rfl rfl (by rw [setTxn_txn]; exact List.Subset.refl _)
  | appendEvent => exact .kept rfl rfl (by rw [insertEvent_txn]; exact List.Subset.refl _)
  | rollback | close => exact .kept rfl rfl (by rw [setTxn_txn]; exact List.nil_subset _)
  | createEvidence row => exact .insert row rfl rfl
  | commit => exact .commit rfl
  | uuid4 hfresh => exact .draw hfresh rfl

/-- Cases stay. -/
lemma caseThere_effect {caseId : Uuid} (h : Effect i c w o v) (hc : CaseThere caseId w) :
    CaseThere caseId v := by
  cases h with
  | commit => exact exists_casesFor hc
  | _ => exact hc

/-- A committed row was committed before, or the session had inserted it. -/
lemma of_mem_commit {r : Evidence} (h : r ∈ (w.commit i).evidence) :
    ∃ s, (s ∈ w.evidence ∨ s ∈ (w.txn i).evidence) ∧ ∀ u, Names r u ↔ Names s u := by
  obtain ⟨s, hs, -, rfl⟩ := mem_commit_evidence.mp h
  exact ⟨s, hs, fun _ => Iff.rfl⟩

/-- One session has a new transaction. -/
lemma Owned.inserted_of {t : Txn} (hw : Owned w) (hv : v.txn = Function.update w.txn i t)
    (ht : ∀ r ∈ t.evidence, ∀ u, Names r u → w.owner u = .drawn i) :
    ∀ j, ∀ r ∈ (v.txn j).evidence, ∀ u, Names r u → w.owner u = .drawn j :=
  forall_txn (P := fun j t => ∀ r ∈ t.evidence, ∀ u, Names r u → w.owner u = .drawn j) hv ht
    fun j _ => hw.inserted j

lemma Owned.effect (hw : Owned w) (hd : Demand w i o) (h : Effect i c w o v) : Owned v := by
  have htxn := txn_eq_update fun j hj => h.others (j := j) hj
  cases rowStep_effect h with
  | kept hevidence howner hrows =>
    refine ⟨?_, ?_⟩
    · rw [hevidence, howner]
      exact hw.committed
    · rw [howner]
      exact hw.inserted_of htxn fun r hr => hw.inserted i r (hrows hr)
  | insert row ho hv =>
    subst hv
    refine ⟨hw.committed, hw.inserted_of rfl fun r hr u hu => ?_⟩
    rcases List.mem_append.mp hr with hr | hr
    · exact hw.inserted i r hr u hu
    · obtain rfl := List.mem_singleton.mp hr
      exact hd row ho c.now u hu
  | commit hv =>
    subst hv
    refine ⟨fun r hr u hu => ?_, hw.inserted_of rfl (by simp)⟩
    obtain ⟨s, hs | hs, hnames⟩ := of_mem_commit hr
    · exact hw.committed s hs u ((hnames u).mp hu)
    · have hdrawn := hw.inserted i s hs u ((hnames u).mp hu)
      simp [hdrawn]
  | draw hfresh hv =>
    subst hv
    refine ⟨fun r hr u hu => ?_, fun j r hr u hu => ?_⟩
    · by_cases hx : u = c.uuid
      · simp [World.draw, hx]
      · simpa [World.draw, hx] using hw.committed r hr u hu
    · exact owner_draw hfresh (hw.inserted j r hr u hu)

/-- The identifiers of a session stay its own. -/
lemma owner_effect {u : Uuid} (h : Effect i c w o v) (hu : w.owner u = .drawn j) :
    v.owner u = .drawn j := by
  cases rowStep_effect h with
  | kept _ howner => rwa [howner]
  | draw hfresh hv =>
    subst hv
    exact owner_draw hfresh hu
  | _ => subst_vars; exact hu

/-- A call of session `i` uses no identifier of session `j`, unless it is the commit of the
rows that `j` itself has inserted. -/
lemma unused_effect (hw : Owned w) (h : Effect i c w o v) (hj : j = i → (w.txn i).evidence = [])
    (hu : Unused j w) : Unused j v := by
  cases rowStep_effect h with
  | kept hevidence howner =>
    unfold Unused
    rw [hevidence, howner]
    exact hu
  | insert _ _ hv =>
    subst hv
    exact hu
  | commit hv =>
    subst hv
    intro r hr u hn hdrawn
    obtain ⟨s, hs | hs, hnames⟩ := of_mem_commit hr
    · exact hu s hs u ((hnames u).mp hn) hdrawn
    · have hown := hw.inserted i s hs u ((hnames u).mp hn)
      have hji : j = i := Owner.drawn.inj (hdrawn.symm.trans hown)
      rw [hj hji] at hs
      cases hs
  | draw hfresh hv =>
    subst hv
    intro r hr u hn
    have hne : u ≠ c.uuid := by
      rintro rfl
      exact hw.committed r hr _ hn hfresh
    simpa [World.draw, hne] using hu r hr u hn

/-- The others can rely on what a call does. -/
lemma rely_effect (hw : Owned w) (h : Effect i c w o v) (hj : j ≠ i) : Rely j w v where
  txn := h.others hj
  owner := fun _ => owner_effect h
  unused := unused_effect hw h fun hji => absurd hji hj
  caseThere := fun _ => caseThere_effect h

end Effects

/-! ### What is reported -/

/-- The exception is neither an `IntegrityError` nor a duplicate. -/
def Plain : Exn → Prop
  | .integrity => False
  | .domain e => e.code ≠ "DUPLICATE_EVIDENCE"
  | _ => True

/-- A call that fails by itself reports no duplicate: an `IntegrityError` comes from a constraint
alone. -/
def Honest (c : Choice) : Prop := ∀ e, c.fault = .before e ∨ c.fault = .after e → Plain e

/-- The calls that look for a row with the content of an upload. -/
def Checks : Op → Prop
  | .getByHash .. | .createEvidence _ => True
  | _ => False

/-- The parent that a row names, if it names another row, is there when the row is inserted. -/
def ParentThere (w : World ι) (i : ι) (o : Op) (c : Choice) : Prop :=
  match o with
  | .createEvidence row => ∀ p ∈ (row c.now).parentEvidenceId, p ≠ (row c.now).id →
      ∃ q ∈ w.evidenceFor i, q.id = p
  | _ => True

instance : Decidable (ParentThere w i o c) := by
  apply Op.casesOn (motive := fun o => Decidable (ParentThere w i o c)) o <;> intros <;>
    unfold ParentThere <;> first | exact Option.decidableForallMem _ | infer_instance

/-- What is asked of the calls of session `i`. -/
def Regular (i : ι) (w : World ι) (j : ι) (o : Op) (c : Choice) : Prop :=
  j = i → Honest c ∧ ParentThere w j o c

/-- An upload: its session, its case, and the digest of its file. -/
structure Subject (ι : Type) where
  session : ι
  caseId : Uuid
  digest : String

/-- The case has another committed row with the digest. -/
def Subject.Held (S : Subject ι) (w : World ι) : Prop :=
  ∃ r ∈ w.evidence, r.caseId = S.caseId ∧ r.sha256 = S.digest ∧ w.owner r.id ≠ .drawn S.session

variable {S : Subject ι}

/-- The upload finds no row with its content where it looks for one. -/
def Policy (S : Subject ι) (w : World ι) (i : ι) (o : Op) (c : Choice) : Prop :=
  Regular S.session w i o c ∧ (i = S.session → Checks o → ¬ S.Held w)

def rules (S : Subject ι) : Rules ι (World ι) Choice Op where
  inv := Owned
  rely := Rely
  demand := Demand
  policy := Policy S
  refl := Rely.refl
  trans := fun _ _ _ _ => Rely.trans

/-- The upload does not raise the exception as a report of a duplicate. -/
def Fine (S : Subject ι) (i : ι) (e : Exn) : Prop := i = S.session → Plain e

/-! ### What a session knows -/

/-- No row that session `i` has inserted is pending or committed. -/
def Blank (i : ι) (w : World ι) : Prop := (w.txn i).evidence = [] ∧ Unused i w

/-- A session that has inserted nothing sees the committed rows. -/
lemma Blank.mem {r : Evidence} (h : Blank i w) (hr : r ∈ w.evidenceFor i) : r ∈ w.evidence := by
  have hmem := List.mem_of_mem_filter hr
  rwa [h.1, List.append_nil] at hmem

lemma Blank.other {r : Evidence} (h : Blank i w) (hr : r ∈ w.evidence) :
    w.owner r.id ≠ .drawn i :=
  h.2 r hr r.id (.inl rfl)

variable [DecidableEq ι]

/-- Only an insert of session `i` may take `G` away. -/
structure Lasting (i : ι) (G : World ι → Prop) : Prop where
  rely : ∀ w v, G w → Rely i w v → G v
  own : ∀ w v o c, Owned w → (∀ row, o ≠ .createEvidence row) → Effect i c w o v → G w → G v

variable {G H : World ι → Prop}

lemma lasting_const {p : Prop} : Lasting i fun _ => p where
  rely := fun _ _ h _ => h
  own := fun _ _ _ _ _ _ _ h => h

lemma Lasting.and (hG : Lasting i G) (hH : Lasting i H) : Lasting i fun w => G w ∧ H w where
  rely := fun w v h hr => ⟨hG.rely w v h.1 hr, hH.rely w v h.2 hr⟩
  own := fun w v o c hw ho he h => ⟨hG.own w v o c hw ho he h.1, hH.own w v o c hw ho he h.2⟩

lemma lasting_caseThere (caseId : Uuid) : Lasting i (CaseThere caseId) where
  rely := fun _ _ h hr => hr.caseThere caseId h
  own := fun _ _ _ _ _ _ he h => caseThere_effect he h

lemma lasting_drawn (u : Uuid) : Lasting i fun w => w.owner u = .drawn i where
  rely := fun _ _ h hr => hr.owner u h
  own := fun _ _ _ _ _ _ he h => owner_effect he h

lemma lasting_blank : Lasting i (Blank i) where
  rely := fun _ _ h hr => ⟨hr.txn ▸ h.1, hr.unused h.2⟩
  own := by
    intro w v o c hw ho he h
    refine ⟨?_, unused_effect hw he (fun _ => h.1) h.2⟩
    cases rowStep_effect he with
    | kept _ _ hrows => exact List.subset_nil.mp (h.1 ▸ hrows)
    | insert row hrow => exact absurd hrow (ho row)
    | commit hv =>
      subst hv
      rw [commit_txn]
    | draw _ hv =>
      subst hv
      exact h.1

lemma Lasting.stable (hG : Lasting i G) : Stable (rules S) i G :=
  fun w v h _ hr _ => hG.rely w v h hr

/-- What an upload knows when it has drawn `E` and has not inserted its row. -/
def Ready (i : ι) (caseId E : Uuid) (w : World ι) : Prop :=
  Blank i w ∧ CaseThere caseId w ∧ w.owner E = .drawn i

lemma lasting_ready (caseId E : Uuid) : Lasting i (Ready i caseId E) :=
  lasting_blank.and ((lasting_caseThere caseId).and (lasting_drawn E))

/-! ### Calls -/

/-- Calls that do not fail by what they find. -/
def Answers : Op → Prop
  | .createCase _ | .flushCase .. | .refreshCase _ | .appendEvent _ | .createEvidence _ => False
  | _ => True

variable [Fintype ι] {hashtext : String → ℤ}

lemma exec_answers {r : Answer o} (ho : Answers o) (h : exec hashtext o i c w = some (r, v)) :
    ∃ a, r = .ok a := by
  cases o with
  | createCase | flushCase | refreshCase | appendEvent | createEvidence => exact ho.elim
  | lockCaseChain | uuid4 =>
    simp only [exec] at h
    split_ifs at h
    exact ⟨_, (Prod.mk.inj (Option.some.inj h)).1.symm⟩
  | deleteEvidence =>
    simp only [exec, execDeleteEvidence] at h
    split_ifs at h <;> exact ⟨_, (Prod.mk.inj (Option.some.inj h)).1.symm⟩
  | _ => exact ⟨_, (Prod.mk.inj (Option.some.inj h)).1.symm⟩

/-- A call that inserts no row of evidence. -/
lemma triple_op {Q : o.Response → World ι → Prop} (hG : Lasting i G)
    (ho : ∀ row, o ≠ .createEvidence row)
    (hok : ∀ w c a v, Policy S w i o c → G w → exec hashtext o i c w = some (.ok a, v) →
      G v → Q a v)
    (herror : i = S.session → ∀ w c e v, G w → exec hashtext o i c w = some (.error e, v) →
      Plain e) :
    ETriple (machine hashtext) (rules S) i G (call o) Q (fun e w => Fine S i e ∧ G w) := by
  have hdemand : ∀ w, Demand w i o := fun _ row h => absurd h (ho row)
  refine triple_exec hG.stable (fun w _ _ => hdemand w) ?_ ?_
  · intro w c r v hw hg hc hx
    have heffect := (exec_effect hx).1
    have hgv := hG.own w v o c hw ho heffect hg
    refine ⟨Owned.effect hw (hdemand w) heffect, fun j hj => rely_effect hw heffect hj, ?_,
      fun e hf => ⟨fun hi => (hc.1 hi).1 e (.inr hf), hgv⟩⟩
    cases r with
    | ok a => exact hok w c a v hc hg hx hgv
    | error e => exact ⟨fun hi => herror hi w c e v hg hx, hgv⟩
  · intro w c e _ hg hc hf
    exact ⟨fun hi => (hc.1 hi).1 e (.inl hf), hg⟩

lemma triple_answer {Q : o.Response → World ι → Prop} (hG : Lasting i G) (ho : Answers o)
    (hok : ∀ w c a v, Policy S w i o c → G w → exec hashtext o i c w = some (.ok a, v) →
      G v → Q a v) :
    ETriple (machine hashtext) (rules S) i G (call o) Q (fun e w => Fine S i e ∧ G w) := by
  refine triple_op hG ?_ hok fun _ w c e v _ hx => ?_
  · rintro row rfl
    exact ho
  · obtain ⟨a, ha⟩ := exec_answers ho hx
    cases ha

lemma triple_quiet (hG : Lasting i G) (ho : Answers o) :
    ETriple (machine hashtext) (rules S) i G (call o) (fun _ => G) (fun e w => Fine S i e ∧ G w) :=
  triple_answer hG ho fun _ _ _ _ _ _ _ hg => hg

/-- An event is appended for a case that is there. -/
lemma triple_append (hG : Lasting i G) (self : AuditService) (a : AppendArgs)
    (hcase : i = S.session → ∀ w, G w → CaseThere a.caseId w) :
    ETriple (machine hashtext) (rules S) i G (self.append a) (fun _ => G)
      (fun e w => Fine S i e ∧ G w) := by
  refine triple_append_of (triple_quiet hG trivial) (triple_quiet hG trivial)
    (triple_quiet hG trivial) (fun _ => triple_quiet hG trivial) fun previous id now => ?_
  refine triple_op hG (by simp) (fun _ _ _ _ _ _ _ hg => hg) fun hi w c e v hg hx => ?_
  obtain ⟨k, hk, hid⟩ := exists_casesFor (i := i) (hcase hi w hg)
  simp only [exec] at hx
  split_ifs at hx with hmiss
  · simp only [newEvent, Option.any_some, decide_eq_true_eq] at hmiss
    exact absurd hid (hmiss k hk)
  · cases hx

/-! ### Looking for a duplicate -/

/-- The upload does not find its content. -/
lemma triple_getByHash {caseId : Uuid} {digest : String} (hG : Lasting i G)
    (hblank : ∀ w, G w → Blank i w)
    (hsubject : i = S.session → caseId = S.caseId ∧ digest = S.digest) :
    ETriple (machine hashtext) (rules S) i G (call (.getByHash caseId digest))
      (fun r w => (i = S.session → r = none) ∧ G w) (fun e w => Fine S i e ∧ G w) := by
  refine triple_answer hG trivial fun w c r v hc hg hx hgv => ⟨fun hi => ?_, hgv⟩
  obtain ⟨hr, -⟩ := Prod.mk.inj (Option.some.inj hx)
  obtain rfl := Except.ok.inj hr
  refine List.find?_eq_none.mpr fun s hs hsame => hc.2 hi trivial ?_
  have hs' := (hblank w hg).mem hs
  obtain ⟨hcase, hdigest⟩ := of_decide_eq_true hsame
  obtain ⟨rfl, rfl⟩ := hsubject hi
  exact ⟨s, hs', hcase, hdigest, hi ▸ (hblank w hg).other hs'⟩

/-- The row of an upload: it names the identifier that the upload has drawn. -/
structure Fresh (caseId E : Uuid) (digest : String) (r : Evidence) : Prop where
  key : ∃ name, r.objectKey = objectKeyOf caseId E name
  id : r.id = E
  caseId : r.caseId = caseId
  sha256 : r.sha256 = digest

lemma Fresh.names {caseId E u : Uuid} {digest : String} {r : Evidence}
    (h : Fresh caseId E digest r) (hu : Names r u) : u = E := by
  obtain ⟨name, hkey⟩ := h.key
  rcases hu with rfl | ⟨c, n, hk⟩
  · exact h.id
  · exact (objectKeyOf_inj (hk.symm.trans hkey)).2

/-- The constraints let the row in where its parent is there and no other row has its content. -/
lemma insert_ok {caseId E : Uuid} {digest : String} {row : Datetime → Evidence}
    {r : Except Exn Evidence} (hrow : Fresh caseId E digest (row c.now))
    (hready : Ready i caseId E w) (hparent : ParentThere w i (.createEvidence row) c)
    (hnew : ∀ s ∈ w.evidence, s.caseId = caseId → s.sha256 ≠ digest)
    (h : execCreateEvidence (row c.now) i w = some (r, v)) : r = .ok (row c.now) := by
  obtain ⟨hblank, hcase, howner⟩ := hready
  simp only [execCreateEvidence] at h
  split_ifs at h with hwait hbad
  · exfalso
    rcases hbad with ⟨s, hs, hclash⟩ | hno | hmiss
    · have hs' := hblank.mem hs
      obtain ⟨name, hkey⟩ := hrow.key
      rcases hclash with hid | ⟨hsame, hsha⟩ | hobject
      · exact hblank.2 s hs' E (.inl (hid.trans hrow.id)) howner
      · exact hnew s hs' (hsame.trans hrow.caseId) (hsha.trans hrow.sha256)
      · exact hblank.2 s hs' E (.inr ⟨caseId, name, hobject.trans hkey⟩) howner
    · obtain ⟨k, hk, hid⟩ := exists_casesFor (i := i) hcase
      exact hno k hk (hid.trans hrow.caseId.symm)
    · obtain ⟨p, hp, hp'⟩ := (Option.any_eq_true _ _).mp hmiss
      obtain ⟨hne, hnone⟩ := of_decide_eq_true hp'
      obtain ⟨q, hq, hqp⟩ := hparent p hp hne
      exact hnone q hq hqp
  · exact (Prod.mk.inj (Option.some.inj h)).1.symm

/-- The insert of the row, which takes what the session knows of its identifier. -/
lemma triple_createEvidence {caseId E : Uuid} {digest : String} {row : Datetime → Evidence}
    (hrow : ∀ now, Fresh caseId E digest (row now))
    (hsubject : i = S.session → caseId = S.caseId ∧ digest = S.digest) :
    ETriple (machine hashtext) (rules S) i (Ready i caseId E) (call (.createEvidence row))
      (fun _ => CaseThere caseId) (fun e w => Fine S i e ∧ CaseThere caseId w) := by
  have hdemand : ∀ w, Ready i caseId E w → Demand w i (.createEvidence row) := by
    intro w hw row' heq now u hu
    obtain rfl := Op.createEvidence.inj heq
    rw [(hrow now).names hu]
    exact hw.2.2
  refine triple_exec (lasting_ready caseId E).stable (fun w _ => hdemand w) ?_ ?_
  · intro w c r v hw hready hc hx
    have heffect := (exec_effect hx).1
    have hcase := caseThere_effect heffect hready.2.1
    refine ⟨Owned.effect hw (hdemand w hready) heffect, fun j hj => rely_effect hw heffect hj, ?_,
      fun e hf => ⟨fun hi => (hc.1 hi).1 e (.inr hf), hcase⟩⟩
    cases r with
    | ok a => exact hcase
    | error e =>
      refine ⟨fun hi => ?_, hcase⟩
      have hok := insert_ok (hrow c.now) hready (hc.1 hi).2 (fun s hs hsame hsha => ?_) hx
      · cases hok
      · obtain ⟨rfl, rfl⟩ := hsubject hi
        exact hc.2 hi trivial ⟨s, hs, hsame, hsha, hi ▸ hready.1.other hs⟩
  · intro w c e _ hready hc hf
    exact ⟨fun hi => (hc.1 hi).1 e (.inl hf), hready.2.1⟩

end WhaleMas.DuplicateRules
