import WhaleMas.AuditOrder
import WhaleMas.Services

/-!
Transactions that append to the audit logs of cases, running concurrently. The advisory lock
of a case keeps others from appending to it until the transaction ends, so each event is
linked to the greatest one there is, and the log of every case grows as in a sequential run.
-/

namespace WhaleMas.ConcurrentAppend

open WhaleMas.Models WhaleMas.HashChain WhaleMas.AuditLog WhaleMas.AuditOrder
open WhaleMas.Program WhaleMas.RelyGuarantee WhaleMas.Database WhaleMas.Services

/-! ### Transactions -/

def appendAll (self : AuditService) : List AppendArgs → M Unit
  | [] => pure ()
  | a :: appends => do
    let _ ← self.append a
    appendAll self appends

/-- Some appends with the chain enabled, and a commit or a rollback. -/
structure Transaction where
  appends : List AppendArgs
  commits : Bool

def Transaction.program (t : Transaction) : Prog Op Answer (Except Exn Unit) :=
  withSession do
    appendAll ⟨true⟩ t.appends
    if t.commits then call .commit else call .rollback

section Chain

variable {ι : Type} (hashtext : String → ℤ)

/-! ### The invariant -/

/-- The events of every case in a log were linked one by one, in the order in which they were
appended. -/
structure Grows (appended l : List AuditEvent) : Prop where
  grown : ∀ caseId, Grown chain key (ofCase caseId l)
  sublist : ∀ caseId, (ofCase caseId l).Sublist (ofCase caseId appended)

structure Inv (w : World ι) : Prop where
  exclusive : ∀ i j, i ≠ j → ∀ k ∈ (w.txn i).locks, k ∉ (w.txn j).locks
  locked : ∀ i, ∀ e ∈ (w.txn i).events, ∀ caseId ∈ e.caseId,
    hashtext caseId.str ∈ (w.txn i).locks
  committed : Grows w.appended w.audit
  pending : ∀ i, Grows w.appended (w.auditFor i)
  nodup : (w.appended.map AuditEvent.id).Nodup
  issued : ∀ e ∈ w.appended, w.owner e.id ≠ .fresh

/-- What a session relies on: the others leave its transaction alone, append nothing to the
cases it has locked, and draw other identifiers. -/
structure Rely (i : ι) (w v : World ι) : Prop where
  txn : v.txn i = w.txn i
  frozen : ∀ caseId : Uuid, hashtext caseId.str ∈ (w.txn i).locks →
    ofCase caseId v.audit = ofCase caseId w.audit
  owner : ∀ u, w.owner u = .drawn i → v.owner u = .drawn i
  unused : ∀ u, w.owner u = .drawn i → (∀ e ∈ w.appended, e.id ≠ u) → ∀ e ∈ v.appended, e.id ≠ u

def rules : Rules ι (World ι) Choice Op where
  inv := Inv hashtext
  rely := Rely hashtext
  demand := fun _ _ _ => True
  policy := fun _ _ _ _ => True
  refl := fun _ _ => ⟨rfl, fun _ _ => rfl, fun _ h => h, fun _ _ h => h⟩
  trans := fun i u v w h h' => by
    refine ⟨h'.txn.trans h.txn, fun c hc => ?_, fun x hx => h'.owner x (h.owner x hx),
      fun x hx hu => h'.unused x (h.owner x hx) (h.unused x hx hu)⟩
    rw [h'.frozen c (h.txn ▸ hc), h.frozen c hc]

variable {hashtext} {i : ι} {w : World ι}

/-- No event has been appended yet, and no session has begun. -/
structure Untouched (w : World ι) : Prop where
  audit : w.audit = []
  appended : w.appended = []
  txn : ∀ i, w.txn i = {}

lemma Untouched.inv (h : Untouched w) : Inv hashtext w where
  exclusive := fun i j _ k hk => by simp [h.txn] at hk
  locked := fun i e he => by simp [h.txn] at he
  committed := ⟨fun _ => by simp [h.audit, ofCase, grown_nil], by simp [h.audit, ofCase]⟩
  pending := fun i => by
    constructor <;> simp [World.auditFor, h.audit, h.txn, ofCase, grown_nil]
  nodup := by simp [h.appended]
  issued := by simp [h.appended]

/-! ### What the steps of a session keep -/

lemma ofCase_appended (caseId : Uuid) (l m : List AuditEvent) :
    ofCase caseId (l ++ m) = ofCase caseId l ++ ofCase caseId m := List.filter_append ..

lemma ofCase_eq_nil {caseId : Uuid} {l : List AuditEvent} :
    ofCase caseId l = [] ↔ ∀ e ∈ l, e.caseId ≠ some caseId := by
  simp [ofCase]

/-- Without the lock of a case a session has no events of it. -/
lemma Inv.ofCase_events (h : Inv hashtext w) {caseId : Uuid}
    (hk : hashtext caseId.str ∉ (w.txn i).locks) : ofCase caseId (w.txn i).events = [] :=
  ofCase_eq_nil.mpr fun e he hc => hk (h.locked i e he caseId hc)

/-- Two sessions never have events of the same case. -/
lemma Inv.ofCase_disjoint (h : Inv hashtext w) {j : ι} (hij : i ≠ j) (caseId : Uuid) :
    ofCase caseId (w.txn i).events = [] ∨ ofCase caseId (w.txn j).events = [] := by
  by_cases hk : hashtext caseId.str ∈ (w.txn i).locks
  · exact .inr (h.ofCase_events (h.exclusive i j hij _ hk))
  · exact .inl (h.ofCase_events hk)

lemma Inv.draw {u : Uuid} (h : Inv hashtext w) (hu : w.owner u = .fresh) :
    Inv hashtext (w.draw i u) where
  exclusive := h.exclusive
  locked := h.locked
  committed := h.committed
  pending := h.pending
  nodup := h.nodup
  issued := fun e he => by
    have hne : e.id ≠ u := by
      rintro rfl
      exact h.issued e he hu
    simp only [World.draw, Function.update_of_ne hne]
    exact h.issued e he

lemma rely_draw {u : Uuid} {j : ι} (hu : w.owner u = .fresh) :
    Rely hashtext j w (w.draw i u) where
  txn := rfl
  frozen := fun _ _ => rfl
  owner := fun x hx => by
    have hne : x ≠ u := by
      rintro rfl
      rw [hu] at hx
      cases hx
    simpa only [World.draw, Function.update_of_ne hne]
  unused := fun _ _ h => h

/-! ### What an append knows -/

variable (hashtext) in
def Locked (i : ι) (caseId : Uuid) (w : World ι) : Prop := hashtext caseId.str ∈ (w.txn i).locks

variable (hashtext) in
/-- The lock is held, and `previous` is the latest event of the case. -/
def Latest (i : ι) (caseId : Uuid) (previous : Option AuditEvent) (w : World ι) : Prop :=
  Locked hashtext i caseId w ∧ previous = latest caseId (w.auditFor i)

/-- The session has drawn `u`, and no event has it. -/
def Unused (i : ι) (u : Uuid) (w : World ι) : Prop :=
  w.owner u = .drawn i ∧ ∀ e ∈ w.appended, e.id ≠ u

lemma stable_locked {caseId : Uuid} :
    Stable (rules hashtext) i (Locked hashtext i caseId) := by
  rintro u v h - hr -
  unfold Locked
  rw [Rely.txn hr]
  exact h

lemma stable_latest {caseId : Uuid} {previous : Option AuditEvent} :
    Stable (rules hashtext) i (Latest hashtext i caseId previous) := by
  rintro u v ⟨hl, rfl⟩ hu hr hv
  refine ⟨stable_locked u v hl hu hr hv, ?_⟩
  unfold latest World.auditFor
  rw [ofCase_appended, ofCase_appended, Rely.txn hr, Rely.frozen hr caseId hl]

lemma stable_unused {u : Uuid} : Stable (rules hashtext) i (Unused (ι := ι) i u) := by
  rintro w v ⟨ho, hn⟩ - hr -
  exact ⟨Rely.owner hr u ho, Rely.unused hr u ho hn⟩

/-- Two sessions hold no lock both. -/
def Apart (t u : Txn) : Prop := ∀ k ∈ t.locks, k ∉ u.locks

lemma apart_empty (t : Txn) : Apart {} t ∧ Apart t {} :=
  ⟨by simp [Apart], by simp [Apart]⟩

lemma Inv.apart (h : Inv hashtext w) (j k : ι) (hk : k ≠ j) : Apart (w.txn j) (w.txn k) :=
  h.exclusive j k (Ne.symm hk)

variable [DecidableEq ι]

/-- A session changes its transaction: it may take free locks and forget events. -/
lemma Inv.setTxn {t : Txn} (h : Inv hashtext w)
    (hl : ∀ k ∈ t.locks, ∀ j, j ≠ i → k ∉ (w.txn j).locks)
    (hlocked : ∀ e ∈ t.events, ∀ caseId ∈ e.caseId, hashtext caseId.str ∈ t.locks)
    (hg : Grows w.appended (w.audit ++ t.events)) : Inv hashtext (w.setTxn i t) where
  exclusive := fun a b hab => pairwise_txn (R := Apart) rfl
    (fun j hj => ⟨fun k hk => hl k hk j hj, fun k hk hk' => hl k hk' j hj hk⟩) h.apart a b hab.symm
  locked := forall_txn (P := fun _ t => ∀ e ∈ t.events, ∀ caseId ∈ e.caseId,
    hashtext caseId.str ∈ t.locks) rfl hlocked fun j _ => h.locked j
  committed := h.committed
  pending := forall_txn (P := fun _ t => Grows w.appended (w.audit ++ t.events)) rfl hg
    fun j _ => h.pending j
  nodup := h.nodup
  issued := h.issued

lemma rely_setTxn {j : ι} {t : Txn} (hj : j ≠ i) : Rely hashtext j w (w.setTxn i t) where
  txn := setTxn_txn_of_ne hj
  frozen := fun _ _ => rfl
  owner := fun _ h => h
  unused := fun _ _ h => h

lemma Inv.clear (h : Inv hashtext w) : Inv hashtext (w.setTxn i {}) :=
  h.setTxn (by simp) (by simp) (by simpa using h.committed)

lemma Inv.lock {k : ℤ} (h : Inv hashtext w) (hk : ∀ j, j ≠ i → k ∉ (w.txn j).locks) :
    Inv hashtext (w.setTxn i { w.txn i with locks := k :: (w.txn i).locks }) := by
  refine h.setTxn (fun k' hk' j hj => ?_) (fun e he c hc => ?_) (h.pending i)
  · rcases List.mem_cons.mp hk' with rfl | hk'
    · exact hk j hj
    · exact h.exclusive i j hj.symm k' hk'
  · exact List.mem_cons_of_mem _ (h.locked i e he c hc)

lemma Inv.commit (h : Inv hashtext w) : Inv hashtext (w.commit i) where
  exclusive := fun a b hab => pairwise_txn (R := Apart) rfl (fun _ _ => apart_empty _) h.apart a b
    hab.symm
  locked := forall_txn (P := fun _ t => ∀ e ∈ t.events, ∀ caseId ∈ e.caseId,
    hashtext caseId.str ∈ t.locks) rfl (fun _ he => by cases he) fun j _ => h.locked j
  committed := h.pending i
  pending := by
    refine forall_txn (P := fun _ t => Grows w.appended ((w.commit i).audit ++ t.events)) rfl ?_
      fun j hj => ?_
    · rw [List.append_nil]
      exact h.pending i
    · -- of two sessions only one has events of a case
      have hsame : ∀ caseId, ofCase caseId ((w.commit i).audit ++ (w.txn j).events) =
          ofCase caseId (w.auditFor i) ∨ ofCase caseId ((w.commit i).audit ++ (w.txn j).events) =
          ofCase caseId (w.auditFor j) := by
        intro caseId
        simp only [World.auditFor, World.commit_audit, ofCase_appended]
        rcases h.ofCase_disjoint (Ne.symm hj) caseId with hn | hn
        · right; simp [hn]
        · left; simp [hn]
      constructor
      · intro caseId
        rcases hsame caseId with hs | hs <;> rw [hs]
        · exact (h.pending i).grown caseId
        · exact (h.pending j).grown caseId
      · intro caseId
        rcases hsame caseId with hs | hs <;> rw [hs]
        · exact (h.pending i).sublist caseId
        · exact (h.pending j).sublist caseId
  nodup := h.nodup
  issued := h.issued

lemma rely_commit {j : ι} (h : Inv hashtext w) (hj : j ≠ i) : Rely hashtext j w (w.commit i) where
  txn := commit_txn_of_ne hj
  frozen := fun caseId hk => by
    have hn := h.ofCase_events (h.exclusive j i hj _ hk)
    rw [World.commit_audit, ofCase_appended, hn, List.append_nil]
  owner := fun _ h => h
  unused := fun _ _ h => h

lemma Grows.insert {appended l : List AuditEvent} (h : Grows appended l) (e : AuditEvent) :
    Grows (appended ++ [e]) l where
  grown := h.grown
  sublist := fun caseId => by
    rw [ofCase_appended]
    exact (h.sublist caseId).trans (List.sublist_append_left _ _)

lemma Grows.snoc {appended l : List AuditEvent} {e : AuditEvent} (h : Grows appended l)
    (he : ∀ caseId ∈ e.caseId, Fits chain ((latest caseId l).map chain.hash) e) :
    Grows (appended ++ [e]) (l ++ [e]) where
  grown := fun caseId => by
    rw [ofCase_appended]
    by_cases hc : e.caseId = some caseId
    · have hof : ofCase caseId [e] = [e] := by simp [ofCase, hc]
      rw [hof]
      exact grown_snoc.mpr ⟨h.grown caseId, he caseId hc⟩
    · have hof : ofCase caseId [e] = [] := by simp [ofCase, hc]
      rw [hof, List.append_nil]
      exact h.grown caseId
  sublist := fun caseId => by
    rw [ofCase_appended, ofCase_appended]
    exact (h.sublist caseId).append (List.Sublist.refl _)

/-- A session that holds the lock of the case appends an event linked to the latest one. -/
lemma Inv.insert {e : AuditEvent} (h : Inv hashtext w)
    (hk : ∀ caseId ∈ e.caseId, hashtext caseId.str ∈ (w.txn i).locks)
    (he : ∀ caseId ∈ e.caseId, Fits chain ((latest caseId (w.auditFor i)).map chain.hash) e)
    (howner : w.owner e.id = .drawn i) (hunused : ∀ x ∈ w.appended, x.id ≠ e.id) :
    Inv hashtext (w.insertEvent i e) where
  exclusive := fun a b hab => by
    have hlocks := txn_congr (v := w.insertEvent i e) Txn.locks rfl rfl
    rw [hlocks, hlocks]
    exact h.exclusive a b hab
  locked := by
    refine forall_txn (P := fun _ t => ∀ e ∈ t.events, ∀ caseId ∈ e.caseId,
      hashtext caseId.str ∈ t.locks) rfl (fun x hx c hc => ?_) fun j _ => h.locked j
    rcases List.mem_append.mp hx with hx | hx
    · exact h.locked i x hx c hc
    · obtain rfl := List.mem_singleton.mp hx
      exact hk c hc
  committed := h.committed.insert e
  pending := by
    refine forall_txn (P := fun _ t => Grows (w.appended ++ [e]) (w.audit ++ t.events)) rfl ?_
      fun j _ => (h.pending j).insert e
    rw [← List.append_assoc]
    exact (h.pending i).snoc he
  nodup := by
    simp only [World.insertEvent_appended, List.map_append, List.map_cons, List.map_nil]
    refine List.nodup_append.mpr ⟨h.nodup, by simp, ?_⟩
    intro x hx y hy
    obtain ⟨d, hd, rfl⟩ := List.mem_map.mp hx
    rw [List.mem_singleton.mp hy]
    exact hunused d hd
  issued := fun x hx => by
    rcases List.mem_append.mp hx with hx | hx
    · exact h.issued x hx
    · rw [List.mem_singleton.mp hx]
      simp [howner]

lemma rely_insert {j : ι} {e : AuditEvent} (hj : j ≠ i) (howner : w.owner e.id = .drawn i) :
    Rely hashtext j w (w.insertEvent i e) where
  txn := insertEvent_txn_of_ne hj
  frozen := fun _ _ => rfl
  owner := fun _ h => h
  unused := fun u hu h x hx => by
    rcases List.mem_append.mp hx with hx | hx
    · exact h x hx
    · rw [List.mem_singleton.mp hx]
      rintro rfl
      rw [howner] at hu
      exact hj (Owner.drawn.inj hu).symm

/-! ### The programs keep the rules -/

variable [Fintype ι]

lemma triple_lockCaseChain (caseId : Uuid) :
    ETriple (machine hashtext) (rules hashtext) i (fun _ => True) (call (.lockCaseChain caseId))
      (fun _ => Locked hashtext i caseId) (fun _ _ => True) := by
  refine triple_exec stable_const (fun _ _ _ => trivial) ?_ fun _ _ _ _ _ _ _ => trivial
  rintro w c r v hw - - hx
  simp only [exec] at hx
  split_ifs at hx with hwait
  obtain ⟨rfl, rfl⟩ := Prod.mk.inj (Option.some.inj hx)
  push Not at hwait
  refine ⟨Inv.lock hw hwait, fun j hj => rely_setTxn hj, ?_, fun _ _ => trivial⟩
  simp [orElse, Locked]

lemma triple_latest (caseId : Uuid) :
    ETriple (machine hashtext) (rules hashtext) i (Locked hashtext i caseId)
      (call (.latest caseId)) (Latest hashtext i caseId) (fun _ _ => True) := by
  refine triple_read stable_locked (fun _ _ _ => trivial) ?_ fun _ _ _ _ _ _ _ => trivial
  rintro w c r v - hl hx
  obtain ⟨rfl, rfl⟩ := Prod.mk.inj (Option.some.inj hx)
  exact ⟨rfl, hl, rfl⟩

lemma triple_uuid4 {P : World ι → Prop} (hP : Stable (rules hashtext) i P)
    (hdraw : ∀ w u, P w → P (w.draw i u)) :
    ETriple (machine hashtext) (rules hashtext) i P (call .uuid4)
      (fun u w => P w ∧ Unused i u w) (fun _ _ => True) := by
  refine triple_exec hP (fun _ _ _ => trivial) ?_ fun _ _ _ _ _ _ _ => trivial
  rintro w c r v hw hPw - hx
  simp only [exec] at hx
  split_ifs at hx with hfresh
  obtain ⟨rfl, rfl⟩ := Prod.mk.inj (Option.some.inj hx)
  have hunused : ∀ e ∈ w.appended, e.id ≠ c.uuid := by
    intro e he h
    exact Inv.issued hw e he (h ▸ hfresh)
  exact ⟨Inv.draw hw hfresh, fun j _ => rely_draw hfresh,
    ⟨hdraw w _ hPw, by simp [World.draw], hunused⟩, fun _ _ => trivial⟩

lemma triple_now {P : World ι → Prop} (hP : Stable (rules hashtext) i P) :
    ETriple (machine hashtext) (rules hashtext) i P (call .now) (fun _ => P)
      (fun _ _ => True) := by
  refine triple_read hP (fun _ _ _ => trivial) ?_ fun _ _ _ _ _ _ _ => trivial
  rintro w c r v - hPw hx
  obtain ⟨rfl, rfl⟩ := Prod.mk.inj (Option.some.inj hx)
  exact ⟨rfl, hPw⟩

lemma triple_appendEvent (previous : Option AuditEvent) (a : AppendArgs) (id : Uuid)
    (now : Datetime) :
    ETriple (machine hashtext) (rules hashtext) i
      (fun w => Latest hashtext i a.caseId previous w ∧ Unused i id w)
      (call (.appendEvent (newEvent previous a id now))) (fun _ _ => True) (fun _ _ => True) := by
  refine triple_exec (stable_latest.and stable_unused) (fun _ _ _ => trivial) ?_
    fun _ _ _ _ _ _ _ => trivial
  rintro w c r v hw ⟨⟨hl, hprev⟩, howner, hunused⟩ - hx
  simp only [exec] at hx
  split_ifs at hx
  · -- the case is missing, and nothing is inserted
    obtain ⟨rfl, rfl⟩ := Prod.mk.inj (Option.some.inj hx)
    exact ⟨hw, fun j _ => (rules hashtext).refl j _, trivial, fun _ _ => trivial⟩
  · obtain ⟨rfl, rfl⟩ := Prod.mk.inj (Option.some.inj hx)
    have hk : ∀ caseId ∈ (newEvent previous a id now).caseId,
        hashtext caseId.str ∈ (w.txn i).locks := by
      rintro caseId hc
      rwa [← Option.some.inj hc]
    have hfits : ∀ caseId ∈ (newEvent previous a id now).caseId,
        Fits chain ((latest caseId (w.auditFor i)).map chain.hash)
          (newEvent previous a id now) := by
      rintro caseId hc
      rw [← Option.some.inj hc, ← hprev]
      exact fits_newEvent _ _ _ _
    exact ⟨Inv.insert hw hk hfits howner hunused, fun j hj => rely_insert hj howner, trivial,
      fun _ _ => trivial⟩

lemma triple_append (a : AppendArgs) :
    ETriple (machine hashtext) (rules hashtext) i (fun _ => True) (AuditService.append ⟨true⟩ a)
      (fun _ _ => True) (fun _ _ => True) := by
  refine etriple_bind (triple_lockCaseChain a.caseId) fun _ => ?_
  refine etriple_bind (triple_latest a.caseId) fun previous => ?_
  refine etriple_bind (triple_uuid4 stable_latest fun _ _ h => h) fun id => ?_
  refine etriple_bind (triple_now (stable_latest.and stable_unused)) fun now => ?_
  exact triple_appendEvent previous a id now

lemma triple_appendAll (appends : List AppendArgs) :
    ETriple (machine hashtext) (rules hashtext) i (fun _ => True) (appendAll ⟨true⟩ appends)
      (fun _ _ => True) (fun _ _ => True) := by
  induction appends with
  | nil => exact etriple_pure fun _ _ _ => trivial
  | cons a appends ih => exact etriple_bind (triple_append a) fun _ => ih

/-- A commit, a rollback and a close end the transaction. -/
lemma triple_end {o : Op} (ho : o = .commit ∨ o = .rollback) :
    ETriple (machine hashtext) (rules hashtext) i (fun _ => True) (call o)
      (fun _ _ => True) (fun _ _ => True) := by
  refine triple_exec stable_const (fun _ _ _ => trivial) ?_ fun _ _ _ _ _ _ _ => trivial
  rintro w c r v hw - - hx
  rcases ho with rfl | rfl
  · obtain ⟨rfl, rfl⟩ := Prod.mk.inj (Option.some.inj hx)
    exact ⟨Inv.commit hw, fun j hj => rely_commit hw hj, trivial, fun _ _ => trivial⟩
  · obtain ⟨rfl, rfl⟩ := Prod.mk.inj (Option.some.inj hx)
    exact ⟨Inv.clear hw, fun j hj => rely_setTxn hj, trivial, fun _ _ => trivial⟩

lemma triple_program (t : Transaction) :
    Triple (machine hashtext) (rules hashtext) i (fun _ => True) t.program
      (fun _ _ => True) := by
  refine triple_withSession (Q := fun _ _ => True) ?_ (fun _ => stable_const)
    (fun _ => trivial) fun _ w hw _ => ⟨Inv.clear hw, fun j hj => rely_setTxn hj, trivial⟩
  have hend : ETriple (machine hashtext) (rules hashtext) i (fun _ => True)
      (if t.commits then call .commit else call .rollback) (fun _ _ => True)
      (fun _ _ => True) := by
    split_ifs
    · exact triple_end (.inl rfl)
    · exact triple_end (.inr rfl)
  refine triple_conseq (etriple_bind (triple_appendAll t.appends) fun _ => hend)
    (fun _ _ h => h) fun _ _ _ _ => trivial

/-! ### Every run -/

/-- **The chain under concurrency.** In every state that interleaved transactions reach, only
one of them has events of a case it has not committed; every committed event is linked to the
greatest of its case committed before it; and the committed log of the case, which is in the
order of the appends, verifies when that order is increasing, and, where the hash is
injective, only then. -/
theorem concurrent_chain (transactions : ι → Transaction) {w₀ : World ι} (h₀ : Untouched w₀)
    {σ : Conf ι (World ι) Op Answer (Except Exn Unit)}
    (hσ : Reach (machine hashtext) (fun _ _ _ _ => True)
      ⟨w₀, fun i => (transactions i).program⟩ σ) (caseId : Uuid) :
    (∀ i j, i ≠ j → ofCase caseId (σ.world.txn i).events = [] ∨
      ofCase caseId (σ.world.txn j).events = []) ∧
    (∀ pre e post, σ.world.audit = pre ++ e :: post → e.caseId = some caseId →
      e.previousHash = (latest caseId pre).map AuditEvent.eventHash) ∧
    (ofCase caseId σ.world.audit).Sublist (ofCase caseId σ.world.appended) ∧
    (verify (list caseId σ.world.audit)).eventCount = (ofCase caseId σ.world.audit).length ∧
    (((ofCase caseId σ.world.audit).Pairwise fun e f => key e < key f) →
      (verify (list caseId σ.world.audit)).valid = true) ∧
    (Set.InjOn sha256Text (materials (ofCase caseId σ.world.audit)) →
      (verify (list caseId σ.world.audit)).valid = true →
      (ofCase caseId σ.world.audit).Pairwise fun e f => key e < key f) := by
  have h₀' : (rules hashtext).inv w₀ := h₀.inv
  have hinv : (rules hashtext).inv σ.world :=
    (safe_reach (Q := fun _ _ _ => True) (fun _ _ => stable_const) h₀'
      (fun i => triple_program (transactions i) w₀ h₀' trivial) hσ).1
  change Inv hashtext σ.world at hinv
  have hsub := hinv.committed.sublist caseId
  have hid : ((ofCase caseId σ.world.audit).map AuditEvent.id).Nodup :=
    hinv.nodup.sublist ((hsub.trans List.filter_sublist).map _)
  refine ⟨fun i j hij => hinv.ofCase_disjoint hij caseId, fun pre e post hl hc => ?_, hsub, ?_,
    verify_grown (hinv.committed.grown caseId) hid⟩
  · have hof : ofCase caseId σ.world.audit =
        ofCase caseId pre ++ e :: ofCase caseId post := by
      simp [hl, ofCase, hc]
    exact (hinv.committed.grown caseId _ _ _ hof).1
  · rw [verify_eventCount, list, sortByKey, List.length_mergeSort]

end Chain

section Example

def caseRow : Case where
  id := 1
  caseNo := "CASE-2026-000001"
  name := "Shipment"
  description := none
  status := .created
  createdBy := none
  createdAt := ten
  updatedAt := ten

def twoTransactions (i : Fin 2) : Transaction :=
  if i = 0 then ⟨[created], true⟩ else ⟨[updated], true⟩

/-- The second transaction gets the lock when the first has ended. -/
def lockPassedOn : List (Fin 2 × Choice) :=
  List.replicate 7 (0, ⟨.none, 5, ten⟩) ++ List.replicate 7 (1, ⟨.none, 6, eleven⟩)

def twoSessions : Conf (Fin 2) (World (Fin 2)) Op Answer (Except Exn Unit) :=
  ⟨{ World.empty with cases := [caseRow] }, fun i => (twoTransactions i).program⟩

lemma lockPassedOn_keys : (run (machine fun _ => 0) twoSessions lockPassedOn).map
    (fun σ => (ofCase 1 σ.world.audit).map key) = some [toLex (ten, 5), toLex (eleven, 6)] := by
  decide

/-- Both events are committed, and the log verifies. -/
theorem concurrent_chain_lockPassedOn :
    ∃ σ, run (machine fun _ => 0) twoSessions lockPassedOn = some σ ∧
      (ofCase 1 σ.world.audit).length = 2 ∧ (verify (list 1 σ.world.audit)).valid = true := by
  obtain ⟨σ, hσ, hkeys⟩ := Option.map_eq_some_iff.mp lockPassedOn_keys
  refine ⟨σ, hσ, by simpa using congrArg List.length hkeys, ?_⟩
  refine (concurrent_chain twoTransactions ⟨rfl, rfl, fun _ => rfl⟩
    (reach_of_run .refl (fun _ _ _ _ => trivial) hσ) 1).2.2.2.2.1 ?_
  rw [← List.pairwise_map, hkeys]
  decide

end Example

end WhaleMas.ConcurrentAppend
