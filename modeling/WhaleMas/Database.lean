import WhaleMas.AuditLog
import WhaleMas.RelyGuarantee

/-!
The database and the object storage, shared by the sessions of concurrent requests.

Every session has a transaction of its own, under READ COMMITTED: it sees the committed rows
and its own changes, and a commit makes its changes visible at once. A statement that meets
a change another session has not committed yet waits for that session. Any call can also
raise, without effect or after it.
-/

namespace WhaleMas.Database

open WhaleMas.Models WhaleMas.AuditLog WhaleMas.Program WhaleMas.RelyGuarantee

/-! ### Exceptions -/

inductive Exn
  | domain (e : DomainError)
  | integrity
  | sqlalchemy (name : String)
  | other (name : String)
  /-- `asyncio.CancelledError`, which is no `Exception`. -/
  | cancelled
  deriving DecidableEq

def Exn.isException : Exn → Bool
  | .cancelled => false
  | _ => true

def Exn.isSQLAlchemyError : Exn → Bool
  | .integrity => true
  | .sqlalchemy _ => true
  | _ => false

/-- `type(exc).__name__` -/
def Exn.typeName : Exn → String
  | .domain e => e.typeName
  | .integrity => "IntegrityError"
  | .sqlalchemy name => name
  | .other name => name
  | .cancelled => "CancelledError"

/-! ### The world -/

/-- The columns an update of a case sets, besides `updated_at`. -/
structure CaseColumns where
  name : Option String
  description : Option (Option String)
  status : Option CaseStatus
  updatedAt : Datetime

def CaseColumns.apply (u : CaseColumns) (c : Case) : Case :=
  { c with
    name := u.name.getD c.name
    description := u.description.getD c.description
    status := u.status.getD c.status
    updatedAt := u.updatedAt }

/-- What a session has done since its last commit. -/
structure Txn where
  cases : List Case := []
  updates : List (Uuid × CaseColumns) := []
  evidence : List Evidence := []
  deleted : List Uuid := []
  events : List AuditEvent := []
  locks : List ℤ := []

structure StoredObject where
  data : List UInt8
  contentType : String

/-- Who has an identifier: nobody yet, something older than the run, or a session. -/
inductive Owner (ι : Type)
  | fresh
  | old
  | drawn (i : ι)
  deriving DecidableEq

structure World (ι : Type) where
  cases : List Case
  evidence : List Evidence
  /-- The committed events, in the order they were committed. -/
  audit : List AuditEvent
  /-- All events that were inserted, in that order, committed or not. -/
  appended : List AuditEvent
  objects : String → Option StoredObject
  sequence : ℕ
  txn : ι → Txn
  owner : Uuid → Owner ι

/-- No rows, no objects, and every identifier still to be drawn. -/
def World.empty {ι : Type} : World ι where
  cases := []
  evidence := []
  audit := []
  appended := []
  objects := fun _ => none
  sequence := 0
  txn := fun _ => {}
  owner := fun _ => .fresh

def updateCase (updates : List (Uuid × CaseColumns)) (c : Case) : Case :=
  updates.foldl (fun c u => if u.1 = c.id then u.2.apply c else c) c

/-- `ON DELETE SET NULL` -/
def orphan (deleted : List Uuid) (r : Evidence) : Evidence :=
  { r with parentEvidenceId := r.parentEvidenceId.filter fun p => p ∉ deleted }

/-- Session `i` draws an identifier. -/
@[simps cases evidence audit appended objects sequence txn]
def World.draw {ι : Type} (w : World ι) (i : ι) (u : Uuid) : World ι :=
  { w with owner := Function.update w.owner u (.drawn i) }

section World

variable {ι : Type} [DecidableEq ι]

@[simps cases evidence audit appended objects sequence owner]
def World.setTxn (w : World ι) (i : ι) (t : Txn) : World ι :=
  { w with txn := Function.update w.txn i t }

@[simps cases evidence audit appended sequence txn owner]
def World.setObject (w : World ι) (objectKey : String) (o : Option StoredObject) : World ι :=
  { w with objects := Function.update w.objects objectKey o }

/-- Session `i` inserts an event. -/
@[simps cases evidence audit appended objects sequence owner]
def World.insertEvent (w : World ι) (i : ι) (e : AuditEvent) : World ι :=
  { w.setTxn i { w.txn i with events := (w.txn i).events ++ [e] } with
    appended := w.appended ++ [e] }

/-- The changes of session `i` become committed, and its locks are released. -/
@[simps cases evidence audit appended objects sequence owner]
def World.commit (w : World ι) (i : ι) : World ι :=
  { w with
    cases := (w.cases ++ (w.txn i).cases).map (updateCase (w.txn i).updates)
    evidence := ((w.evidence ++ (w.txn i).evidence).filter
      fun r => r.id ∉ (w.txn i).deleted).map (orphan (w.txn i).deleted)
    audit := w.audit ++ (w.txn i).events
    txn := Function.update w.txn i {} }

def World.casesFor (w : World ι) (i : ι) : List Case :=
  (w.cases ++ (w.txn i).cases).map (updateCase (w.txn i).updates)

def World.evidenceFor (w : World ι) (i : ι) : List Evidence :=
  (w.evidence ++ (w.txn i).evidence).filter fun r => r.id ∉ (w.txn i).deleted

def World.auditFor (w : World ι) (i : ι) : List AuditEvent := w.audit ++ (w.txn i).events

variable {w : World ι} {i j : ι} {t : Txn}

@[simp] lemma setTxn_txn : (w.setTxn i t).txn i = t := Function.update_self ..

lemma setTxn_txn_of_ne (h : j ≠ i) : (w.setTxn i t).txn j = w.txn j := Function.update_of_ne h ..

@[simp] lemma insertEvent_txn {e : AuditEvent} :
    (w.insertEvent i e).txn i = { w.txn i with events := (w.txn i).events ++ [e] } := by
  simp [World.insertEvent]

lemma insertEvent_txn_of_ne {e : AuditEvent} (h : j ≠ i) :
    (w.insertEvent i e).txn j = w.txn j := by
  simp [World.insertEvent, setTxn_txn_of_ne h]

@[simp] lemma commit_txn : (w.commit i).txn i = {} := Function.update_self ..

lemma commit_txn_of_ne (h : j ≠ i) : (w.commit i).txn j = w.txn j := Function.update_of_ne h ..

variable {v : World ι} {P : ι → Txn → Prop} {R : Txn → Txn → Prop}

lemma txn_eq_update (h : ∀ j, j ≠ i → v.txn j = w.txn j) :
    v.txn = Function.update w.txn i (v.txn i) := Function.eq_update_iff.mpr ⟨rfl, h⟩

/-- One session has a new transaction: what holds of it, and of those of the others, holds of
all. -/
lemma forall_txn (hv : v.txn = Function.update w.txn i t) (hi : P i t)
    (h : ∀ j, j ≠ i → P j (w.txn j)) : ∀ j, P j (v.txn j) := by
  rw [hv]
  exact (Function.forall_update_iff w.txn P).mpr ⟨hi, h⟩

/-- What the new transaction has in common with the old one is the same for all sessions. -/
lemma txn_congr {α : Type} (g : Txn → α) (hv : v.txn = Function.update w.txn i t)
    (hi : g t = g (w.txn i)) (j : ι) : g (v.txn j) = g (w.txn j) :=
  forall_txn (P := fun j t => g t = g (w.txn j)) hv hi (fun _ _ => rfl) j

/-- What holds of any two sessions, and of the new transaction with each other one, still holds
of any two. -/
lemma pairwise_txn (hv : v.txn = Function.update w.txn i t)
    (hi : ∀ j, j ≠ i → R t (w.txn j) ∧ R (w.txn j) t)
    (h : ∀ j k, k ≠ j → R (w.txn j) (w.txn k)) : ∀ j k, k ≠ j → R (v.txn j) (v.txn k) := by
  intro j k hk
  rw [hv]
  by_cases hj : j = i
  · subst hj
    rw [Function.update_self, Function.update_of_ne hk]
    exact (hi k hk).1
  · rw [Function.update_of_ne hj]
    by_cases hki : k = i
    · subst hki
      rw [Function.update_self]
      exact (hi j hj).2
    · rw [Function.update_of_ne hki]
      exact h j k hk

end World

/-! ### Operations -/

/-- Calls that touch neither the database nor the storage. -/
inductive LocalCall
  | openTemp
  | readUpload
  | writeTemp (chunk : List UInt8)
  | closeTemp
  | hashFile
  | closeUpload
  | unlinkTemp

/-- The body of a case update: the keys that were set, with their values. -/
structure CaseUpdate where
  name : Option (Option String)
  description : Option (Option String)
  status : Option (Option CaseStatus)
  validName : ∀ s, name = some (some s) → 1 ≤ s.length ∧ s.length ≤ 255

/-- A column is set when its new value differs from the loaded one. -/
def changed {α : Type} [DecidableEq α] (old : α) (new : Option α) : Option α :=
  new.filter fun a => a ≠ old

/-- The columns a flush sets, and `none` if it would set a column to null that may not be. -/
def CaseUpdate.columns (u : CaseUpdate) (c : Case) (now : Datetime) : Option CaseColumns :=
  if u.name = some none ∨ u.status = some none then none
  else some {
    name := changed c.name (u.name.bind fun n => n)
    description := changed c.description u.description
    status := changed c.status (u.status.bind fun s => s)
    updatedAt := now }

def CaseColumns.isEmpty (u : CaseColumns) : Bool :=
  u.name.isNone && u.description.isNone && u.status.isNone

/-- The calls a request makes. A row to be inserted is given but for the time, which the
database sets. -/
inductive Op
  | getCase (caseId : Uuid)
  | nextSequenceValue
  | createCase (row : Datetime → Case)
  | flushCase (case : Case) (changes : CaseUpdate)
  | refreshCase (caseId : Uuid)
  | lockCaseChain (caseId : Uuid)
  | latest (caseId : Uuid)
  | appendEvent (event : AuditEvent)
  | getEvidence (caseId evidenceId : Uuid)
  | getByHash (caseId : Uuid) (sha256 : String)
  | createEvidence (row : Datetime → Evidence)
  | deleteEvidence (evidenceId : Uuid)
  | commit
  | rollback
  | close
  | putObject (objectKey : String) (data : List UInt8) (contentType : String)
  | deleteObject (objectKey : String)
  | uuid4
  | now
  | localCall (c : LocalCall)

@[reducible] def Op.Response : Op → Type
  | .getCase _ => Option Case
  | .nextSequenceValue => ℕ
  | .createCase _ => Case
  | .refreshCase _ => Case
  | .latest _ => Option AuditEvent
  | .appendEvent _ => AuditEvent
  | .getEvidence _ _ => Option Evidence
  | .getByHash _ _ => Option Evidence
  | .createEvidence _ => Evidence
  | .uuid4 => Uuid
  | .now => Datetime
  | _ => Unit

abbrev Answer (o : Op) : Type := Except Exn o.Response

/-- What a call does besides what the program asks: it may raise, without effect or after
it, and it draws identifiers and reads clocks. -/
inductive Fault
  | none
  | before (e : Exn)
  | after (e : Exn)
  deriving DecidableEq

structure Choice where
  fault : Fault
  uuid : Uuid
  now : Datetime

/-- Two rows that a unique constraint keeps apart. -/
def Clash (r s : Evidence) : Prop :=
  r.id = s.id ∨ (r.caseId = s.caseId ∧ r.sha256 = s.sha256) ∨ r.objectKey = s.objectKey

instance (r s : Evidence) : Decidable (Clash r s) := by unfold Clash; infer_instance

section Exec

variable {ι : Type} [DecidableEq ι] [Fintype ι] (hashtext : String → ℤ)

/-- The insert of a case waits for others that insert its number, and fails on a committed
one. -/
def execCreateCase (row : Case) (i : ι) (w : World ι) : Option (Except Exn Case × World ι) :=
  if ∃ c ∈ w.casesFor i, c.id = row.id ∨ c.caseNo = row.caseNo then some (.error .integrity, w)
  else if ∃ j, j ≠ i ∧ ∃ c ∈ (w.txn j).cases, c.id = row.id ∨ c.caseNo = row.caseNo then none
  else some (.ok row, w.setTxn i { w.txn i with cases := (w.txn i).cases ++ [row] })

/-- The flush of a loaded case sets the columns that differ, and fails without the row. It waits
for others that update the row. -/
def execFlushCase (case : Case) (changes : CaseUpdate) (i : ι) (now : Datetime) (w : World ι) :
    Option (Except Exn Unit × World ι) :=
  match changes.columns case now with
  | none => some (.error .integrity, w)
  | some columns =>
    if columns.isEmpty then some (.ok (), w)
    else if ∃ j, j ≠ i ∧ ∃ u ∈ (w.txn j).updates, u.1 = case.id then none
    else if ∀ c ∈ w.casesFor i, c.id ≠ case.id then some (.error (.sqlalchemy "StaleDataError"), w)
    else some (.ok (), w.setTxn i { w.txn i with
      updates := (w.txn i).updates ++ [(case.id, columns)] })

/-- What a flush does: it fails on a null and without the row, changes nothing where no column
differs, and else adds the columns to the transaction, with no other session updating the
row. -/
lemma execFlushCase_cases {case : Case} {changes : CaseUpdate} {i : ι} {now : Datetime}
    {w v : World ι} {r : Except Exn Unit}
    (h : execFlushCase case changes i now w = some (r, v)) :
    changes.columns case now = none ∧ r = .error .integrity ∧ v = w ∨
    ∃ columns, changes.columns case now = some columns ∧
      (columns.isEmpty = true ∧ r = .ok () ∧ v = w ∨
        (∀ c ∈ w.casesFor i, c.id ≠ case.id) ∧
          r = .error (.sqlalchemy "StaleDataError") ∧ v = w ∨
        (∀ j, j ≠ i → ∀ u ∈ (w.txn j).updates, u.1 ≠ case.id) ∧ r = .ok () ∧
          v = w.setTxn i { w.txn i with
            updates := (w.txn i).updates ++ [(case.id, columns)] }) := by
  unfold execFlushCase at h
  cases hcol : changes.columns case now with
  | none =>
    simp only [hcol] at h
    obtain ⟨rfl, rfl⟩ := Prod.mk.inj (Option.some.inj h)
    exact .inl ⟨rfl, rfl, rfl⟩
  | some columns =>
    simp only [hcol] at h
    refine .inr ⟨columns, rfl, ?_⟩
    split_ifs at h with hempty hwait hmissing <;>
      obtain ⟨rfl, rfl⟩ := Prod.mk.inj (Option.some.inj h)
    · exact .inl ⟨hempty, rfl, rfl⟩
    · exact .inr (.inl ⟨hmissing, rfl, rfl⟩)
    · exact .inr (.inr ⟨fun j hj u hu hid => hwait ⟨j, hj, u, hu, hid⟩, rfl, rfl⟩)

/-- The refresh of a case reads its row again. -/
def execRefreshCase (caseId : Uuid) (i : ι) (w : World ι) : Option (Except Exn Case × World ι) :=
  match (w.casesFor i).find? (·.id = caseId) with
  | some row => some (.ok row, w)
  | none => some (.error (.sqlalchemy "InvalidRequestError"), w)

omit [DecidableEq ι] [Fintype ι] in
/-- What a refresh does: it answers the row, and fails without it. -/
lemma execRefreshCase_cases {caseId : Uuid} {i : ι} {w v : World ι} {r : Except Exn Case}
    (h : execRefreshCase caseId i w = some (r, v)) : v = w ∧
      ((∃ row, (w.casesFor i).find? (·.id = caseId) = some row ∧ r = .ok row) ∨
        (∀ c ∈ w.casesFor i, c.id ≠ caseId) ∧
          r = .error (.sqlalchemy "InvalidRequestError")) := by
  unfold execRefreshCase at h
  cases hrow : (w.casesFor i).find? (·.id = caseId) with
  | none =>
    rw [hrow] at h
    obtain ⟨rfl, rfl⟩ := Prod.mk.inj (Option.some.inj h)
    exact ⟨rfl, .inr ⟨by simpa using hrow, rfl⟩⟩
  | some row =>
    rw [hrow] at h
    obtain ⟨rfl, rfl⟩ := Prod.mk.inj (Option.some.inj h)
    exact ⟨rfl, .inl ⟨row, rfl, rfl⟩⟩

/-- The insert of an evidence row fails on a committed row it clashes with, or when its case
or its parent is missing, and waits for rows that others are inserting or deleting. The check
of the parent comes after the insert, and finds the row itself too. -/
def execCreateEvidence (row : Evidence) (i : ι) (w : World ι) :
    Option (Except Exn Evidence × World ι) :=
  let waits := ∃ j, j ≠ i ∧ ((∃ r ∈ (w.txn j).evidence, Clash r row) ∨
    (∃ r ∈ w.evidence, r.id ∈ (w.txn j).deleted ∧ Clash r row) ∨
    row.parentEvidenceId.any fun p => p ∈ (w.txn j).deleted)
  if waits then none
  else if (∃ r ∈ w.evidenceFor i, Clash r row) ∨ (∀ c ∈ w.casesFor i, c.id ≠ row.caseId) ∨
      (row.parentEvidenceId.any fun p => p ≠ row.id ∧ ∀ r ∈ w.evidenceFor i, r.id ≠ p) then
    some (.error .integrity, w)
  else some (.ok row, w.setTxn i { w.txn i with evidence := (w.txn i).evidence ++ [row] })

/-- The delete of a row waits for others that delete it or insert a child of it. Without the
row it does nothing. -/
def execDeleteEvidence (evidenceId : Uuid) (i : ι) (w : World ι) :
    Option (Except Exn Unit × World ι) :=
  if ∃ j, j ≠ i ∧ (evidenceId ∈ (w.txn j).deleted ∨
      ∃ r ∈ (w.txn j).evidence, r.parentEvidenceId = some evidenceId) then none
  else if ∃ r ∈ w.evidenceFor i, r.id = evidenceId then
    some (.ok (), w.setTxn i { w.txn i with deleted := (w.txn i).deleted ++ [evidenceId] })
  else some (.ok (), w)

/-- What a call of session `i` answers and does when it does not raise by itself; `none`
while it has to wait. -/
def exec : (o : Op) → ι → Choice → World ι → Option (Answer o × World ι)
  | .getCase caseId, i, _, w => some (.ok ((w.casesFor i).find? (·.id = caseId)), w)
  | .nextSequenceValue, _, _, w =>
    some (.ok (w.sequence + 1), { w with sequence := w.sequence + 1 })
  | .createCase row, i, c, w => execCreateCase (row c.now) i w
  | .flushCase case changes, i, c, w => execFlushCase case changes i c.now w
  | .refreshCase caseId, i, _, w => execRefreshCase caseId i w
  | .lockCaseChain caseId, i, _, w =>
    let k := hashtext caseId.str
    if ∃ j, j ≠ i ∧ k ∈ (w.txn j).locks then none
    else some (.ok (), w.setTxn i { w.txn i with locks := k :: (w.txn i).locks })
  | .latest caseId, i, _, w => some (.ok (AuditLog.latest caseId (w.auditFor i)), w)
  | .appendEvent event, i, _, w =>
    if event.caseId.any fun caseId => ∀ c ∈ w.casesFor i, c.id ≠ caseId then
      some (.error .integrity, w)
    else some (.ok event, w.insertEvent i event)
  | .getEvidence caseId evidenceId, i, _, w =>
    some (.ok ((w.evidenceFor i).find? fun r => r.id = evidenceId ∧ r.caseId = caseId), w)
  | .getByHash caseId sha256, i, _, w =>
    some (.ok ((w.evidenceFor i).find? fun r => r.caseId = caseId ∧ r.sha256 = sha256), w)
  | .createEvidence row, i, c, w => execCreateEvidence (row c.now) i w
  | .deleteEvidence evidenceId, i, _, w => execDeleteEvidence evidenceId i w
  | .commit, i, _, w => some (.ok (), w.commit i)
  | .rollback, i, _, w => some (.ok (), w.setTxn i {})
  | .close, i, _, w => some (.ok (), w.setTxn i {})
  | .putObject objectKey data contentType, _, _, w =>
    some (.ok (), w.setObject objectKey (some ⟨data, contentType⟩))
  | .deleteObject objectKey, _, _, w =>
    some (.ok (), w.setObject objectKey none)
  | .uuid4, i, c, w =>
    if w.owner c.uuid = .fresh then some (.ok c.uuid, w.draw i c.uuid) else none
  | .now, _, c, w => some (.ok c.now, w)
  | .localCall _, _, _, w => some (.ok (), w)

/-- A call raises by itself or as its choice says. Closing a session always succeeds: a
broken connection is dropped, and its transaction with it. -/
def perform : (o : Op) → ι → Choice → World ι → Option (Answer o × World ι)
  | .close, i, c, w => exec hashtext .close i c w
  | o, i, c, w =>
    match c.fault with
    | .none => exec hashtext o i c w
    | .before e => some (.error e, w)
    | .after e => (exec hashtext o i c w).map fun p => (.error e, p.2)

def machine : Machine ι (World ι) Choice Op Answer := ⟨perform hashtext⟩

lemma perform_cases {o : Op} {i : ι} {c : Choice} {w v : World ι} {r : Answer o}
    (h : perform hashtext o i c w = some (r, v)) :
    exec hashtext o i c w = some (r, v) ∧ (c.fault = .none ∨ o = .close) ∨
    (∃ e, c.fault = .before e ∧ r = .error e ∧ v = w) ∨
    ∃ e r', c.fault = .after e ∧ r = .error e ∧ exec hashtext o i c w = some (r', v) := by
  by_cases ho : o = .close
  · subst ho
    exact .inl ⟨h, .inr rfl⟩
  · cases hf : c.fault with
    | none =>
      refine .inl ⟨?_, .inl rfl⟩
      cases o <;> first | exact absurd rfl ho | simpa only [perform, hf] using h
    | before e =>
      have he : some (.error e, w) = some (r, v) := by
        cases o <;> first | exact absurd rfl ho | simpa only [perform, hf] using h
      obtain ⟨rfl, rfl⟩ := Prod.mk.inj (Option.some.inj he)
      exact .inr (.inl ⟨e, rfl, rfl, rfl⟩)
    | after e =>
      have he : (exec hashtext o i c w).map (fun p => ((.error e : Answer o), p.2)) =
          some (r, v) := by
        cases o <;> first | exact absurd rfl ho | simpa only [perform, hf] using h
      obtain ⟨⟨r', v'⟩, hx, hp⟩ := Option.map_eq_some_iff.mp he
      obtain ⟨rfl, rfl⟩ := Prod.mk.inj hp
      exact .inr (.inr ⟨e, r', rfl, rfl, hx⟩)

/-! ### What calls do -/

/-- What a call of session `i` does to the world when it need not wait. -/
inductive Effect (i : ι) (c : Choice) (w : World ι) : Op → World ι → Prop
  | nothing (o : Op) : Effect i c w o w
  | nextSequenceValue : Effect i c w .nextSequenceValue { w with sequence := w.sequence + 1 }
  | createCase (row : Datetime → Case) : Effect i c w (.createCase row)
      (w.setTxn i { w.txn i with cases := (w.txn i).cases ++ [row c.now] })
  | flushCase (case : Case) (changes : CaseUpdate) (columns : CaseColumns) :
      Effect i c w (.flushCase case changes)
        (w.setTxn i { w.txn i with updates := (w.txn i).updates ++ [(case.id, columns)] })
  | lockCaseChain (caseId : Uuid) (k : ℤ) : Effect i c w (.lockCaseChain caseId)
      (w.setTxn i { w.txn i with locks := k :: (w.txn i).locks })
  | appendEvent (event : AuditEvent) : Effect i c w (.appendEvent event) (w.insertEvent i event)
  | createEvidence (row : Datetime → Evidence)
      (hparent : ∀ p, (row c.now).parentEvidenceId = some p → p ≠ (row c.now).id →
        ∃ q ∈ w.evidenceFor i, q.id = p)
      (hfree : ∀ p, (row c.now).parentEvidenceId = some p → ∀ j, j ≠ i → p ∉ (w.txn j).deleted) :
      Effect i c w (.createEvidence row)
        (w.setTxn i { w.txn i with evidence := (w.txn i).evidence ++ [row c.now] })
  | deleteEvidence (evidenceId : Uuid)
      (hfree : ∀ j, j ≠ i → ∀ q ∈ (w.txn j).evidence, q.parentEvidenceId ≠ some evidenceId) :
      Effect i c w (.deleteEvidence evidenceId)
        (w.setTxn i { w.txn i with deleted := (w.txn i).deleted ++ [evidenceId] })
  | commit : Effect i c w .commit (w.commit i)
  | rollback : Effect i c w .rollback (w.setTxn i {})
  | close : Effect i c w .close (w.setTxn i {})
  | putObject (objectKey : String) (data : List UInt8) (contentType : String) :
      Effect i c w (.putObject objectKey data contentType)
        (w.setObject objectKey (some ⟨data, contentType⟩))
  | deleteObject (objectKey : String) :
      Effect i c w (.deleteObject objectKey) (w.setObject objectKey none)
  | uuid4 (hfresh : w.owner c.uuid = .fresh) : Effect i c w .uuid4 (w.draw i c.uuid)

omit [Fintype ι] in
/-- A call leaves the transactions of the other sessions as they are. -/
lemma Effect.others {o : Op} {i j : ι} {c : Choice} {w v : World ι} (h : Effect i c w o v)
    (hj : j ≠ i) : v.txn j = w.txn j := by
  cases h with
  | nothing | nextSequenceValue | putObject | deleteObject | uuid4 => rfl
  | appendEvent event => exact insertEvent_txn_of_ne hj
  | commit => exact commit_txn_of_ne hj
  | _ => exact setTxn_txn_of_ne hj

variable {hashtext}

/-- A call has its effect, and what it raises by itself is an `Exception`. -/
lemma exec_effect {o : Op} {i : ι} {c : Choice} {w v : World ι} {r : Answer o}
    (h : exec hashtext o i c w = some (r, v)) :
    Effect i c w o v ∧ ∀ e, r = .error e → e.isException = true := by
  have hintegrity : ∀ e, (.error .integrity : Answer o) = .error e → e.isException = true := by
    intro e he
    rw [← Except.error.inj he]
    rfl
  have hsqlalchemy : ∀ s e, (.error (.sqlalchemy s) : Answer o) = .error e →
      e.isException = true := by
    intro s e he
    rw [← Except.error.inj he]
    rfl
  have hok : ∀ (a : o.Response) (e), (.ok a : Answer o) = .error e → e.isException = true :=
    fun _ _ he => by cases he
  cases o with
  | createCase row =>
    simp only [exec, execCreateCase] at h
    split_ifs at h <;> obtain ⟨rfl, rfl⟩ := Prod.mk.inj (Option.some.inj h)
    · exact ⟨.nothing _, hintegrity⟩
    · exact ⟨.createCase row, hok _⟩
  | flushCase case changes =>
    obtain ⟨-, rfl, rfl⟩ | ⟨columns, -, ⟨-, rfl, rfl⟩ | ⟨-, rfl, rfl⟩ | ⟨-, rfl, rfl⟩⟩ :=
      execFlushCase_cases h
    · exact ⟨.nothing _, hintegrity⟩
    · exact ⟨.nothing _, hok _⟩
    · exact ⟨.nothing _, hsqlalchemy _⟩
    · exact ⟨.flushCase case changes columns, hok _⟩
  | refreshCase caseId =>
    obtain ⟨rfl, ⟨row, -, rfl⟩ | ⟨-, rfl⟩⟩ := execRefreshCase_cases h
    · exact ⟨.nothing _, hok _⟩
    · exact ⟨.nothing _, hsqlalchemy _⟩
  | createEvidence row =>
    simp only [exec, execCreateEvidence] at h
    split_ifs at h with hwait hbad <;> obtain ⟨rfl, rfl⟩ := Prod.mk.inj (Option.some.inj h)
    · exact ⟨.nothing _, hintegrity⟩
    · push Not at hwait hbad
      refine ⟨.createEvidence row (fun p hp hne => ?_) (fun p hp j hj => ?_), hok _⟩
      · simpa [hp, hne] using hbad.2.2
      · simpa [hp] using (hwait j hj).2.2
  | deleteEvidence evidenceId =>
    simp only [exec, execDeleteEvidence] at h
    split_ifs at h with hwait <;> obtain ⟨rfl, rfl⟩ := Prod.mk.inj (Option.some.inj h)
    · push Not at hwait
      exact ⟨.deleteEvidence evidenceId fun j hj => (hwait j hj).2, hok _⟩
    · exact ⟨.nothing _, hok _⟩
  | lockCaseChain caseId =>
    simp only [exec] at h
    split_ifs at h
    obtain ⟨rfl, rfl⟩ := Prod.mk.inj (Option.some.inj h)
    exact ⟨.lockCaseChain caseId _, hok _⟩
  | appendEvent event =>
    simp only [exec] at h
    split_ifs at h <;> obtain ⟨rfl, rfl⟩ := Prod.mk.inj (Option.some.inj h)
    · exact ⟨.nothing _, hintegrity⟩
    · exact ⟨.appendEvent event, hok _⟩
  | uuid4 =>
    simp only [exec] at h
    split_ifs at h with hfresh
    obtain ⟨rfl, rfl⟩ := Prod.mk.inj (Option.some.inj h)
    exact ⟨.uuid4 hfresh, hok _⟩
  | nextSequenceValue =>
    obtain ⟨rfl, rfl⟩ := Prod.mk.inj (Option.some.inj h)
    exact ⟨.nextSequenceValue, hok _⟩
  | commit =>
    obtain ⟨rfl, rfl⟩ := Prod.mk.inj (Option.some.inj h)
    exact ⟨.commit, hok _⟩
  | rollback =>
    obtain ⟨rfl, rfl⟩ := Prod.mk.inj (Option.some.inj h)
    exact ⟨.rollback, hok _⟩
  | close =>
    obtain ⟨rfl, rfl⟩ := Prod.mk.inj (Option.some.inj h)
    exact ⟨.close, hok _⟩
  | putObject objectKey data contentType =>
    obtain ⟨rfl, rfl⟩ := Prod.mk.inj (Option.some.inj h)
    exact ⟨.putObject objectKey data contentType, hok _⟩
  | deleteObject objectKey =>
    obtain ⟨rfl, rfl⟩ := Prod.mk.inj (Option.some.inj h)
    exact ⟨.deleteObject objectKey, hok _⟩
  | getCase | latest | getEvidence | getByHash | now | localCall =>
    obtain ⟨rfl, rfl⟩ := Prod.mk.inj (Option.some.inj h)
    exact ⟨.nothing _, hok _⟩

/-- A call has its effect, whether it raises or not. -/
lemma perform_effect {o : Op} {i : ι} {c : Choice} {w v : World ι} {r : Answer o}
    (h : perform hashtext o i c w = some (r, v)) : Effect i c w o v := by
  obtain ⟨hx, -⟩ | ⟨e, -, -, rfl⟩ | ⟨e, r', -, -, hx⟩ := perform_cases hashtext h
  · exact (exec_effect hx).1
  · exact .nothing o
  · exact (exec_effect hx).1

omit [Fintype ι] in
/-- A call may draw an identifier that nobody has. -/
lemma Effect.owner {o : Op} {i : ι} {c : Choice} {w v : World ι} (h : Effect i c w o v)
    (u : Uuid) : v.owner u = w.owner u ∨ w.owner u = .fresh ∧ v.owner u = .drawn i := by
  cases h with
  | uuid4 hfresh =>
    by_cases hu : u = c.uuid
    · subst hu
      exact .inr ⟨hfresh, by simp [World.draw]⟩
    · exact .inl (by simp [World.draw, hu])
  | _ => exact .inl rfl

end Exec

/-! ### Programs of requests -/

/-- Programs that call the database and the storage, and may raise. -/
abbrev M := ExceptT Exn (Prog Op Answer)

def call (o : Op) : M o.Response := ExceptT.mk (Prog.call o)

def raise {α : Type} (e : DomainError) : M α := throw (.domain e)

/-- `try: p finally: q` -/
def withFinally {α : Type} (p : M α) (q : M Unit) : M α :=
  ExceptT.mk do
    let r ← p.run
    match ← q.run with
    | .ok _ => return r
    | .error e => return .error e

/-- A request has a session of its own, which is closed in the end. -/
def withSession {α : Type} (p : M α) : Prog Op Answer (Except Exn α) := do
  let r ← p.run
  let _ ← Prog.call .close
  return r

/-! ### Rules for calls -/

section Rules

variable {ι : Type} [DecidableEq ι] [Fintype ι] {hashtext : String → ℤ}
  {R : Rules ι (World ι) Choice Op} {i : ι} {P : World ι → Prop}

/-- A call that may raise in `E`, without effect or after it. -/
lemma triple_exec {o : Op} {Q : o.Response → World ι → Prop} {E : Exn → World ι → Prop}
    (hstable : Stable R i P) (hdemand : ∀ w, R.inv w → P w → R.demand w i o)
    (hexec : ∀ w c r v, R.inv w → P w → R.policy w i o c → exec hashtext o i c w = some (r, v) →
      R.inv v ∧ (∀ j, j ≠ i → R.rely j w v) ∧ orElse Q E r v ∧
        ∀ e, c.fault = .after e → E e v)
    (hfault : ∀ w c e, R.inv w → P w → R.policy w i o c → c.fault = .before e → E e w) :
    ETriple (machine hashtext) R i P (call o) Q E := by
  refine triple_call hstable hdemand fun w c r v hw hP hc hp => ?_
  obtain ⟨hx, -⟩ | ⟨e, hf, rfl, rfl⟩ | ⟨e, r', hf, rfl, hx⟩ := perform_cases hashtext hp
  · obtain ⟨hv, hrely, hQ, -⟩ := hexec w c r v hw hP hc hx
    exact ⟨hv, hrely, hQ⟩
  · exact ⟨hw, fun j _ => R.refl j _, hfault _ c e hw hP hc hf⟩
  · obtain ⟨hv, hrely, -, hE⟩ := hexec w c r' v hw hP hc hx
    exact ⟨hv, hrely, hE e hf⟩

/-- A call that changes nothing. -/
lemma triple_read {o : Op} {Q : o.Response → World ι → Prop} {E : Exn → World ι → Prop}
    (hstable : Stable R i P) (hdemand : ∀ w, R.inv w → P w → R.demand w i o)
    (hexec : ∀ w c r v, R.inv w → P w → exec hashtext o i c w = some (r, v) →
      v = w ∧ orElse Q E r w)
    (hfault : ∀ w c e, R.inv w → P w → R.policy w i o c → c.fault ≠ .none → E e w) :
    ETriple (machine hashtext) R i P (call o) Q E := by
  refine triple_exec hstable hdemand (fun w c r v hw hP hc hx => ?_) fun w c e hw hP hc hf => ?_
  · obtain ⟨rfl, hQ⟩ := hexec w c r v hw hP hx
    exact ⟨hw, fun j _ => R.refl j _, hQ, fun e hf => hfault _ c e hw hP hc (by simp [hf])⟩
  · exact hfault w c e hw hP hc (by simp [hf])

/-- Closing the session in the end. -/
lemma triple_withSession {α : Type} {p : M α} {Q : Except Exn α → World ι → Prop}
    {Q' : Except Exn α → World ι → Prop} (hp : Triple (machine hashtext) R i P p.run Q)
    (hstable : ∀ r, Stable R i (Q r)) (hdemand : ∀ w, R.demand w i .close)
    (hclose : ∀ r w, R.inv w → Q r w → R.inv (w.setTxn i {}) ∧
      (∀ j, j ≠ i → R.rely j w (w.setTxn i {})) ∧ Q' r (w.setTxn i {})) :
    Triple (machine hashtext) R i P (withSession p) Q' := by
  refine triple_bind hp fun r => ?_
  refine triple_bind (Q := fun _ => Q' r) (triple_call (hstable r) (fun w _ _ => hdemand w) ?_)
    fun _ => triple_ret fun _ _ h => h
  rintro w c a v hw hQ - hx
  obtain ⟨-, rfl⟩ := Prod.mk.inj (Option.some.inj hx)
  exact hclose r w hw hQ

end Rules

/-! ### Numbered sessions -/

-- the literals of two and three sessions rest on these instances
instance neZero_two : NeZero 2 := ⟨two_ne_zero⟩
instance neZero_three : NeZero 3 := ⟨three_ne_zero⟩

end WhaleMas.Database
