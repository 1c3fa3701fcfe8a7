import WhaleMas.CaseUpdates
import WhaleMas.Columns
import WhaleMas.UploadOutcomes

/-!
A case update that runs alone, with calls that raise only what the columns demand: when it is
committed, and what it changes then.
-/

namespace WhaleMas.CasePatches

open WhaleMas.JsonText WhaleMas.Models WhaleMas.AuditLog WhaleMas.Program
open WhaleMas.RelyGuarantee WhaleMas.Alone WhaleMas.Database WhaleMas.Services
open WhaleMas.EvidenceLife WhaleMas.SessionFrame WhaleMas.SoloCalls WhaleMas.CaseUpdates
open WhaleMas.Columns WhaleMas.SessionRuns WhaleMas.ConcurrentUploads WhaleMas.UploadOutcomes

variable {ι : Type} {i : ι} {w v : World ι} {changes : CaseUpdate} {caseId : Uuid} {row : Case}

/-! ### What the columns refuse -/

/-- A flush of the loaded case writes a text that its column does not store. -/
def Refused (case : Case) (changes : CaseUpdate) (now : Datetime) : Prop :=
  ∃ u ∈ changes.columns case now, (∃ s ∈ u.name, ¬ Fits (some 255) s) ∨
    ∃ d ∈ u.description, ∃ s ∈ d, ¬ Fits none s

instance (case : Case) (changes : CaseUpdate) (now : Datetime) :
    Decidable (Refused case changes now) := by
  unfold Refused
  infer_instance

/-- A call raises what the columns demand, and nothing else. -/
def Typed (e : Call ι) : Prop :=
  match e.op with
  | .flushCase case changes =>
    (Refused case changes e.choice.now → e.choice.fault = .before (.sqlalchemy "DBAPIError")) ∧
      (¬ Refused case changes e.choice.now → e.choice.fault = .none)
  | _ => e.choice.fault = .none

instance : DecidablePred (Typed (ι := ι)) := fun ⟨o, c, w⟩ => by
  apply Op.casesOn (motive := fun o => Decidable (Typed ⟨o, c, w⟩)) o <;> intros <;>
    unfold Typed <;> infer_instance

/-- No column is set to a null or to a text that it does not store. -/
structure Writable (changes : CaseUpdate) : Prop where
  name : ∀ o, changes.name = some o → ∃ s, o = some s ∧ '\x00' ∉ s.toList
  description : ∀ s, changes.description = some (some s) → '\x00' ∉ s.toList
  status : changes.status ≠ some none

/-- The case has one row, its texts are those of columns, and no session has anything to
commit. -/
structure Existing (caseId : Uuid) (row : Case) (w : World ι) : Prop where
  mem : row ∈ w.cases
  id : row.id = caseId
  unique : ∀ c ∈ w.cases, c.id = caseId → c = row
  name : Fits (some 255) row.name
  description : ∀ s ∈ row.description, Fits none s
  txn : ∀ j, w.txn j = {}

lemma columns_eq_none {case : Case} {now : Datetime} :
    changes.columns case now = none ↔ changes.name = some none ∨ changes.status = some none := by
  unfold CaseUpdate.columns
  split_ifs with h <;> simp [h]

lemma columns_eq_some {case : Case} {now : Datetime} {u : CaseColumns}
    (h : changes.columns case now = some u) :
    u.name = changed case.name (changes.name.bind fun n => n) ∧
      u.description = changed case.description changes.description := by
  unfold CaseUpdate.columns at h
  split_ifs at h
  obtain rfl := Option.some.inj h
  exact ⟨rfl, rfl⟩

/-- What can be written is not refused. -/
lemma Writable.written (h : Writable changes) (case : Case) (now : Datetime) :
    (∃ u, changes.columns case now = some u) ∧ ¬ Refused case changes now := by
  constructor
  · refine Option.ne_none_iff_exists'.mp fun hnone => ?_
    rcases columns_eq_none.mp hnone with hn | hs
    · obtain ⟨s, hs, -⟩ := h.name none hn
      cases hs
    · exact h.status hs
  · rintro ⟨u, hu, ⟨s, hs, hfit⟩ | ⟨d, hs, s, hd, hfit⟩⟩
    · rw [(columns_eq_some hu).1] at hs
      obtain ⟨o, ho, hos⟩ := Option.bind_eq_some_iff.mp (changed_eq_some hs)
      subst hos
      obtain ⟨s', hs', hnul⟩ := h.name _ ho
      obtain rfl := Option.some.inj hs'
      refine hfit ⟨fun n hn => ?_, hnul⟩
      obtain rfl := Option.some.inj hn
      exact (changes.validName s ho).2
    · obtain rfl : d = some s := hd
      rw [(columns_eq_some hu).2] at hs
      refine hfit ⟨?_, h.description s (changed_eq_some hs)⟩
      rintro n ⟨⟩

/-- A text with a NUL is not the stored one, so it is written, and refused. -/
lemma writable_of_written {now : Datetime} (hw : Existing caseId row w)
    (hcol : ∃ u, changes.columns row now = some u) (href : ¬ Refused row changes now) :
    Writable changes := by
  obtain ⟨u, hu⟩ := hcol
  obtain ⟨hname, hdescription⟩ := columns_eq_some hu
  have hnull : ¬ (changes.name = some none ∨ changes.status = some none) := by
    intro h
    rw [columns_eq_none.mpr h] at hu
    cases hu
  refine ⟨fun o ho => ?_, fun s hs hnul => href ⟨u, hu, .inr
    ⟨some s, ?_, s, rfl, fun h => h.2 hnul⟩⟩, fun h => hnull (.inr h)⟩
  · cases o with
    | none => exact absurd (.inl ho) hnull
    | some s =>
      refine ⟨s, rfl, fun hnul => href ⟨u, hu, .inl ⟨s, ?_, fun h => h.2 hnul⟩⟩⟩
      rw [hname, ho]
      have hne : s ≠ row.name := by
        rintro rfl
        exact hw.name.2 hnul
      simp [changed, Option.filter, hne]
  · rw [hdescription, hs]
    have hne : some s ≠ row.description := by
      intro heq
      exact (hw.description s heq.symm).2 hnul
    simp [changed, Option.filter, hne]

/-! ### What an update is to do -/

/-- The fields that are set take the values that are given, and the others are kept. -/
structure Takes (changes : CaseUpdate) (old new : Case) : Prop where
  name : (changes.name.elim (some old.name) fun o => o) = some new.name
  description : changes.description.getD old.description = new.description
  status : (changes.status.elim (some old.status) fun o => o) = some new.status
  id : new.id = old.id
  caseNo : new.caseNo = old.caseNo
  createdBy : new.createdBy = old.createdBy
  createdAt : new.createdAt = old.createdAt

/-- The keys of the body that are set. -/
def IsSet (changes : CaseUpdate) (field : String) : Prop :=
  (field = "name" ∧ changes.name.isSome) ∨ (field = "description" ∧ changes.description.isSome) ∨
    (field = "status" ∧ changes.status.isSome)

/-- The update is committed: of the case's row, what the request sets is changed, and of the
log, an event is appended that lists the fields in order. -/
structure Committed (changes : CaseUpdate) (caseId : Uuid) (row : Case) (w : World ι)
    (row' : Case) (v : World ι) : Prop where
  takes : Takes changes row row'
  cases : v.cases = w.cases.map fun c => if c.id = caseId then row' else c
  evidence : v.evidence = w.evidence
  objects : v.objects = w.objects
  event : ∃ e, v.audit = w.audit ++ [e] ∧ e.eventType = .caseUpdated ∧ e.caseId = some caseId ∧
    ∃ fields : List String, fields.Pairwise (· < ·) ∧ (∀ s, s ∈ fields ↔ IsSet changes s) ∧
      e.metadataJson.members = [("changed_fields", .arr (fields.map .str))]

/-- The request returns the updated case, which is committed. -/
def Patched (changes : CaseUpdate) (caseId : Uuid) (row : Case) (w : World ι)
    (r : Except Exn Result) (v : World ι) : Prop :=
  ∃ row', r = .ok (.case row') ∧ Committed changes caseId row w row' v

lemma changedFields_sorted (changes : CaseUpdate) :
    (changedFields changes).Pairwise (· < ·) := by
  unfold changedFields
  split_ifs <;> decide

lemma mem_changedFields {s : String} : s ∈ changedFields changes ↔ IsSet changes s := by
  unfold changedFields IsSet
  split_ifs <;> simp [*] <;> tauto

lemma changed_getD {α : Type} [DecidableEq α] (old : α) (new : Option α) :
    (changed old new).getD old = new.getD old := by
  cases new with
  | none => rfl
  | some a => by_cases h : a = old <;> simp [changed, Option.filter, h]

/-- A column that may not be null takes the value that is given. -/
lemma takes_column {α : Type} [DecidableEq α] (old : α) {new : Option (Option α)}
    (h : new ≠ some none) :
    (new.elim (some old) fun o => o) = some ((changed old (new.bind fun o => o)).getD old) := by
  rw [changed_getD]
  cases new with
  | none => rfl
  | some o =>
    cases o with
    | none => exact absurd rfl h
    | some a => rfl

/-- What a flush makes of the row it has loaded. -/
lemma takes_apply {now : Datetime} {u : CaseColumns} (hu : changes.columns row now = some u) :
    Takes changes row (u.apply row) := by
  unfold CaseUpdate.columns at hu
  split_ifs at hu with hnull
  obtain rfl := Option.some.inj hu
  rw [not_or] at hnull
  exact ⟨takes_column row.name hnull.1, (changed_getD row.description changes.description).symm,
    takes_column row.status hnull.2, rfl, rfl, rfl, rfl⟩

/-- A flush that writes nothing leaves the row as the request sets it. -/
lemma written_of_isEmpty {u : CaseColumns} (h : u.isEmpty = true) (f : Field) :
    written u f = none := by
  simp only [CaseColumns.isEmpty, Bool.and_eq_true, Option.isNone_iff_eq_none] at h
  obtain ⟨⟨hname, hdescription⟩, hstatus⟩ := h
  cases f <;> assumption

lemma takes_self {now : Datetime} {u : CaseColumns} (hu : changes.columns row now = some u)
    (hempty : u.isEmpty = true) : Takes changes row row := by
  have htakes := takes_apply hu
  have hkeep : ∀ f, value (u.apply row) f = value row f := by
    intro f
    rw [value_apply, written_of_isEmpty hempty]
    rfl
  exact ⟨htakes.name.trans (congrArg some (hkeep .name)),
    htakes.description.trans (hkeep .description),
    htakes.status.trans (congrArg some (hkeep .status)), rfl, rfl, rfl, rfl⟩

/-! ### Calls -/

variable [DecidableEq ι] [Fintype ι] {hashtext : String → ℤ} {T : Txn} {o : Op}

/-- What is committed is that of `w`, and the session has done `T`. -/
def Known (i : ι) (w : World ι) (T : Txn) : Past ι → Prop := Here i T fun x => Hidden w x.1

/-- A call that is no flush does what it does without a fault. -/
lemma exec_of_typed {c : Choice} {u : World ι} {r : Answer o}
    (ho : ∀ case changes, o ≠ .flushCase case changes) (hok : Typed ⟨o, c, w⟩)
    (hp : perform hashtext o i c w = some (r, u)) : exec hashtext o i c w = some (r, u) := by
  have hfault : c.fault = .none := by
    cases o with
    | flushCase case changes => exact absurd rfl (ho case changes)
    | _ => exact hok
  obtain ⟨hx, -⟩ | ⟨e, hf, -⟩ | ⟨e, _, hf, -⟩ := perform_cases hashtext hp
  · exact hx
  · rw [hfault] at hf
    cases hf
  · rw [hfault] at hf
    cases hf

/-- The rule for calls that are no flush. -/
lemma triple_typed {P : Past ι → Prop} {Q : o.Response → Past ι → Prop}
    {E : Exn → Past ι → Prop} (ho : ∀ case changes, o ≠ .flushCase case changes)
    (hexec : ∀ w s c r v, P (w, s) → exec hashtext o i c w = some (r, v) →
      orElse Q E r (v, s ++ [⟨o, c, w⟩])) :
    ETriple (recorded (machine hashtext)) (alone Typed i) i P (call o) Q E :=
  triple_solo fun w s c r v hP hok hp => hexec w s c r v hP (exec_of_typed ho hok hp)

lemma exec_looks {c : Choice} {u : World ι} {r : Answer o} (ho : Looks o)
    (h : exec hashtext o i c w = some (r, u)) : ∃ a, r = .ok a := by
  cases o with
  | lockCaseChain | uuid4 =>
    simp only [exec] at h
    split_ifs at h
    exact ⟨_, (Prod.mk.inj (Option.some.inj h)).1.symm⟩
  | getCase | latest | getEvidence | getByHash | now | localCall =>
    exact ⟨_, (Prod.mk.inj (Option.some.inj h)).1.symm⟩
  | _ => exact ho.elim

/-- A call that only looks. -/
lemma triple_look {E : Exn → Past ι → Prop} (ho : Looks o) :
    ETriple (recorded (machine hashtext)) (alone Typed i) i (Known i w T) (call o)
      (fun _ => Known i w T) E := by
  refine triple_typed (fun case changes h => ?_) fun u s c r v hu hx => ?_
  · subst h
    exact ho
  · obtain ⟨a, rfl⟩ := exec_looks ho hx
    exact ⟨(core_looks ho hx).trans hu.1, hu.2.trans (hidden_effect ho.idle (exec_effect hx).1)⟩

omit [DecidableEq ι] [Fintype ι] in
lemma casesFor_of_known (us : List (Uuid × CaseColumns)) (es : List AuditEvent) {x : Past ι}
    (h : Known i w { updates := us, events := es } x) :
    x.1.casesFor i = w.cases.map (updateCase us) := by
  have hcases : (x.1.txn i).cases = [] := congrArg Txn.cases h.1
  have hupdates : (x.1.txn i).updates = us := congrArg Txn.updates h.1
  rw [World.casesFor, hcases, hupdates, List.append_nil, h.2.cases]

omit [DecidableEq ι] [Fintype ι] in
/-- The row of the case is found, as the updates have it. -/
lemma find_updated (hw : Existing caseId row w) (us : List (Uuid × CaseColumns)) :
    (w.cases.map (updateCase us)).find? (fun c => c.id = caseId) = some (updateCase us row) := by
  have hid : (updateCase us row).id = caseId := (updateCase_keeps us row).1.trans hw.id
  have hmem : updateCase us row ∈ w.cases.map (updateCase us) := List.mem_map_of_mem hw.mem
  cases hf : (w.cases.map (updateCase us)).find? (fun c => c.id = caseId) with
  | none =>
    have hnone := List.find?_eq_none.mp hf _ hmem
    simp [hid] at hnone
  | some c =>
    obtain ⟨c', hc', rfl⟩ := List.mem_map.mp (List.mem_of_find?_eq_some hf)
    have hcid : (updateCase us c').id = caseId := by simpa using List.find?_some hf
    rw [hw.unique c' hc' ((updateCase_keeps us c').1.symm.trans hcid)]

lemma triple_getCase (hw : Existing caseId row w) {E : Exn → Past ι → Prop} :
    ETriple (recorded (machine hashtext)) (alone Typed i) i (Known i w {})
      (call (.getCase caseId)) (fun r x => r = some row ∧ Known i w {} x) E := by
  refine triple_typed (fun _ _ h => by cases h) fun u s c r v hu hx => ?_
  obtain ⟨rfl, rfl⟩ := Prod.mk.inj (Option.some.inj hx)
  refine ⟨?_, hu⟩
  rw [casesFor_of_known [] [] hu]
  exact find_updated hw []

/-- What a flush adds to the transaction, and the row that the refresh answers then. -/
structure Flushed (changes : CaseUpdate) (caseId : Uuid) (row : Case)
    (us : List (Uuid × CaseColumns)) (row' : Case) : Prop where
  updates : us = [] ∨ ∃ u, us = [(caseId, u)]
  row_eq : row' = updateCase us row
  takes : Takes changes row row'

lemma perform_flush {c : Choice} {u : World ι} {r : Answer (.flushCase row changes)}
    (hok : Typed ⟨.flushCase row changes, c, w⟩)
    (hp : perform hashtext (.flushCase row changes) i c w = some (r, u)) :
    (Refused row changes c.now ∧ ∃ e, r = .error e) ∨
      (¬ Refused row changes c.now ∧
        exec hashtext (.flushCase row changes) i c w = some (r, u)) := by
  obtain ⟨hrefused, hnot⟩ := hok
  by_cases href : Refused row changes c.now
  · have hfault : c.fault = .before (.sqlalchemy "DBAPIError") := hrefused href
    obtain ⟨-, hf | hf⟩ | ⟨e, -, hr, -⟩ | ⟨e, _, hf, -⟩ := perform_cases hashtext hp
    · rw [hfault] at hf
      cases hf
    · cases hf
    · exact .inl ⟨href, e, hr⟩
    · rw [hfault] at hf
      cases hf
  · have hfault : c.fault = .none := hnot href
    obtain ⟨hx, -⟩ | ⟨e, hf, -⟩ | ⟨e, _, hf, -⟩ := perform_cases hashtext hp
    · exact .inr ⟨href, hx⟩
    · rw [hfault] at hf
      cases hf
    · rw [hfault] at hf
      cases hf

omit [Fintype ι] in
/-- What the flush of columns adds, and the row as it is then. -/
lemma flushed_columns (hw : Existing caseId row w) {c : Choice} {x y : Past ι}
    {columns : CaseColumns} (hx : Known i w {} x) (hu : changes.columns row c.now = some columns)
    (hv : columns.isEmpty = true ∧ y.1 = x.1 ∨ y.1 = x.1.setTxn i { x.1.txn i with
      updates := (x.1.txn i).updates ++ [(row.id, columns)] }) :
    ∃ us, Flushed changes caseId row us (updateCase us row) ∧ Known i w { updates := us } y := by
  obtain ⟨hcore, hhidden⟩ := hx
  rcases hv with ⟨hempty, hy⟩ | hy
  · refine ⟨[], ⟨.inl rfl, rfl, takes_self hu hempty⟩, ?_, ?_⟩
    · rw [hy]
      exact hcore
    · change Hidden w y.1
      rw [hy]
      exact hhidden
  · have happly : updateCase [(caseId, columns)] row = columns.apply row := by
      simp [updateCase, hw.id]
    refine ⟨[(caseId, columns)], ⟨.inr ⟨columns, rfl⟩, rfl, happly ▸ takes_apply hu⟩, ?_, ?_⟩
    · have hupdates : (x.1.txn i).updates = [] := congrArg Txn.updates hcore
      rw [hy, setTxn_txn, ← hw.id, hupdates]
      exact congrArg (fun T : Txn => { T with updates := [(row.id, columns)] }) hcore
    · change Hidden w y.1
      rw [hy]
      exact hhidden.trans hidden_setTxn

/-- The flush goes through exactly for what can be written. -/
lemma triple_flush (hw : Existing caseId row w) :
    ETriple (recorded (machine hashtext)) (alone Typed i) i (Known i w {})
      (call (.flushCase row changes))
      (fun _ x => Writable changes ∧ ∃ us, Flushed changes caseId row us (updateCase us row) ∧
        Known i w { updates := us } x)
      (fun _ _ => ¬ Writable changes) := by
  refine triple_solo fun u s c r v hu hok hp => ?_
  rcases perform_flush hok hp with ⟨href, e, rfl⟩ | ⟨href, hx⟩
  · exact fun h => (h.written row c.now).2 href
  obtain ⟨hnone, rfl, -⟩ | ⟨columns, hcol, hflush⟩ := execFlushCase_cases hx
  · intro h
    obtain ⟨u', hu'⟩ := (h.written row c.now).1
    rw [hnone] at hu'
    cases hu'
  have hwritable := writable_of_written hw ⟨columns, hcol⟩ href
  have hadds := flushed_columns (y := (v, s ++ [⟨.flushCase row changes, c, u⟩])) hw hu hcol
  obtain ⟨hempty, rfl, hv⟩ | ⟨hmissing, -, -⟩ | ⟨-, rfl, hv⟩ := hflush
  · exact ⟨hwritable, hadds (.inl ⟨hempty, hv⟩)⟩
  · have hfind := find_updated hw []
    rw [← casesFor_of_known [] [] hu] at hfind
    exact absurd hw.id.symm (hw.id ▸ hmissing _ (List.mem_of_find?_eq_some hfind))
  · exact ⟨hwritable, hadds (.inr hv)⟩

lemma triple_refresh (hw : Existing caseId row w) (us : List (Uuid × CaseColumns))
    {E : Exn → Past ι → Prop} :
    ETriple (recorded (machine hashtext)) (alone Typed i) i (Known i w { updates := us })
      (call (.refreshCase row.id))
      (fun row' x => row' = updateCase us row ∧ Known i w { updates := us } x) E := by
  refine triple_typed (fun _ _ h => by cases h) fun u s c r v hu hx => ?_
  have hfind := find_updated hw us
  rw [← casesFor_of_known us [] hu, ← hw.id] at hfind
  obtain ⟨rfl, ⟨row', hrow', rfl⟩ | ⟨hmissing, -⟩⟩ := execRefreshCase_cases hx
  · rw [hfind] at hrow'
    exact ⟨(Option.some.inj hrow').symm, hu⟩
  · exact absurd (updateCase_keeps us row).1 (hmissing _ (List.mem_of_find?_eq_some hfind))

lemma triple_flushCase (hw : Existing caseId row w) :
    ETriple (recorded (machine hashtext)) (alone Typed i) i (Known i w {})
      (flushCase row changes)
      (fun row' x => Writable changes ∧
        ∃ us, Flushed changes caseId row us row' ∧ Known i w { updates := us } x)
      (fun _ _ => ¬ Writable changes) := by
  refine etriple_bind (triple_flush hw) fun (_ : Unit) => ?_
  refine triple_and fun hwritable => ?_
  refine triple_exists fun us => ?_
  refine triple_and fun hus => ?_
  refine etriple_conseq (triple_refresh hw us) (fun _ _ h => h) ?_ fun _ _ _ h => h
  rintro row' x - ⟨rfl, hx⟩
  exact ⟨hwritable, us, hus, hx⟩

/-- The event of an update. -/
def updateEvent (caseId : Uuid) (changes : CaseUpdate) : AppendArgs where
  caseId := caseId
  eventType := .caseUpdated
  resourceType := "case"
  operation := "update"
  resourceId := some caseId.str
  actorId := none
  inputHash := none
  outputHash := none
  metadata := some (changedFieldsMetadata changes)

lemma triple_append (hw : Existing caseId row w) {E : Exn → Past ι → Prop} (self : AuditService)
    (a : AppendArgs) (hcase : a.caseId = caseId) {us : List (Uuid × CaseColumns)} :
    ETriple (recorded (machine hashtext)) (alone Typed i) i (Known i w { updates := us })
      (self.append a)
      (fun e x => (∃ previous id now, e = newEvent previous a id now) ∧
        Known i w { updates := us, events := [e] } x) E := by
  refine triple_append_of (triple_look trivial) (triple_look trivial) (triple_look trivial)
    (fun _ => triple_look trivial) fun previous id now => ?_
  refine triple_typed (fun _ _ h => by cases h) fun u s c r v hu hx => ?_
  have hmem : updateCase us row ∈ u.casesFor i := by
    rw [casesFor_of_known us [] hu]
    exact List.mem_map_of_mem hw.mem
  have hthere : ¬ (newEvent previous a id now).caseId.any fun k =>
      ∀ c ∈ u.casesFor i, c.id ≠ k := by
    have hid : (updateCase us row).id = a.caseId :=
      (updateCase_keeps us row).1.trans (hw.id.trans hcase.symm)
    simpa [newEvent] using ⟨_, hmem, hid⟩
  simp only [exec, if_neg hthere] at hx
  obtain ⟨rfl, rfl⟩ := Prod.mk.inj (Option.some.inj hx)
  refine ⟨⟨previous, id, now, rfl⟩, ?_, hu.2.trans ⟨rfl, rfl, rfl, rfl, fun _ h => h⟩⟩
  have hevents : (u.txn i).events = [] := congrArg Txn.events hu.1
  rw [insertEvent_txn, hevents]
  exact congrArg (fun T : Txn => { T with events := [newEvent previous a id now] }) hu.1

omit [Fintype ι] in
/-- The commit of the flushed row and its event. -/
lemma committed_commit (hw : Existing caseId row w) {us : List (Uuid × CaseColumns)} {row' : Case}
    (hus : Flushed changes caseId row us row') {e : AuditEvent} {previous : Option AuditEvent}
    {id : Uuid} {now : Datetime} (he : e = newEvent previous (updateEvent caseId changes) id now)
    {x : Past ι} (hx : Known i w { updates := us, events := [e] } x) :
    Committed changes caseId row w row' (x.1.commit i) := by
  obtain ⟨hcore, hhidden⟩ := hx
  have hcases : (x.1.txn i).cases = [] := congrArg Txn.cases hcore
  have hupdates : (x.1.txn i).updates = us := congrArg Txn.updates hcore
  have hrows : (x.1.txn i).evidence = [] := congrArg Txn.evidence hcore
  have hdeleted : (x.1.txn i).deleted = [] := congrArg Txn.deleted hcore
  have hevents : (x.1.txn i).events = [e] := congrArg Txn.events hcore
  have hrow : ∀ c ∈ w.cases, updateCase us c = if c.id = caseId then row' else c := by
    intro c hc
    by_cases hid : c.id = caseId
    · rw [if_pos hid, hw.unique c hc hid, hus.row_eq]
    · rw [if_neg hid]
      rcases hus.updates with rfl | ⟨u, rfl⟩
      · rfl
      · simp [updateCase, Ne.symm hid]
  refine ⟨hus.takes, ?_, ?_, hhidden.objects, e, ?_, ?_, ?_, changedFields changes,
    changedFields_sorted changes, fun s => mem_changedFields, ?_⟩
  · rw [World.commit_cases, hcases, hupdates, List.append_nil, hhidden.cases]
    exact List.map_congr_left hrow
  · simp [hrows, hdeleted, orphan_nil, hhidden.evidence]
  · rw [World.commit_audit, hevents, hhidden.audit]
  · rw [he]
    rfl
  · rw [he]
    rfl
  · rw [he]
    rfl

/-! ### The request -/

lemma triple_updateCase (hw : Existing caseId row w) (self : CaseService) :
    ETriple (recorded (machine hashtext)) (alone Typed i) i (Known i w {})
      (self.updateCase caseId changes)
      (fun row' x => Writable changes ∧ Committed changes caseId row w row' x.1)
      (fun _ _ => ¬ Writable changes) := by
  have hget : ETriple (recorded (machine hashtext)) (alone Typed i) i (Known i w {})
      (self.getCase caseId) (fun c x => c = row ∧ Known i w {} x)
      (fun _ _ => ¬ Writable changes) := by
    refine etriple_bind (triple_getCase hw) fun r => ?_
    refine triple_and ?_
    rintro rfl
    exact etriple_pure fun _ _ h => ⟨rfl, h⟩
  refine etriple_bind hget fun case => ?_
  refine triple_and ?_
  rintro rfl
  refine etriple_bind (triple_flushCase hw) fun (row' : Case) => ?_
  refine triple_and fun hwritable => ?_
  refine triple_exists fun us => ?_
  refine triple_and fun hus => ?_
  have hid : row'.id = caseId := hus.takes.id.trans hw.id
  rw [hid]
  refine etriple_bind (triple_append hw self.auditService (updateEvent caseId changes) rfl)
    fun e => ?_
  refine triple_and ?_
  rintro ⟨previous, id, now, he⟩
  refine etriple_bind (Q := fun _ x => Committed changes caseId case w row' x.1)
    (triple_typed (fun _ _ h => by cases h) fun u s c r v hu hx => ?_) fun _ => ?_
  · obtain ⟨rfl, rfl⟩ := Prod.mk.inj (Option.some.inj hx)
    exact committed_commit hw hus he hu
  · exact etriple_pure fun _ _ h => ⟨hwritable, h⟩

/-- How the request ends. -/
def Ended (changes : CaseUpdate) (caseId : Uuid) (row : Case) (w : World ι)
    (r : Except Exn Result) (x : Past ι) : Prop :=
  Patched changes caseId row w r x.1 ↔ Writable changes

omit [Fintype ι] in
lemma patched_setTxn {r : Except Exn Result} {t : Txn} :
    Patched changes caseId row w r (v.setTxn i t) ↔ Patched changes caseId row w r v := by
  constructor
  · rintro ⟨row', hr, h⟩
    exact ⟨row', hr, h.takes, h.cases, h.evidence, h.objects, h.event⟩
  · rintro ⟨row', hr, h⟩
    exact ⟨row', hr, h.takes, h.cases, h.evidence, h.objects, h.event⟩

lemma triple_handle (hw : Existing caseId row w) (app : App) :
    Triple (recorded (machine hashtext)) (alone Typed i) i (Known i w {})
      (app.handle (.updateCase caseId changes)) (Ended changes caseId row w) := by
  refine triple_session (Q := Ended changes caseId row w) (triple_conseq (etriple_map
    (H := fun r x => Ended changes caseId row w (.ok r) x) (triple_updateCase hw app.caseService)
    fun row' x _ h => ?_) (fun _ _ h => h) fun r x _ h => ?_) fun r u s c h => ?_
  · exact ⟨fun _ => h.1, fun _ => ⟨row', rfl, h.2⟩⟩
  · cases r with
    | ok r => exact h
    | error e =>
      refine ⟨?_, fun hwritable => absurd hwritable h⟩
      rintro ⟨row', hr, -⟩
      cases hr
  · exact patched_setTxn.trans h

/-- **An admitted update succeeds, and changes only what it names**, exactly when it sets no
column to null that may not be and no text has a NUL. A request that runs alone always ends. -/
theorem patched_iff (hashtext : String → ℤ) (app : App) (hw : Existing caseId row w) :
    (∀ cs, DrawsFresh hashtext i (app.handle (.updateCase caseId changes)) w cs → ∃ t r v,
      Chosen cs t ∧ Ends (machine hashtext) i (app.handle (.updateCase caseId changes)) w t r v) ∧
    ∀ t r v, Ends (machine hashtext) i (app.handle (.updateCase caseId changes)) w t r v →
      (∀ e ∈ t, Typed e) → (Patched changes caseId row w r v ↔ Writable changes) := by
  constructor
  · exact fun cs hcs => solo_ends (fun j _ => hw.txn j) hcs
  · intro t r v hends hok
    have hknown : Known i w {} (w, []) := by
      refine ⟨?_, .refl w⟩
      rw [hw.txn i]
      rfl
    exact ends_post (triple_handle hw app) hends hok hknown

section Example

lemma existing_oneCase : Existing 2 shipmentRow oneCase where
  mem := List.mem_singleton.mpr rfl
  id := rfl
  unique := fun c hc _ => List.mem_singleton.mp hc
  name := by decide
  description := by simp [shipmentRow]
  txn := fun _ => rfl

/-- What a request that runs alone returns, and whether its calls raise what the columns
demand. -/
def patch (changes : CaseUpdate) (cs : List Choice) : Option (Bool × Bool) :=
  (follow (machine fun _ => 0) (0 : Fin 2) (textApp.handle (.updateCase 2 changes)) oneCase cs).map
    fun q => (q.1.all fun e => decide (Typed e), isError q.2.1)

lemma ends_of_patch {changes : CaseUpdate} {cs : List Choice} {failed : Bool}
    (h : patch changes cs = some (true, failed)) : ∃ t r v, isError r = failed ∧
      Ends (machine fun _ => 0) (0 : Fin 2) (textApp.handle (.updateCase 2 changes)) oneCase t r v ∧
      ∀ e ∈ t, Typed e := by
  obtain ⟨⟨t, r, v⟩, hfollow, heq⟩ := Option.map_eq_some_iff.mp h
  obtain ⟨htyped, hfailed⟩ := Prod.mk.inj heq
  refine ⟨t, r, v, hfailed, ends_of_follow hfollow, fun e he => ?_⟩
  exact of_decide_eq_true (List.all_eq_true.mp htyped e he)

/-- The name is changed, and the description and the status are not named. -/
def rename : CaseUpdate := renames 1

lemma rename_ends : patch rename (choices 100 10) = some (true, false) := by
  decide

theorem patched_iff_rename : ∃ t r v, Ends (machine fun _ => 0) (0 : Fin 2)
    (textApp.handle (.updateCase 2 rename)) oneCase t r v ∧
    Patched rename 2 shipmentRow oneCase r v := by
  obtain ⟨t, r, v, -, hends, htyped⟩ := ends_of_patch rename_ends
  have hwritable : Writable rename := by
    refine ⟨fun o ho => ?_, ?_, ?_⟩
    · obtain rfl := Option.some.inj ho
      exact ⟨"Cargo", rfl, by decide⟩
    · rintro s ⟨⟩
    · rintro ⟨⟩
  exact ⟨t, r, v, hends, ((patched_iff _ textApp existing_oneCase).2 t r v hends htyped).mpr
    hwritable⟩

/-- The name is set to null, as the schema admits. -/
def nullName : CaseUpdate := ⟨some none, none, none, by simp⟩

lemma nullName_ends : patch nullName (choices 100 3) = some (true, true) := by
  decide

/-- The flush raises an `IntegrityError`, as the column may not be null. -/
theorem nullName_not_patched : ∃ t r v, Ends (machine fun _ => 0) (0 : Fin 2)
    (textApp.handle (.updateCase 2 nullName)) oneCase t r v ∧ (∀ e ∈ t, Typed e) ∧
    ¬ Patched nullName 2 shipmentRow oneCase r v := by
  obtain ⟨t, r, v, hfailed, hends, htyped⟩ := ends_of_patch nullName_ends
  refine ⟨t, r, v, hends, htyped, ?_⟩
  rintro ⟨row', rfl, -⟩
  cases hfailed

end Example

end WhaleMas.CasePatches
