import WhaleMas.ConcurrentUploads

/-!
Concurrent updates of a case. A flush writes only the fields whose values differ from the loaded
ones, and nothing keeps the loaded values from becoming stale: a field that a request sets to the
value it has loaded is not written, whatever others have committed meanwhile. Where what is not
written is still so, the row is what the log says.
-/

namespace WhaleMas.CaseUpdates

open WhaleMas.Models WhaleMas.AuditLog WhaleMas.Program WhaleMas.RelyGuarantee WhaleMas.Database
open WhaleMas.Services WhaleMas.EvidenceLife WhaleMas.SessionFrame WhaleMas.SessionRuns
open WhaleMas.ConcurrentUploads

/-! ### Fields -/

/-- The fields of a case that an update can set. -/
inductive Field
  | name | description | status
  deriving DecidableEq

instance : Fintype Field := ⟨{.name, .description, .status}, fun f => by cases f <;> simp⟩

@[reducible] def Field.Value : Field → Type
  | .name => String
  | .description => Option String
  | .status => CaseStatus

instance : (f : Field) → DecidableEq f.Value
  | .name => inferInstanceAs (DecidableEq String)
  | .description => inferInstanceAs (DecidableEq (Option String))
  | .status => inferInstanceAs (DecidableEq CaseStatus)

def value (c : Case) : (f : Field) → f.Value
  | .name => c.name
  | .description => c.description
  | .status => c.status

/-- The value that a request sets the field to. -/
def requested (changes : CaseUpdate) : (f : Field) → Option f.Value
  | .name => changes.name.bind fun n => n
  | .description => changes.description
  | .status => changes.status.bind fun s => s

/-- The value that a flush writes to the field. -/
def written (u : CaseColumns) : (f : Field) → Option f.Value
  | .name => u.name
  | .description => u.description
  | .status => u.status

lemma value_apply (u : CaseColumns) (c : Case) (f : Field) :
    value (u.apply c) f = (written u f).getD (value c f) := by
  cases f <;> rfl

/-- A flush writes what the request sets to another value than the loaded one. -/
lemma written_columns {changes : CaseUpdate} {case : Case} {now : Datetime} {u : CaseColumns}
    (h : changes.columns case now = some u) (f : Field) :
    written u f = changed (value case f) (requested changes f) := by
  unfold CaseUpdate.columns at h
  split_ifs at h
  obtain rfl := Option.some.inj h
  cases f <;> rfl

lemma changed_eq_some {α : Type} [DecidableEq α] {old v : α} {new : Option α}
    (h : changed old new = some v) : new = some v := (Option.filter_eq_some_iff.mp h).1

/-! ### The setting -/

/-- Who updates which case how, what its row is at first, and the lock of its log. -/
structure Setting (ι : Type) where
  caseId : Uuid
  requests : ι → CaseUpdate
  first : Case
  lock : ℤ

variable {ι : Type} {S : Setting ι} {i : ι} {w v : World ι} {t : Txn} {c : Case} {f : Field}
  {e : AuditEvent} {l : List AuditEvent}

/-- The event is of an update of the case, and its identifier was drawn by session `i`. -/
structure OfUpdate (S : Setting ι) (i : ι) (e : AuditEvent) (owner : Uuid → Owner ι) : Prop where
  eventType : e.eventType = .caseUpdated
  caseId : e.caseId = some S.caseId
  owner : owner e.id = .drawn i

/-- The value that the request behind an event set the field to. -/
def setTo (S : Setting ι) (owner : Uuid → Owner ι) (f : Field) (e : AuditEvent) :
    Option f.Value :=
  if e.eventType = .caseUpdated ∧ e.caseId = some S.caseId then
    match owner e.id with
    | .drawn i => requested (S.requests i) f
    | _ => none
  else none

/-- The value that the last event whose request set the field set it to. -/
def lastSet (S : Setting ι) (owner : Uuid → Owner ι) (f : Field) (l : List AuditEvent) :
    Option f.Value :=
  (l.filterMap (setTo S owner f)).getLast?

/-- The row shows the values that the request of session `i` sets. -/
def Shows (S : Setting ι) (i : ι) (c : Case) : Prop :=
  ∀ f, ∀ v ∈ requested (S.requests i) f, value c f = v

/-- The row has what the log says. -/
def Agrees (S : Setting ι) (w : World ι) : Prop :=
  ∀ c ∈ w.cases, c.id = S.caseId →
    ∀ f, value c f = (lastSet S w.owner f w.audit).getD (value S.first f)

lemma OfUpdate.setTo {owner : Uuid → Owner ι} (h : OfUpdate S i e owner) :
    setTo S owner f e = requested (S.requests i) f := by
  rw [CaseUpdates.setTo, if_pos ⟨h.eventType, h.caseId⟩, h.owner]

lemma lastSet_snoc {owner : Uuid → Owner ι} :
    lastSet S owner f (l ++ [e]) = (setTo S owner f e).or (lastSet S owner f l) := by
  unfold lastSet
  cases h : setTo S owner f e <;> simp [List.filterMap_append, h]

lemma lastSet_congr {owner owner' : Uuid → Owner ι} (h : ∀ e ∈ l, owner' e.id = owner e.id) :
    lastSet S owner' f l = lastSet S owner f l := by
  unfold lastSet
  congr 1
  refine List.filterMap_congr fun e he => ?_
  simp only [setTo, h e he]

/-! ### The invariant -/

/-- What an update may have pending: no case, and columns that its request sets. -/
structure Pending (S : Setting ι) (i : ι) (t : Txn) : Prop where
  cases : t.cases = []
  updates : t.updates = [] ∨ ∃ u, t.updates = [(S.caseId, u)] ∧
    ∀ f, ∀ v ∈ written u f, requested (S.requests i) f = some v

/-- What is pending is for one session at a time: who has an event pending holds the lock, and
sees the values that its request sets. -/
structure Inv (S : Setting ι) (w : World ι) : Prop where
  agrees : Agrees S w
  known : ∀ e ∈ w.audit, w.owner e.id ≠ .fresh
  pending : ∀ i, Pending S i (w.txn i)
  lock : ∀ i j, j ≠ i → S.lock ∈ (w.txn i).locks → S.lock ∉ (w.txn j).locks
  locked : ∀ i, (w.txn i).events ≠ [] → S.lock ∈ (w.txn i).locks
  ready : ∀ i, ∀ e ∈ (w.txn i).events, OfUpdate S i e w.owner ∧
    ∀ c ∈ w.cases, c.id = S.caseId → Shows S i (updateCase (w.txn i).updates c)
  log : w.audit.Sublist w.appended
  order : ∀ i, (w.audit ++ (w.txn i).events).Sublist w.appended

structure Rely (i : ι) (w v : World ι) : Prop where
  txn : v.txn i = w.txn i
  owner : ∀ u, w.owner u = .drawn i → v.owner u = .drawn i
  audit : w.audit <+: v.audit

/-- What a request sets without writing it, because it has loaded the same value, is still so in
the committed row when the case is refreshed and when the event is appended. -/
def Current (S : Setting ι) (w : World ι) (i : ι) : Op → Prop
  | .refreshCase _ | .appendEvent _ => ∀ f, ∀ v ∈ requested (S.requests i) f,
      (∀ u ∈ (w.txn i).updates, written u.2 f = none) →
        ∀ c ∈ w.cases, c.id = S.caseId → value c f = v
  | _ => True

def rules (S : Setting ι) : Rules ι (World ι) Choice Op where
  inv := Inv S
  rely := Rely
  demand := fun _ _ _ => True
  policy := fun w i o _ => Current S w i o
  refl := fun _ _ => ⟨rfl, fun _ h => h, List.prefix_rfl⟩
  trans := fun _ _ _ _ h h' => ⟨h'.txn.trans h.txn, fun u hu => h'.owner u (h.owner u hu),
    h.audit.trans h'.audit⟩

/-- What an update makes of a field of the row. -/
lemma value_updateCase (h : Pending S i t) (hid : c.id = S.caseId) (f : Field) :
    (∃ v, requested (S.requests i) f = some v ∧ value (updateCase t.updates c) f = v) ∨
      ((∀ u ∈ t.updates, written u.2 f = none) ∧
        value (updateCase t.updates c) f = value c f) := by
  rcases h.updates with hnone | ⟨u, hu, hwritten⟩
  · rw [hnone]
    exact .inr ⟨by simp, rfl⟩
  · have happly : updateCase t.updates c = u.apply c := by
      simp [hu, updateCase, hid]
    rw [happly, value_apply, hu]
    cases hv : written u f with
    | none => exact .inr ⟨by simp [hv], rfl⟩
    | some v => exact .inl ⟨v, hwritten f v hv, rfl⟩

/-- The row shows what the request sets, where what is not written is so already. -/
lemma shows_updateCase (h : Pending S i t) (hid : c.id = S.caseId)
    (hcurrent : ∀ f, ∀ v ∈ requested (S.requests i) f,
      (∀ u ∈ t.updates, written u.2 f = none) → value c f = v) :
    Shows S i (updateCase t.updates c) := by
  intro f v hv
  rcases value_updateCase h hid f with ⟨v', hv', heq⟩ | ⟨hnone, heq⟩
  · rw [heq]
    exact Option.some.inj (hv'.symm.trans hv)
  · rw [heq]
    exact hcurrent f v hv hnone

/-! ### Steps -/

/-- The session keeps the invariant and what the others rely on. -/
def Keeps (S : Setting ι) (i : ι) (w v : World ι) : Prop :=
  Inv S v ∧ ∀ j, j ≠ i → Rely j w v

lemma Keeps.refl (hw : Inv S w) : Keeps S i w w := ⟨hw, fun j _ => (rules S).refl j w⟩

lemma Pending.empty : Pending S i {} := ⟨rfl, .inl rfl⟩

lemma OfUpdate.draw {j : ι} {u : Uuid} (h : OfUpdate S j e w.owner) (hu : w.owner u = .fresh) :
    OfUpdate S j e (w.draw i u).owner := ⟨h.eventType, h.caseId, owner_draw hu h.owner⟩

/-- An identifier is drawn that is in no event. -/
lemma keeps_draw {u : Uuid} (hw : Inv S w) (hu : w.owner u = .fresh) :
    Keeps S i w (w.draw i u) := by
  have howner : ∀ x, w.owner x ≠ .fresh → (w.draw i u).owner x = w.owner x := by
    intro x hx
    have hne : x ≠ u := by
      rintro rfl
      exact hx hu
    simp [World.draw, hne]
  constructor
  · refine ⟨fun c hc hid f => ?_, fun e he => ?_, hw.pending, hw.lock, hw.locked,
      fun j e he => ⟨(hw.ready j e he).1.draw hu, (hw.ready j e he).2⟩, hw.log, hw.order⟩
    · have hlast := lastSet_congr (S := S) (f := f) fun e he => howner e.id (hw.known e he)
      rw [World.draw_audit, hlast]
      exact hw.agrees c hc hid f
    · rw [howner e.id (hw.known e he)]
      exact hw.known e he
  · exact fun j _ => ⟨rfl, fun x hx => owner_draw hu hx, List.prefix_rfl⟩

variable [DecidableEq ι]

/-- Of two sessions only one holds the lock. -/
def Apart (S : Setting ι) (t u : Txn) : Prop := S.lock ∈ t.locks → S.lock ∉ u.locks

/-- The session changes its transaction, and may insert events. -/
lemma keeps_own (hw : Inv S w) (hv : v.txn = Function.update w.txn i t)
    (hcases : v.cases = w.cases) (haudit : v.audit = w.audit)
    (howner : v.owner = w.owner) (happended : w.appended.Sublist v.appended)
    (hpending : Pending S i t) (hlock : S.lock ∈ t.locks → ∀ j, j ≠ i → S.lock ∉ (w.txn j).locks)
    (hlocked : t.events ≠ [] → S.lock ∈ t.locks)
    (hready : ∀ e ∈ t.events, OfUpdate S i e w.owner ∧
      ∀ c ∈ w.cases, c.id = S.caseId → Shows S i (updateCase t.updates c))
    (horder : (w.audit ++ t.events).Sublist v.appended) : Keeps S i w v := by
  constructor
  · constructor
    · unfold Agrees
      rw [hcases, haudit, howner]
      exact hw.agrees
    · rw [haudit, howner]
      exact hw.known
    · exact forall_txn hv hpending fun j _ => hw.pending j
    · exact pairwise_txn (R := Apart S) hv
        (fun j hj => ⟨fun hl => hlock hl j hj, fun hj' hl => hlock hl j hj hj'⟩) hw.lock
    · exact forall_txn (P := fun _ t => t.events ≠ [] → S.lock ∈ t.locks) hv hlocked
        fun j _ => hw.locked j
    · rw [hcases, howner]
      exact forall_txn (P := fun j t => ∀ e ∈ t.events, OfUpdate S j e w.owner ∧
        ∀ c ∈ w.cases, c.id = S.caseId → Shows S j (updateCase t.updates c)) hv hready
        fun j _ => hw.ready j
    · rw [haudit]
      exact hw.log.trans happended
    · rw [haudit]
      exact forall_txn (P := fun _ t => (w.audit ++ t.events).Sublist v.appended) hv horder
        fun j _ => (hw.order j).trans happended
  · intro j hj
    refine ⟨?_, fun u hu => howner ▸ hu, haudit ▸ List.prefix_rfl⟩
    rw [hv, Function.update_of_ne hj]

/-- A session that has no event pending changes its transaction. -/
lemma keeps_setTxn (hw : Inv S w) (ht : Pending S i t) (he : t.events = [])
    (hl : S.lock ∈ t.locks → ∀ j, j ≠ i → S.lock ∉ (w.txn j).locks) :
    Keeps S i w (w.setTxn i t) := by
  refine keeps_own hw rfl rfl rfl rfl (List.Sublist.refl _) ht hl (fun hne => absurd he hne) ?_ ?_
  · simp [he]
  · rw [he, List.append_nil]
    exact (List.sublist_append_left _ _).trans (hw.order i)

/-- A session that holds the lock inserts its event. -/
lemma keeps_insertEvent (hw : Inv S w) (he : OfUpdate S i e w.owner)
    (hlock : S.lock ∈ (w.txn i).locks) (hcurrent : Current S w i (.appendEvent e)) :
    Keeps S i w (w.insertEvent i e) := by
  have hshows : ∀ c ∈ w.cases, c.id = S.caseId → Shows S i (updateCase (w.txn i).updates c) :=
    fun c hc hid => shows_updateCase (hw.pending i) hid fun f v hv hnone =>
      hcurrent f v hv hnone c hc hid
  refine keeps_own hw rfl rfl rfl rfl (List.sublist_append_left _ _)
    ⟨(hw.pending i).cases, (hw.pending i).updates⟩ (fun _ j hj => hw.lock i j hj hlock)
    (fun _ => hlock) ?_ ?_
  · intro d hd
    rcases List.mem_append.mp hd with hd | hd
    · exact hw.ready i d hd
    · obtain rfl := List.mem_singleton.mp hd
      exact ⟨he, hshows⟩
  · rw [World.insertEvent_appended, ← List.append_assoc]
    exact (hw.order i).append (List.Sublist.refl _)

/-- The commit of an update makes of the row what its event says. -/
lemma agrees_commit (hw : Inv S w) (he : (w.txn i).events = [e]) : Agrees S (w.commit i) := by
  obtain ⟨hof, hshows⟩ := hw.ready i e (by simp [he])
  intro c' hc' hid f
  have hmap : (w.commit i).cases = w.cases.map (updateCase (w.txn i).updates) := by
    rw [World.commit_cases, (hw.pending i).cases, List.append_nil]
  rw [hmap] at hc'
  obtain ⟨c, hc, rfl⟩ := List.mem_map.mp hc'
  have hcid : c.id = S.caseId := (updateCase_keeps _ c).1.symm.trans hid
  have howner : (w.commit i).owner = w.owner := rfl
  rw [World.commit_audit, he, howner, lastSet_snoc, hof.setTo]
  cases hv : requested (S.requests i) f with
  | some v => exact hshows c hc hcid f v hv
  | none =>
    rcases value_updateCase (hw.pending i) hcid f with ⟨v, hv', -⟩ | ⟨-, heq⟩
    · rw [hv] at hv'
      cases hv'
    · rw [heq, Option.none_or]
      exact hw.agrees c hc hcid f

lemma keeps_commit (hw : Inv S w) (he : (w.txn i).events = [e]) : Keeps S i w (w.commit i) := by
  have hlock : S.lock ∈ (w.txn i).locks := hw.locked i (by simp [he])
  -- who holds the lock is the only one with an event
  have hnone : ∀ j, ((w.commit i).txn j).events = [] := by
    refine forall_txn (P := fun _ t => t.events = []) rfl rfl fun j hj => ?_
    by_contra hne
    exact hw.lock i j hj hlock (hw.locked j hne)
  constructor
  · constructor
    · exact agrees_commit hw he
    · intro d hd
      rw [World.commit_audit, he] at hd
      rcases List.mem_append.mp hd with hd | hd
      · exact hw.known d hd
      · obtain rfl := List.mem_singleton.mp hd
        rw [World.commit_owner, (hw.ready i d (by simp [he])).1.owner]
        simp
    · exact forall_txn rfl .empty fun j _ => hw.pending j
    · exact pairwise_txn (R := Apart S) rfl (fun _ _ => ⟨by simp [Apart], by simp [Apart]⟩) hw.lock
    · exact fun j hj => absurd (hnone j) hj
    · intro j d hd
      rw [hnone j] at hd
      cases hd
    · exact hw.order i
    · intro j
      rw [hnone j, List.append_nil, World.commit_audit]
      exact hw.order i
  · exact fun j hj => ⟨commit_txn_of_ne hj, fun _ h => h, List.prefix_append _ _⟩

/-! ### Calls -/

/-- What the session knows of its transaction. -/
def Own (i : ι) (P : Txn → Prop) (w : World ι) : Prop := P (w.txn i)

/-- The event of the session is in the log. -/
def Logged (S : Setting ι) (i : ι) (w : World ι) : Prop :=
  ∃ e ∈ w.audit, OfUpdate S i e w.owner

omit [DecidableEq ι] in
lemma stable_own {P : Txn → Prop} : Stable (rules S) i (Own i P) := by
  intro u v h _ hr _
  rw [Own, Rely.txn hr]
  exact h

omit [DecidableEq ι] in
lemma stable_drawn {P : Txn → Prop} (u : Uuid) :
    Stable (rules S) i fun w => Own i P w ∧ w.owner u = .drawn i :=
  stable_own.and fun _ _ h _ hr _ => Rely.owner hr u h

omit [DecidableEq ι] in
lemma stable_logged : Stable (rules S) i (Logged S i) := by
  rintro u v ⟨e, he, hof⟩ _ hr _
  exact ⟨e, (Rely.audit hr).subset he, hof.eventType, hof.caseId, Rely.owner hr _ hof.owner⟩

variable [Fintype ι] {hashtext : String → ℤ}

/-- The rule for calls: nothing is asked of a call that raises but that it keeps the rules. -/
lemma triple_keeps {o : Op} {P : World ι → Prop} {Q : o.Response → World ι → Prop}
    (hP : Stable (rules S) i P)
    (hexec : ∀ w c r v, Inv S w → P w → Current S w i o → exec hashtext o i c w = some (r, v) →
      Keeps S i w v ∧ ∀ a, r = .ok a → Q a v) :
    ETriple (machine hashtext) (rules S) i P (call o) Q fun _ _ => True := by
  refine triple_exec hP (fun _ _ _ => trivial) (fun w c r v hw hp hc hx => ?_)
    fun _ _ _ _ _ _ _ => trivial
  obtain ⟨hkeeps, hQ⟩ := hexec w c r v hw hp hc hx
  refine ⟨hkeeps.1, hkeeps.2, ?_, fun _ _ => trivial⟩
  cases r with
  | ok a => exact hQ a rfl
  | error x => trivial

lemma triple_getCase :
    ETriple (machine hashtext) (rules S) i (Own i (· = {})) (call (.getCase S.caseId))
      (fun r w => (∀ c ∈ r, c.id = S.caseId) ∧ Own i (· = {}) w) fun _ _ => True := by
  refine triple_keeps stable_own fun w c r v hw hown _ hx => ?_
  obtain ⟨rfl, rfl⟩ := Prod.mk.inj (Option.some.inj hx)
  refine ⟨.refl hw, fun a ha => ?_⟩
  obtain rfl := Except.ok.inj ha
  exact ⟨fun c hc => by simpa using List.find?_some hc, hown⟩

/-- A flush leaves the columns pending that it writes. -/
lemma triple_flush {case : Case} (hid : case.id = S.caseId) :
    ETriple (machine hashtext) (rules S) i (Own i (· = {}))
      (call (.flushCase case (S.requests i))) (fun _ => Own i fun t => t.events = [])
      fun _ _ => True := by
  refine triple_keeps stable_own fun w c r v hw htxn _ hx => ?_
  have hempty : (w.txn i).events = [] := by
    rw [show w.txn i = {} from htxn]
  obtain ⟨-, rfl, rfl⟩ | ⟨u, hu, ⟨-, rfl, rfl⟩ | ⟨-, rfl, rfl⟩ | ⟨-, rfl, rfl⟩⟩ :=
    execFlushCase_cases hx
  · exact ⟨.refl hw, fun a ha => by cases ha⟩
  · exact ⟨.refl hw, fun _ _ => hempty⟩
  · exact ⟨.refl hw, fun a ha => by cases ha⟩
  · have hpending : Pending S i { updates := [(S.caseId, u)] } := by
      refine ⟨rfl, .inr ⟨u, rfl, fun f v hv => ?_⟩⟩
      rw [Option.mem_def, written_columns hu] at hv
      exact changed_eq_some hv
    rw [show w.txn i = {} from htxn, hid]
    refine ⟨keeps_setTxn hw hpending rfl (by simp), fun _ _ => ?_⟩
    rw [Own, setTxn_txn]

/-- The row that a refresh gives shows what the request sets: what is written is so in the
session, and what is not written is still so. -/
lemma triple_refresh :
    ETriple (machine hashtext) (rules S) i (Own i fun t => t.events = [])
      (call (.refreshCase S.caseId))
      (fun row w => (row.id = S.caseId ∧ Shows S i row) ∧ Own i (fun t => t.events = []) w)
      fun _ _ => True := by
  refine triple_keeps stable_own fun w c r v hw hevents hcurrent hx => ?_
  obtain ⟨rfl, ⟨row, hfind, rfl⟩ | ⟨-, rfl⟩⟩ := execRefreshCase_cases hx
  · refine ⟨.refl hw, fun a ha => ?_⟩
    obtain rfl := Except.ok.inj ha
    have hid : row.id = S.caseId := by simpa using List.find?_some hfind
    have hrow := List.mem_of_find?_eq_some hfind
    rw [World.casesFor, (hw.pending i).cases, List.append_nil] at hrow
    obtain ⟨c, hc, rfl⟩ := List.mem_map.mp hrow
    have hcid : c.id = S.caseId := (updateCase_keeps _ c).1.symm.trans hid
    refine ⟨⟨hid, shows_updateCase (hw.pending i) hcid fun f v hv hnone => ?_⟩, hevents⟩
    exact hcurrent f v hv hnone c hc hcid
  · exact ⟨.refl hw, fun a ha => by cases ha⟩

lemma triple_flushCase {case : Case} (hid : case.id = S.caseId) :
    ETriple (machine hashtext) (rules S) i (Own i (· = {})) (flushCase case (S.requests i))
      (fun row w => (row.id = S.caseId ∧ Shows S i row) ∧ Own i (fun t => t.events = []) w)
      fun _ _ => True := by
  refine etriple_bind (triple_flush hid) fun (_ : Unit) => ?_
  rw [hid]
  exact triple_refresh

/-- The lock of the log is taken, and kept until the session ends or commits. -/
lemma triple_lockCaseChain (hlock : S.lock = hashtext S.caseId.str) :
    ETriple (machine hashtext) (rules S) i (Own i fun t => t.events = [])
      (call (.lockCaseChain S.caseId))
      (fun _ => Own i fun t => t.events = [] ∧ S.lock ∈ t.locks) fun _ _ => True := by
  refine triple_keeps stable_own fun w c r v hw hown _ hx => ?_
  simp only [exec] at hx
  split_ifs at hx with hwait
  obtain ⟨rfl, rfl⟩ := Prod.mk.inj (Option.some.inj hx)
  refine ⟨keeps_setTxn hw ⟨(hw.pending i).cases, (hw.pending i).updates⟩ hown fun _ j hj hmem =>
    hwait ⟨j, hj, hlock ▸ hmem⟩, fun _ _ => ?_⟩
  rw [Own, setTxn_txn]
  exact ⟨hown, by simp [hlock]⟩

lemma triple_look {o : Op} {P : World ι → Prop} (hP : Stable (rules S) i P)
    (hexec : ∀ w c r v, exec hashtext o i c w = some (r, v) → v = w) :
    ETriple (machine hashtext) (rules S) i P (call o) (fun _ => P) fun _ _ => True := by
  refine triple_keeps hP fun w c r v hw hp _ hx => ?_
  obtain rfl := hexec w c r v hx
  exact ⟨.refl hw, fun _ _ => hp⟩

lemma triple_uuid4 {P : Txn → Prop} :
    ETriple (machine hashtext) (rules S) i (Own i P) (call .uuid4)
      (fun u w => Own i P w ∧ w.owner u = .drawn i) fun _ _ => True := by
  refine triple_keeps stable_own fun w c r v hw hown _ hx => ?_
  simp only [exec] at hx
  split_ifs at hx with hfresh
  obtain ⟨rfl, rfl⟩ := Prod.mk.inj (Option.some.inj hx)
  refine ⟨keeps_draw hw hfresh, fun a ha => ?_⟩
  obtain rfl := Except.ok.inj ha
  exact ⟨hown, by simp [World.draw]⟩

lemma triple_appendEvent {previous : Option AuditEvent} {a : AppendArgs} {id : Uuid}
    {now : Datetime} (ha : a.eventType = .caseUpdated) (hc : a.caseId = S.caseId) :
    ETriple (machine hashtext) (rules S) i
      (fun w => Own i (fun t => t.events = [] ∧ S.lock ∈ t.locks) w ∧ w.owner id = .drawn i)
      (call (.appendEvent (newEvent previous a id now)))
      (fun _ => Own i fun t => ∃ e, t.events = [e]) fun _ _ => True := by
  refine triple_keeps (stable_drawn id) fun w c r v hw hp hcurrent hx => ?_
  obtain ⟨⟨hevents, hlock⟩, howner⟩ := hp
  simp only [exec] at hx
  split_ifs at hx
  · obtain ⟨rfl, rfl⟩ := Prod.mk.inj (Option.some.inj hx)
    exact ⟨.refl hw, fun a ha => by cases ha⟩
  · obtain ⟨rfl, rfl⟩ := Prod.mk.inj (Option.some.inj hx)
    refine ⟨keeps_insertEvent hw ⟨ha, congrArg some hc, howner⟩ hlock hcurrent, fun _ _ => ?_⟩
    rw [Own, insertEvent_txn]
    exact ⟨_, by rw [hevents]; rfl⟩

/-- The event of the update is appended. -/
lemma triple_append (hlock : S.lock = hashtext S.caseId.str) (self : AuditService)
    {a : AppendArgs} (ha : a.eventType = .caseUpdated) (hc : a.caseId = S.caseId) :
    ETriple (machine hashtext) (rules S) i (Own i fun t => t.events = []) (self.append a)
      (fun _ => Own i fun t => ∃ e, t.events = [e]) fun _ _ => True := by
  refine triple_append_of (hc ▸ triple_lockCaseChain hlock)
    (triple_look stable_own fun w c r v hx => ?_) triple_uuid4
    (fun id => triple_look (stable_drawn id) fun w c r v hx => ?_)
    fun _ _ _ => triple_appendEvent ha hc
  · exact (Prod.mk.inj (Option.some.inj hx)).2.symm
  · exact (Prod.mk.inj (Option.some.inj hx)).2.symm

lemma triple_commit :
    ETriple (machine hashtext) (rules S) i (Own i fun t => ∃ e, t.events = [e]) (call .commit)
      (fun _ => Logged S i) fun _ _ => True := by
  refine triple_keeps stable_own fun w c r v hw hown _ hx => ?_
  obtain ⟨rfl, rfl⟩ := Prod.mk.inj (Option.some.inj hx)
  obtain ⟨e, he⟩ := hown
  refine ⟨keeps_commit hw he, fun _ _ => ⟨e, ?_, (hw.ready i e (by simp [he])).1⟩⟩
  rw [World.commit_audit, he]
  simp

/-! ### Updates -/

lemma triple_updateCase (hlock : S.lock = hashtext S.caseId.str) (self : CaseService) :
    ETriple (machine hashtext) (rules S) i (Own i (· = {}))
      (self.updateCase S.caseId (S.requests i))
      (fun row w => Shows S i row ∧ Logged S i w) fun _ _ => True := by
  have hget : ETriple (machine hashtext) (rules S) i (Own i (· = {})) (self.getCase S.caseId)
      (fun c w => c.id = S.caseId ∧ Own i (· = {}) w) fun _ _ => True := by
    refine etriple_bind triple_getCase fun r => ?_
    cases r with
    | none => exact etriple_throw fun _ _ _ => trivial
    | some c => exact etriple_pure fun _ _ h => ⟨h.1 c rfl, h.2⟩
  refine etriple_bind hget fun case => ?_
  refine triple_and fun hid => ?_
  refine etriple_bind (triple_flushCase hid) fun (row : Case) => ?_
  refine triple_and fun hrow => ?_
  refine etriple_bind (triple_append hlock self.auditService rfl hrow.1) fun _ => ?_
  refine etriple_bind triple_commit fun _ => ?_
  exact etriple_pure fun _ _ h => ⟨hrow.2, h⟩

/-- How an update ends: what it returns shows what its request sets, and its event is logged. -/
def Ended (S : Setting ι) (i : ι) (r : Except Exn Result) (w : World ι) : Prop :=
  ∀ a, r = .ok a → ∃ row, a = .case row ∧ Shows S i row ∧ Logged S i w

omit [DecidableEq ι] [Fintype ι] in
lemma stable_ended (r : Except Exn Result) : Stable (rules S) i (Ended S i r) := by
  intro u v h hu hr hv a ha
  obtain ⟨row, rfl, hshows, hlogged⟩ := h a ha
  exact ⟨row, rfl, hshows, stable_logged u v hlogged hu hr hv⟩

lemma triple_update (hlock : S.lock = hashtext S.caseId.str) (app : App) :
    Triple (machine hashtext) (rules S) i (Own i (· = {}))
      (app.handle (.updateCase S.caseId (S.requests i))) (Ended S i) := by
  refine triple_withSession (Q := Ended S i) (triple_conseq (etriple_map
    (H := fun a w => Ended S i (.ok a) w) (triple_updateCase hlock app.caseService)
      fun row w _ h a ha => ?_) (fun _ _ h => h) fun r w _ h => ?_) stable_ended
      (fun _ => trivial) fun r w hw h => ?_
  · obtain rfl := Except.ok.inj ha
    exact ⟨row, rfl, h⟩
  · cases r with
    | ok a => exact h
    | error x => exact fun a ha => by cases ha
  · have hkeeps : Keeps S i w (w.setTxn i {}) := keeps_setTxn hw .empty rfl (by simp)
    exact ⟨hkeeps.1, hkeeps.2, h⟩

/-- No session has begun, the case has its first row, and the events so far are known. -/
structure Begins (S : Setting ι) (w : World ι) : Prop where
  txn : ∀ i, w.txn i = {}
  undrawn : ∀ u i, w.owner u ≠ .drawn i
  known : ∀ e ∈ w.audit, w.owner e.id ≠ .fresh
  first : ∀ c ∈ w.cases, c.id = S.caseId → c = S.first
  order : w.audit.Sublist w.appended

omit [DecidableEq ι] [Fintype ι] in
lemma Begins.inv (h : Begins S w) : Inv S w where
  agrees := fun c hc hid f => by
    have hnone : w.audit.filterMap (setTo S w.owner f) = [] := by
      refine List.filterMap_eq_nil_iff.mpr fun e _ => ?_
      unfold setTo
      split_ifs
      · cases ho : w.owner e.id with
        | drawn i => exact absurd ho (h.undrawn _ i)
        | _ => rfl
      · rfl
    rw [lastSet, hnone, h.first c hc hid]
    rfl
  known := h.known
  pending := fun i => by
    rw [h.txn]
    exact .empty
  lock := fun i j _ => by simp [h.txn]
  locked := fun i => by simp [h.txn]
  ready := fun i => by simp [h.txn]
  log := h.order
  order := fun i => by simpa [h.txn] using h.order

/-- Updates of one case by the requests of the sessions. -/
def updates (hashtext : String → ℤ) (caseId : Uuid) (requests : ι → CaseUpdate) (first : Case) :
    Setting ι := ⟨caseId, requests, first, hashtext caseId.str⟩

/-- **No lost update, where nothing is stale**: in every state that concurrent updates of a case
come to, whatever calls raise, the row has what the last event says that set it, in the order in
which events were appended; and each update that has returned is logged, and has returned what
its request sets. -/
theorem updates_agree {app : App} {caseId : Uuid} {requests : ι → CaseUpdate} {first : Case}
    {σ : Conf ι (World ι) Op Answer (Except Exn Result)}
    (hw : Begins (updates hashtext caseId requests first) w)
    (hσ : Reach (machine hashtext)
      (fun w i o _ => Current (updates hashtext caseId requests first) w i o)
      ⟨w, fun i => app.handle (.updateCase caseId (requests i))⟩ σ) :
    Agrees (updates hashtext caseId requests first) σ.world ∧
      σ.world.audit.Sublist σ.world.appended ∧
      ∀ i a, σ.prog i = .ret (.ok a) → ∃ row, a = .case row ∧
        Shows (updates hashtext caseId requests first) i row ∧
        Logged (updates hashtext caseId requests first) i σ.world := by
  have hinv : (rules (updates hashtext caseId requests first)).inv w := hw.inv
  obtain ⟨hend, hsafe⟩ := safe_reach (fun i r => stable_ended r) hinv
    (fun i => triple_update rfl app w hinv (hw.txn i)) hσ
  exact ⟨hend.agrees, hend.log, fun i a hi => post_of_safe hsafe hi a rfl⟩

section Example

instance (o : Op) : Decidable (Current S w i o) := by
  apply Op.casesOn (motive := fun o => Decidable (Current S w i o)) o <;> intros <;>
    unfold Current <;> infer_instance

/-- The first session leaves the name as it is, and the second one changes it. -/
def renames : Fin 2 → CaseUpdate
  | 0 => ⟨some (some "Shipment"), none, none, fun s h => by
      obtain rfl := Option.some.inj (Option.some.inj h)
      decide⟩
  | 1 => ⟨some (some "Cargo"), none, none, fun s h => by
      obtain rfl := Option.some.inj (Option.some.inj h)
      decide⟩

def twoRenames : Setting (Fin 2) := updates (fun _ => 0) 2 renames shipmentRow

def bothRename : Conf (Fin 2) (World (Fin 2)) Op Answer (Except Exn Result) :=
  ⟨oneCase, fun i => textApp.handle (.updateCase 2 (renames i))⟩

def returned : Prog Op Answer (Except Exn Result) → Option Case
  | .ret (.ok (.case c)) => some c
  | _ => none

lemma ret_of_returned {p : Prog Op Answer (Except Exn Result)} {c : Case}
    (h : returned p = some c) : p = .ret (.ok (.case c)) := by
  unfold returned at h
  split at h
  · obtain rfl := Option.some.inj h
    rfl
  · cases h

lemma begins_oneCase : Begins twoRenames oneCase where
  txn := ready_oneCase.opening.txn
  undrawn := ready_oneCase.opening.undrawn
  known := by simp [oneCase, World.empty]
  first := fun c hc _ => by
    obtain rfl := List.mem_singleton.mp hc
    rfl
  order := by simp [oneCase, World.empty]

/-- One after the other. -/
def oneByOne : List (Fin 2 × Choice) := calls 0 100 10 ++ calls 1 200 10

lemma oneByOne_returns : (runUnder (machine fun _ => 0) (fun w i o _ => Current twoRenames w i o)
    bothRename oneByOne).map (fun σ => (returned (σ.prog 0)).isSome) = some true := by
  decide

/-- Both renames are logged, and the row has the last one. -/
theorem updates_agree_oneByOne : ∃ σ, Reach (machine fun _ => 0)
    (fun w i o _ => Current twoRenames w i o) bothRename σ ∧ Agrees twoRenames σ.world ∧
    ∃ row, σ.prog 0 = .ret (.ok (.case row)) ∧ Shows twoRenames 0 row := by
  obtain ⟨σ, hrun, hsome⟩ := Option.map_eq_some_iff.mp oneByOne_returns
  obtain ⟨row, hrow⟩ := Option.isSome_iff_exists.mp hsome
  have hσ := reach_of_runUnder .refl hrun
  obtain ⟨hagrees, -, hshows⟩ := updates_agree begins_oneCase hσ
  have hret := ret_of_returned hrow
  obtain ⟨row', heq, hshows', -⟩ := hshows 0 _ hret
  obtain rfl := Result.case.inj heq
  exact ⟨σ, hσ, hagrees, row, hret, hshows'⟩

/-- The second session renames the case after the first one has loaded it. -/
def staleRename : List (Fin 2 × Choice) := calls 0 100 1 ++ (calls 1 200 10 ++ calls 0 300 9)

lemma staleRename_lost : (run (machine fun _ => 0) bothRename staleRename).map (fun σ =>
    (returned (σ.prog 1)).isSome && ((returned (σ.prog 0)).any (·.name ≠ "Shipment") &&
      σ.world.cases.any fun c => c.id = 2 ∧ value c .name ≠
        (lastSet twoRenames σ.world.owner .name σ.world.audit).getD (value shipmentRow .name))) =
      some true := by
  decide

/-- Both updates return and are committed. The last event sets the name to that of the first
session; the row has the other one, and so has what the first session returns. -/
theorem staleRename_not_agrees : ∃ σ, Reach (machine fun _ => 0) (fun _ _ _ _ => True)
    bothRename σ ∧ (∀ i, ∃ row, σ.prog i = .ret (.ok (.case row))) ∧
    ¬ Agrees twoRenames σ.world ∧
    ∃ row, σ.prog 0 = .ret (.ok (.case row)) ∧ ¬ Shows twoRenames 0 row := by
  obtain ⟨σ, hrun, hdec⟩ := Option.map_eq_some_iff.mp staleRename_lost
  simp only [Bool.and_eq_true, Option.any_eq_true, List.any_eq_true, decide_eq_true_eq] at hdec
  obtain ⟨hone, ⟨row, hrow, hname⟩, c, hc, hid, hlost⟩ := hdec
  obtain ⟨row', hrow'⟩ := Option.isSome_iff_exists.mp hone
  have hret := ret_of_returned hrow
  refine ⟨σ, reach_of_run .refl (fun _ _ _ _ => trivial) hrun, fun i => ?_, fun h => ?_, row,
    hret, fun h => ?_⟩
  · match i with
    | 0 => exact ⟨row, hret⟩
    | 1 => exact ⟨row', ret_of_returned hrow'⟩
  · exact hlost (h c hc hid .name)
  · exact hname (h .name "Shipment" rfl)

end Example

end WhaleMas.CaseUpdates
