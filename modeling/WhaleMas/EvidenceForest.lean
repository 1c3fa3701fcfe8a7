import WhaleMas.Lineage
import WhaleMas.SessionRuns

/-!
The parents of evidence. An upload names its parent by an identifier that the database looks up
among all rows, whatever their case. Children are inserted after their parents, so following
parents ends; parents are in the case of their children exactly as far as uploads name them so.
-/

namespace WhaleMas.EvidenceForest

open WhaleMas.Models WhaleMas.Program WhaleMas.RelyGuarantee WhaleMas.Database
open WhaleMas.Services WhaleMas.Lineage WhaleMas.SessionRuns

variable {ι : Type} {strict : Prop} {i : ι} {w v : World ι} {o : Op} {c : Choice}

/-! ### Parents before their children -/

/-- Every row comes after its parent, and is in the same case where uploads are strict. -/
abbrev Rooted (strict : Prop) (l : List Evidence) : Prop :=
  Grounded Evidence.id Evidence.parentEvidenceId (fun q r => strict → q.caseId = r.caseId) l

/-- What a session has committed or inserted is rooted, and no other session deletes the
parents of rows it has inserted. -/
structure Inv (strict : Prop) (w : World ι) : Prop where
  rooted : ∀ i, Rooted strict (w.evidence ++ (w.txn i).evidence)
  free : ∀ i j, j ≠ i → ∀ r ∈ (w.txn i).evidence, ∀ p, r.parentEvidenceId = some p →
    p ∉ (w.txn j).deleted

/-- No row is drawn the identifier that its upload names as parent. -/
def DrawsOther (o : Op) (c : Choice) : Prop :=
  match o with
  | .createEvidence row => (row c.now).parentEvidenceId ≠ some (row c.now).id
  | _ => True

/-- The parent of a row, where it is there when the row is inserted, is in the same case. -/
def ParentInCase (w : World ι) (i : ι) (o : Op) (c : Choice) : Prop :=
  match o with
  | .createEvidence row => ∀ q ∈ w.evidenceFor i, (row c.now).parentEvidenceId = some q.id →
      q.caseId = (row c.now).caseId
  | _ => True

instance : Decidable (DrawsOther o c) := by
  apply Op.casesOn (motive := fun o => Decidable (DrawsOther o c)) o <;> intros <;>
    unfold DrawsOther <;> infer_instance

instance : Decidable (ParentInCase w i o c) := by
  apply Op.casesOn (motive := fun o => Decidable (ParentInCase w i o c)) o <;> intros <;>
    unfold ParentInCase <;> infer_instance

lemma mem_evidenceFor {q : Evidence} (h : q ∈ w.evidenceFor i) :
    q ∈ w.evidence ++ (w.txn i).evidence := List.mem_of_mem_filter h

/-! ### What a call does to the rows -/

variable [DecidableEq ι]

/-- What a call of session `i` does to the rows of evidence. -/
inductive RowStep (o : Op) (i : ι) (c : Choice) (w v : World ι) : Prop
  | same (he : v.evidence = w.evidence) (hrows : ∀ j, (v.txn j).evidence = (w.txn j).evidence)
      (hdeleted : ∀ j, (v.txn j).deleted = (w.txn j).deleted)
  | insert (row : Datetime → Evidence) (ho : o = .createEvidence row)
      (hparent : ∀ p, (row c.now).parentEvidenceId = some p → p ≠ (row c.now).id →
        ∃ q ∈ w.evidenceFor i, q.id = p)
      (hfree : ∀ p, (row c.now).parentEvidenceId = some p → ∀ j, j ≠ i → p ∉ (w.txn j).deleted)
      (hv : v = w.setTxn i { w.txn i with evidence := (w.txn i).evidence ++ [row c.now] })
  | delete (E : Uuid)
      (hfree : ∀ j, j ≠ i → ∀ q ∈ (w.txn j).evidence, q.parentEvidenceId ≠ some E)
      (hv : v = w.setTxn i { w.txn i with deleted := (w.txn i).deleted ++ [E] })
  | clear (hv : v = w.setTxn i {})
  | commit (hv : v = w.commit i)

lemma RowStep.of_txn {t : Txn} (hrows : t.evidence = (w.txn i).evidence)
    (hdeleted : t.deleted = (w.txn i).deleted) : RowStep o i c w (w.setTxn i t) :=
  .same rfl (txn_congr Txn.evidence rfl hrows) (txn_congr Txn.deleted rfl hdeleted)

lemma RowStep.of_event {e : AuditEvent} : RowStep o i c w (w.insertEvent i e) :=
  .same rfl (txn_congr Txn.evidence rfl rfl) (txn_congr Txn.deleted rfl rfl)

variable [Fintype ι] {hashtext : String → ℤ} {r : Answer o}

lemma rowStep_exec (h : exec hashtext o i c w = some (r, v)) : RowStep o i c w v := by
  cases (exec_effect h).1 with
  | nothing | nextSequenceValue | putObject | deleteObject | uuid4 =>
    exact .same rfl (fun _ => rfl) fun _ => rfl
  | createCase | flushCase | lockCaseChain => exact .of_txn rfl rfl
  | appendEvent => exact .of_event
  | createEvidence row hparent hfree => exact .insert row rfl hparent hfree rfl
  | deleteEvidence E hfree => exact .delete E hfree rfl
  | rollback | close => exact .clear rfl
  | commit => exact .commit rfl

/-! ### Every call keeps the order -/

/-- No row of the first session has a parent that the second one deletes. -/
def Free (t u : Txn) : Prop :=
  ∀ r ∈ t.evidence, ∀ p, r.parentEvidenceId = some p → p ∉ u.deleted

omit [Fintype ι] in
lemma Inv.insert {row : Datetime → Evidence} (hw : Inv strict w)
    (hother : DrawsOther (.createEvidence row) c)
    (hcase : strict → ParentInCase w i (.createEvidence row) c)
    (hparent : ∀ p, (row c.now).parentEvidenceId = some p → p ≠ (row c.now).id →
      ∃ q ∈ w.evidenceFor i, q.id = p)
    (hfree : ∀ p, (row c.now).parentEvidenceId = some p → ∀ j, j ≠ i → p ∉ (w.txn j).deleted) :
    Inv strict (w.setTxn i { w.txn i with evidence := (w.txn i).evidence ++ [row c.now] }) where
  rooted := by
    refine forall_txn (P := fun _ t => Rooted strict (w.evidence ++ t.evidence)) rfl ?_
      fun j _ => hw.rooted j
    rw [← List.append_assoc]
    refine grounded_snoc.mpr ⟨hw.rooted i, fun p hp => ?_⟩
    have hne : p ≠ (row c.now).id := by
      rintro rfl
      exact hother hp
    obtain ⟨q, hq, rfl⟩ := hparent p hp hne
    exact ⟨q, mem_evidenceFor hq, rfl, fun hs => hcase hs q hq hp⟩
  free := by
    refine pairwise_txn (R := Free) rfl (fun j hj => ⟨fun r hr p hp => ?_, ?_⟩) hw.free
    · rcases List.mem_append.mp hr with hr | hr
      · exact hw.free i j hj r hr p hp
      · obtain rfl := List.mem_singleton.mp hr
        exact hfree p hp j hj
    · exact hw.free j i (Ne.symm hj)

omit [Fintype ι] in
lemma Inv.delete {E : Uuid} (hw : Inv strict w)
    (hfree : ∀ j, j ≠ i → ∀ q ∈ (w.txn j).evidence, q.parentEvidenceId ≠ some E) :
    Inv strict (w.setTxn i { w.txn i with deleted := (w.txn i).deleted ++ [E] }) where
  rooted := forall_txn (P := fun _ t => Rooted strict (w.evidence ++ t.evidence)) rfl
    (hw.rooted i) fun j _ => hw.rooted j
  free := by
    refine pairwise_txn (R := Free) rfl (fun j hj => ⟨hw.free i j hj, ?_⟩) hw.free
    intro r hr p hp hmem
    rcases List.mem_append.mp hmem with hmem | hmem
    · exact hw.free j i (Ne.symm hj) r hr p hp hmem
    · rw [List.mem_singleton.mp hmem] at hp
      exact hfree j hj r hr hp

omit [DecidableEq ι] [Fintype ι] in
/-- A transaction without changes is free of every other. -/
lemma free_empty (t : Txn) : Free {} t ∧ Free t {} :=
  ⟨by simp [Free], by simp [Free]⟩

omit [Fintype ι] in
lemma Inv.clear (hw : Inv strict w) : Inv strict (w.setTxn i {}) where
  rooted := by
    refine forall_txn (P := fun _ t => Rooted strict (w.evidence ++ t.evidence)) rfl ?_
      fun j _ => hw.rooted j
    simpa using Grounded.of_prefix (hw.rooted i) (List.prefix_append ..)
  free := pairwise_txn (R := Free) rfl (fun _ _ => free_empty _) hw.free

omit [Fintype ι] in
/-- A commit leaves out the rows it deletes, and forgets the links to them. -/
lemma Inv.commit (hw : Inv strict w) : Inv strict (w.commit i) := by
  have hpruned : Rooted strict (w.commit i).evidence := by
    refine (hw.rooted i).prune (fun _ => rfl) (fun _ _ h => h) fun r p hp => ?_
    obtain ⟨hr, hstays⟩ := Option.filter_eq_some_iff.mp hp
    refine ⟨hr, ?_⟩
    rintro q rfl
    simpa using hstays
  refine ⟨?_, pairwise_txn (R := Free) rfl (fun _ _ => free_empty _) hw.free⟩
  refine forall_txn (P := fun _ t => Rooted strict ((w.commit i).evidence ++ t.evidence)) rfl ?_
    fun j hj => ?_
  · simpa using hpruned
  · refine (hw.rooted j).exchange hpruned fun r hr p hp q hq hid hs => ?_
    have hstays : q.id ∉ (w.txn i).deleted := hid ▸ hw.free j i (Ne.symm hj) r hr p hp
    refine ⟨orphan (w.txn i).deleted q, List.mem_map_of_mem (List.mem_filter.mpr ⟨?_, ?_⟩),
      hid, hs⟩
    · exact List.mem_append_left _ hq
    · simpa using hstays

lemma Inv.exec (hw : Inv strict w) (hother : DrawsOther o c)
    (hcase : strict → ParentInCase w i o c) (h : exec hashtext o i c w = some (r, v)) :
    Inv strict v := by
  cases rowStep_exec h with
  | same he hrows hdeleted =>
    refine ⟨fun j => ?_, fun j k hk r hr p hp => ?_⟩
    · rw [he, hrows]
      exact hw.rooted j
    · rw [hrows] at hr
      rw [hdeleted]
      exact hw.free j k hk r hr p hp
  | insert row ho hparent hfree hv =>
    subst ho hv
    exact hw.insert hother hcase hparent hfree
  | delete E hfree hv =>
    subst hv
    exact hw.delete hfree
  | clear hv =>
    subst hv
    exact hw.clear
  | commit hv =>
    subst hv
    exact hw.commit

/-- Also a call that raises keeps the order. -/
lemma Inv.perform (hw : Inv strict w) (hother : DrawsOther o c)
    (hcase : strict → ParentInCase w i o c)
    (h : Database.perform hashtext o i c w = some (r, v)) : Inv strict v := by
  obtain ⟨hx, -⟩ | ⟨e, -, -, rfl⟩ | ⟨e, r', -, -, hx⟩ := perform_cases hashtext h
  · exact hw.exec hother hcase hx
  · exact hw
  · exact hw.exec hother hcase hx

/-! ### Every run -/

/-- The committed rows form a forest, whose links stay inside a case where uploads are
strict. -/
structure Forest (strict : Prop) (w : World ι) : Prop where
  parents : ∀ r ∈ w.evidence, ∀ p, r.parentEvidenceId = some p →
    ∃ q ∈ w.evidence, q.id = p ∧ (strict → q.caseId = r.caseId)
  ends : ∀ r ∈ w.evidence, ∃ n,
    ancestor Evidence.id Evidence.parentEvidenceId w.evidence n r = none

omit [DecidableEq ι] [Fintype ι] in
lemma inv_empty : Inv strict (World.empty : World ι) where
  rooted := fun _ => grounded_nil
  free := fun _ _ _ r hr => by cases hr

/-- **The evidence is a forest** in every state that requests come to, in any interleaving and
with any failures: parents are committed rows, and following parents ends. Parents are in the
case of their children in the runs where every insert finds the parent it names, if at all, in
the case of the row. -/
theorem parents_forest {strict : Prop} {app : App} {requests : ι → Request}
    {σ : Conf ι (World ι) Op Answer (Except Exn Result)}
    (hσ : Reach (machine hashtext) (fun w i o c => DrawsOther o c ∧
      (strict → ParentInCase w i o c)) ⟨World.empty, fun i => app.handle (requests i)⟩ σ) :
    Forest strict σ.world := by
  have hinv : Inv strict σ.world := hσ.invariant inv_empty
    fun w i o c r v hw hc hp => hw.perform hc.1 hc.2 hp
  have hrooted : Rooted strict σ.world.evidence := by
    rcases isEmpty_or_nonempty ι with hnobody | ⟨⟨i⟩⟩
    · have hnone : σ.world.evidence = [] := hσ.invariant (I := fun w => w.evidence = []) rfl
        fun _ i => isEmptyElim i
      rw [hnone]
      exact grounded_nil
    · exact Grounded.of_prefix (hinv.rooted i) (List.prefix_append ..)
  exact ⟨fun r hr p hp => hrooted.parent_mem hr hp, fun r hr => hrooted.ends hr⟩

section Example

/-- A second plain text file. -/
def otherUpload : UploadFile := ⟨some "a.txt", some "text/plain", [[104, 111]], by simp⟩

/-- A case with a file, and another file uploaded as its child. -/
def sameCase : Fin 3 → Request
  | 0 => .createCase shipment
  | 1 => .upload 2 textUpload .other none none
  | 2 => .upload 2 otherUpload .other none (some 101)

def sameCaseApp : Conf (Fin 3) (World (Fin 3)) Op Answer (Except Exn Result) :=
  ⟨World.empty, fun i => textApp.handle (sameCase i)⟩

/-- One request after the other. -/
def sameCaseSchedule : List (Fin 3 × Choice) :=
  calls 0 0 11 ++ (calls 1 100 37 ++ calls 2 200 37)

/-- The identifiers of the rows, with their cases and parents. -/
def links (w : World ι) : List (Uuid × Uuid × Option Uuid) :=
  w.evidence.map fun r => (r.id, r.caseId, r.parentEvidenceId)

lemma sameCase_links : (runUnder (machine fun _ => 0)
    (fun w i o c => DrawsOther o c ∧ (True → ParentInCase w i o c)) sameCaseApp
    sameCaseSchedule).map (fun σ => links σ.world) =
      some [(101, 2, none), (201, 2, some 101)] := by
  decide +kernel

/-- The second file is a child of the first one, in the same case. -/
theorem parents_forest_sameCase : ∃ σ, runUnder (machine fun _ => 0)
    (fun w i o c => DrawsOther o c ∧ (True → ParentInCase w i o c)) sameCaseApp
    sameCaseSchedule = some σ ∧ links σ.world = [(101, 2, none), (201, 2, some 101)] ∧
    Forest True σ.world := by
  obtain ⟨σ, hσ, hlinks⟩ := Option.map_eq_some_iff.mp sameCase_links
  exact ⟨σ, hσ, hlinks, parents_forest (reach_of_runUnder .refl hσ)⟩

/-- Two cases, and a file in the second one whose parent is in the first one. -/
def crossCase : Fin 4 → Request
  | 0 => .createCase shipment
  | 1 => .createCase shipment
  | 2 => .upload 2 textUpload .other none none
  | 3 => .upload 102 textUpload .other none (some 201)

def crossCaseApp : Conf (Fin 4) (World (Fin 4)) Op Answer (Except Exn Result) :=
  ⟨World.empty, fun i => textApp.handle (crossCase i)⟩

def crossCaseSchedule : List (Fin 4 × Choice) :=
  calls 0 0 11 ++ (calls 1 100 11 ++ (calls 2 200 37 ++ calls 3 300 37))

lemma crossCase_links : (run (machine fun _ => 0) crossCaseApp crossCaseSchedule).map
    (fun σ => links σ.world) = some [(201, 2, none), (301, 102, some 201)] := by
  decide

/-- No call fails, and a committed row has its parent in another case. -/
theorem crossCase_not_forest : ∃ σ,
    Reach (machine fun _ => 0) (fun _ _ _ c => c.fault = .none) crossCaseApp σ ∧
    links σ.world = [(201, 2, none), (301, 102, some 201)] ∧ ¬ Forest True σ.world := by
  obtain ⟨σ, hσ, hlinks⟩ := Option.map_eq_some_iff.mp crossCase_links
  refine ⟨σ, reach_of_run .refl (fun s hs _ _ => ?_) hσ, hlinks, fun h => ?_⟩
  · simp only [crossCaseSchedule, List.mem_append] at hs
    rcases hs with hs | hs | hs | hs <;> exact calls_fault hs
  · have hall : ∀ r ∈ σ.world.evidence, (r.id, r.caseId, r.parentEvidenceId) ∈
        [((201 : Uuid), (2 : Uuid), (none : Option Uuid)), (301, 102, some 201)] := by
      intro r hr
      rw [← hlinks]
      exact List.mem_map_of_mem hr
    obtain ⟨r, hr, hlink⟩ : ∃ r ∈ σ.world.evidence,
        (r.id, r.caseId, r.parentEvidenceId) = ((301 : Uuid), (102 : Uuid), some (201 : Uuid)) := by
      refine List.mem_map.mp (?_ : _ ∈ links σ.world)
      simp [hlinks]
    simp only [Prod.mk.injEq] at hlink
    obtain ⟨q, hq, hid, hcase⟩ := h.parents r hr 201 hlink.2.2
    have hqlink := hall q hq
    rw [hid, hcase trivial, hlink.2.1] at hqlink
    simp at hqlink

end Example

end WhaleMas.EvidenceForest
