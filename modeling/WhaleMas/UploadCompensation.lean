import WhaleMas.EvidenceLedger

/-!
The compensation of failed uploads. A commit that raises although it was applied leaves the
exception handler of an upload in the dark: it deletes the object of a row that is committed.
Where no commit with a pending row of evidence is in doubt, compensation is safe.
-/

namespace WhaleMas.UploadCompensation

open WhaleMas.Models WhaleMas.AuditLog WhaleMas.Program WhaleMas.RelyGuarantee
open WhaleMas.Database WhaleMas.Services WhaleMas.EvidenceLife WhaleMas.SessionRules
open WhaleMas.SessionRequests WhaleMas.SessionRuns WhaleMas.EvidenceLedger

variable {ι : Type}

/-- Session `i` uploads, and is about to delete the object under `key`: only its compensation
does that. -/
def Compensates (requests : ι → Request) (σ : Conf ι (World ι) Op Answer (Except Exn Result))
    (i : ι) (key : String) : Prop :=
  isUpload (requests i) = true ∧ ∃ k, σ.prog i = .op (.deleteObject key) k

/-- No compensation is about to delete the object of a committed row, and no failure is
recorded for evidence whose row is committed. -/
def Spared (requests : ι → Request) (σ : Conf ι (World ι) Op Answer (Except Exn Result)) : Prop :=
  (∀ i key, Compensates requests σ i key → ∀ r ∈ σ.world.evidence, r.objectKey ≠ key) ∧
  ∀ r ∈ σ.world.evidence, ofType .evidenceUploadFailed (evidenceLog r.id σ.world.audit) = []

variable [DecidableEq ι] [Fintype ι] {hashtext : String → ℤ}

/-- **Compensation is safe where commits are certain**, in every state that requests come to
from empty tables, in any interleaving and with any other failures. -/
theorem compensation_spares {app : App} {requests : ι → Request}
    {σ : Conf ι (World ι) Op Answer (Except Exn Result)}
    (hσ : Reach (machine hashtext) Certain
      ⟨World.empty, fun i => app.handle (requests i)⟩ σ) : Spared requests σ := by
  obtain ⟨hinv, hsafe⟩ := run_fromEmpty hσ
  constructor
  · rintro i key ⟨hup, k, hi⟩ r hr
    have hdemand : Demand (fromEmpty requests) σ.world i (.deleteObject key) :=
      demand_of_safe hinv hsafe hi
    exact hdemand key rfl hup r hr
  · intro r hr
    by_contra hf
    have hrow := mem_view_rows hr rfl
    rw [(failed_alone (life_fromEmpty hσ r.id) hf).1] at hrow
    cases hrow

section Example

/-- The last commit of the upload fails, and the handler has rolled back. -/
def lastCommitFails (fault : Fault) : List (Fin 2 × Choice) :=
  calls 0 0 11 ++ (calls 1 100 33 ++
    ((1, ⟨fault, 0, noon⟩) :: calls 1 200 1))

def operationalError : Exn := .sqlalchemy "OperationalError"

def nextDelete : Prog Op Answer (Except Exn Result) → Option String
  | .op (.deleteObject key) _ => some key
  | _ => none

lemma op_of_nextDelete {p : Prog Op Answer (Except Exn Result)} {key : String}
    (h : nextDelete p = some key) : ∃ k, p = .op (.deleteObject key) k := by
  unfold nextDelete at h
  split at h
  · obtain rfl := Option.some.inj h
    exact ⟨_, rfl⟩
  · cases h

/-- The connection is lost before the last commit was sent. -/
def refused : List (Fin 2 × Choice) := lastCommitFails (.before operationalError)

lemma refused_compensates : (run (machine fun _ => 0) createAndUploadApp refused).map
    (fun σ => (nextDelete (σ.prog 1)).isSome) = some true := by
  decide

/-- The object that is about to be deleted is that of no row. -/
theorem compensation_spares_refused : ∃ σ, run (machine fun _ => 0) createAndUploadApp refused =
    some σ ∧ (∃ key, Compensates createAndUpload σ 1 key) ∧ Spared createAndUpload σ := by
  obtain ⟨σ, hσ, hdel⟩ := Option.map_eq_some_iff.mp refused_compensates
  obtain ⟨key, hkey⟩ := Option.isSome_iff_exists.mp hdel
  refine ⟨σ, hσ, ⟨key, rfl, op_of_nextDelete hkey⟩, compensation_spares (reach_of_run .refl
    (fun s hs _ _ _ _ e he => ?_) hσ)⟩
  have hnone : s.2.fault = .none ∨ s.2.fault = .before operationalError := by
    simp only [refused, lastCommitFails, List.mem_append, List.mem_cons] at hs
    rcases hs with hs | hs | rfl | hs
    · exact .inl (calls_fault hs)
    · exact .inl (calls_fault hs)
    · exact .inr rfl
    · exact .inl (calls_fault hs)
  rcases hnone with hn | hn <;> rw [hn] at he <;> cases he

/-- The connection is lost when the last commit was sent. -/
def lostConnection : List (Fin 2 × Choice) := lastCommitFails (.after operationalError)

/-- The handler is about to delete the object of the committed row. -/
lemma lostConnection_compensates : (run (machine fun _ => 0) createAndUploadApp
    lostConnection).map (fun σ => decide
      (∃ r ∈ σ.world.evidence, nextDelete (σ.prog 1) = some r.objectKey)) = some true := by
  decide

/-- And in the end a failure is recorded for it. -/
lemma lostConnection_failed : (run (machine fun _ => 0) createAndUploadApp
    (lostConnection ++ calls 1 300 10)).map (fun σ => decide (∃ r ∈ σ.world.evidence,
      (ofType .evidenceUploadFailed (evidenceLog r.id σ.world.audit)).length = 1)) =
        some true := by
  decide

/-- A commit in doubt costs a committed row its object, and its evidence is recorded as
failed. -/
theorem lostConnection_not_spared :
    (∃ σ, Reach (machine fun _ => 0) (fun _ _ _ _ => True) createAndUploadApp σ ∧
      ∃ r ∈ σ.world.evidence, Compensates createAndUpload σ 1 r.objectKey) ∧
    ∃ σ, Reach (machine fun _ => 0) (fun _ _ _ _ => True) createAndUploadApp σ ∧
      ∃ r ∈ σ.world.evidence,
        ofType .evidenceUploadFailed (evidenceLog r.id σ.world.audit) ≠ [] := by
  constructor
  · obtain ⟨σ, hσ, hdel⟩ := Option.map_eq_some_iff.mp lostConnection_compensates
    obtain ⟨r, hr, hkey⟩ := of_decide_eq_true hdel
    exact ⟨σ, reach_of_run .refl (fun _ _ _ _ => trivial) hσ, r, hr, rfl, op_of_nextDelete hkey⟩
  · obtain ⟨σ, hσ, hfail⟩ := Option.map_eq_some_iff.mp lostConnection_failed
    obtain ⟨r, hr, hlen⟩ := of_decide_eq_true hfail
    refine ⟨σ, reach_of_run .refl (fun _ _ _ _ => trivial) hσ, r, hr, ?_⟩
    exact List.ne_nil_of_length_pos (by omega)

end Example

end WhaleMas.UploadCompensation
