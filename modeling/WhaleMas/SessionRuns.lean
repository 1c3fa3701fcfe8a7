import WhaleMas.SessionUploads

/-!
Interleaved runs of requests, each in a session of its own: the invariant holds in every world
they come to, and every request keeps to the rules.
-/

namespace WhaleMas.SessionRuns

open WhaleMas.Models WhaleMas.AuditLog WhaleMas.Program WhaleMas.RelyGuarantee
open WhaleMas.Database WhaleMas.Services WhaleMas.EvidenceLife WhaleMas.SessionRules
open WhaleMas.SessionFrame WhaleMas.SessionRequests WhaleMas.UploadStates WhaleMas.SessionUploads

def isUpload : Request → Bool
  | .upload .. => true
  | _ => false

variable {ι : Type} {S : Setting ι} {i : ι} {w : World ι}

/-- How a request of a clean run ends. -/
def Ended (S : Setting ι) (i : ι) (r : Except Exn Result) (w : World ι) : Prop :=
  S.clean → ∃ r', r = Except.map Result.evidence r' ∧ Outcome S i r' w

lemma knowledge_ended (r : Except Exn Result) : Knowledge (rules S) i (Ended S i r) where
  stable := fun w v h hw hr hv hc => by
    obtain ⟨r', rfl, hout⟩ := h hc
    exact ⟨r', rfl, (knowledge_outcome r').stable w v hout hw hr hv⟩
  quiet := fun w v hq h hc => by
    obtain ⟨r', rfl, hout⟩ := h hc
    exact ⟨r', rfl, (knowledge_outcome r').quiet w v hq hout⟩
  draw := fun w u hw hu h hc => by
    obtain ⟨r', rfl, hout⟩ := h hc
    exact ⟨r', rfl, (knowledge_outcome r').draw w u hw hu hout⟩

/-- What a run assumes of the request of session `i`. -/
structure Asks (S : Setting ι) (app : App) (i : ι) (request : Request) : Prop where
  isUpload : S.isUpload i → isUpload request = true
  clean : S.clean → ∃ upload sourceType createdBy,
    request = .upload S.caseId upload sourceType createdBy none ∧
      Fits S app.evidenceService S.caseId upload none

lemma Asks.not_clean {app : App} {request : Request} (h : Asks S app i request)
    (hr : SessionRuns.isUpload request = false) : ¬ S.clean ∧ ¬ S.isUpload i := by
  refine ⟨fun hc => ?_, fun hi => ?_⟩
  · obtain ⟨upload, sourceType, createdBy, rfl, -⟩ := h.clean hc
    cases hr
  · rw [h.isUpload hi] at hr
    cases hr

/-- No session has begun, and an identifier still to be drawn is in no row, event or key. -/
structure Opening (w : World ι) : Prop where
  txn : ∀ i, w.txn i = {}
  undrawn : ∀ u i, w.owner u ≠ .drawn i
  blank : ∀ u, w.owner u = .fresh → Blank u w
  keyed : ∀ r ∈ w.evidence, ∀ c u n, w.owner u = .fresh → r.objectKey ≠ objectKeyOf c u n

/-- The setting belongs to the world a run begins in. -/
structure Begins (S : Setting ι) (w : World ι) : Prop where
  opening : Opening w
  old : ∀ u, S.old u ↔ w.owner u = .old
  caseThere : S.clean → ∃ c ∈ w.cases, c.id = S.caseId
  new : S.clean → ∀ r ∈ w.evidence, ¬ S.Same r
  storage : S.clean → S.storage = w.objects

lemma Begins.inv (h : Begins S w) : Inv S w where
  old := fun u => (h.old u).symm
  blank := h.opening.blank
  life := fun u i hu => absurd hu (h.opening.undrawn u i)
  keyed := fun r hr c u n hold hk => by
    cases ho : w.owner u with
    | fresh => exact absurd hk (h.opening.keyed r hr c u n ho)
    | old => exact absurd ((h.old u).mpr ho) hold
    | drawn i => exact absurd ho (h.opening.undrawn u i)
  clean := fun hc => by
    refine ⟨h.caseThere hc, fun i => ?_, fun r hr hs => absurd hs (h.new hc r hr),
      fun r hr hs => absurd hs (h.new hc r hr), fun key _ => by rw [h.storage hc]⟩
    rw [h.opening.txn i]
    exact ⟨rfl, by simp, by simp⟩

variable [DecidableEq ι] [Fintype ι] {hashtext : String → ℤ}

/-- A request that is no upload. -/
lemma triple_other {α : Type} {f : α → Result} {p : M α} (hc : ¬ S.clean)
    (hp : ETriple (machine hashtext) (rules S) i (At i {} fun _ => True) p (fun _ _ => True)
      fun _ _ => True) :
    Triple (machine hashtext) (rules S) i (At i {} (Others i none)) (withSession (f <$> p))
      (Ended S i) := by
  refine triple_session knowledge_ended (triple_conseq (etriple_map (H := fun _ _ => True) hp
    fun _ _ _ _ => trivial) (fun _ _ h => ⟨h.1, trivial⟩) fun _ _ _ _ h => absurd h hc)

lemma triple_handle {app : App} {request : Request} (h : Asks S app i request) :
    Triple (machine hashtext) (rules S) i (At i {} (Others i none)) (app.handle request)
      (Ended S i) := by
  cases request with
  | upload caseId upload sourceType createdBy parentEvidenceId =>
    have hfits : S.clean → Fits S app.evidenceService caseId upload parentEvidenceId := fun hc => by
      obtain ⟨_, _, _, heq, hfits⟩ := h.clean hc
      obtain ⟨rfl, rfl, rfl, rfl, rfl⟩ := Request.upload.inj heq
      exact hfits
    refine triple_session knowledge_ended (triple_conseq (etriple_map
      (H := fun r w => Ended S i (.ok r) w) (triple_upload app.evidenceService caseId upload
        sourceType createdBy parentEvidenceId hfits) fun r _ _ hr _ => ⟨.ok r, rfl, hr⟩)
      (fun _ _ h => h) fun r w _ hr => ?_)
    cases r with
    | ok r => exact hr
    | error e => exact fun _ => ⟨.error e, rfl, hr⟩
  | delete caseId evidenceId =>
    obtain ⟨hc, hi⟩ := h.not_clean rfl
    exact triple_other hc (triple_delete hc hi app.evidenceService caseId evidenceId)
  | createCase data =>
    obtain ⟨hc, -⟩ := h.not_clean rfl
    exact triple_other hc (triple_create hc app.caseService data)
  | updateCase caseId data =>
    obtain ⟨hc, -⟩ := h.not_clean rfl
    exact triple_other hc (triple_update hc app.caseService caseId data)

/-! ### Every run -/

/-- In every world a run of requests comes to, the invariant holds and the requests keep to
the rules. -/
lemma run_safe {app : App} {requests : ι → Request} (hasks : ∀ i, Asks S app i (requests i))
    (hw : Begins S w) {σ : Conf ι (World ι) Op Answer (Except Exn Result)}
    (hσ : Reach (machine hashtext) (Policy S) ⟨w, fun i => app.handle (requests i)⟩ σ) :
    Inv S σ.world ∧ ∀ i, Safe (machine hashtext) (rules S) i (Ended S i) (σ.prog i) σ.world := by
  have hinv : (rules S).inv w := hw.inv
  refine safe_reach (fun i r => (knowledge_ended r).stable) hinv (fun i => ?_) hσ
  refine triple_handle (hasks i) w hinv ⟨by rw [hw.opening.txn i]; rfl, fun u hu _ => ?_⟩
  exact absurd hu (hw.opening.undrawn u i)

/-! ### An application to run -/

section Example

/-- What the validator says of a plain text file. -/
def textValidator : FileValidator where
  validateMetadata := fun filename contentType =>
    if filename = some "a.txt" ∧ contentType = some "text/plain" then .ok ("a.txt", ".txt")
    else .error (evidenceValidationError "EVIDENCE_INVALID_TYPE" "Unsupported evidence file type")
  maxSizeBytes := 1024

def textApp : App := ⟨⟨⟨true⟩⟩, ⟨⟨true⟩, textValidator⟩⟩

def textUpload : UploadFile := ⟨some "a.txt", some "text/plain", [[104, 105]], by simp⟩

def shipment : CaseCreate := ⟨"Shipment", none, none, by decide, none_short⟩

/-- Calls of one session, none of which raises, with numbered identifiers to draw. -/
def calls {ι : Type} (i : ι) (first n : ℕ) : List (ι × Choice) :=
  (List.range n).map fun k => (i, ⟨.none, Fin.ofNat _ (first + k), noon⟩)

/-- A case is created, and a file uploaded to it. -/
def createAndUpload : Fin 2 → Request
  | 0 => .createCase shipment
  | 1 => .upload 2 textUpload .other none none

def createAndUploadApp : Conf (Fin 2) (World (Fin 2)) Op Answer (Except Exn Result) :=
  ⟨World.empty, fun i => textApp.handle (createAndUpload i)⟩

lemma calls_fault {ι : Type} {i : ι} {first n : ℕ} {s : ι × Choice} (h : s ∈ calls i first n) :
    s.2.fault = .none := by
  obtain ⟨k, -, rfl⟩ := List.mem_map.mp h
  rfl

end Example

end WhaleMas.SessionRuns
