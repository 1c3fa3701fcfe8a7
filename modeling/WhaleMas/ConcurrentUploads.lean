import WhaleMas.UploadCompensation

/-!
Concurrent uploads of one content to one case. All may pass the check for a duplicate; the
unique constraint lets one row in, and every other upload takes its own object away again.
-/

namespace WhaleMas.ConcurrentUploads

open WhaleMas.Models WhaleMas.AuditLog WhaleMas.Program WhaleMas.RelyGuarantee
open WhaleMas.Database WhaleMas.Services WhaleMas.EvidenceLife WhaleMas.SessionRules
open WhaleMas.SessionRequests WhaleMas.UploadStates WhaleMas.SessionUploads WhaleMas.SessionRuns

variable {ι : Type} {app : App} {caseId : Uuid} {content : List UInt8} {requests : ι → Request}
  {w₀ : World ι}

/-- The requests upload the same bytes to the case, under names and types that the validator
accepts, and name no parent. -/
structure SameUploads (app : App) (caseId : Uuid) (content : List UInt8)
    (requests : ι → Request) : Prop where
  pos : 0 < content.length
  max : content.length ≤ app.evidenceService.validator.maxSizeBytes
  upload : ∀ i, ∃ upload sourceType createdBy,
    requests i = .upload caseId upload sourceType createdBy none ∧
    upload.chunks.flatten = content ∧
    ∃ p, app.evidenceService.validator.validateMetadata upload.filename upload.contentType = .ok p

/-- A row with the case and the bytes of the uploads. -/
def Copy (caseId : Uuid) (content : List UInt8) (r : Evidence) : Prop :=
  r.caseId = caseId ∧ r.sha256 = Sha256.hexdigest content

instance (r : Evidence) : Decidable (Copy caseId content r) := by
  unfold Copy
  infer_instance

/-- The case is there, without a row with the bytes. -/
structure Ready (caseId : Uuid) (content : List UInt8) (w : World ι) : Prop where
  opening : Opening w
  caseThere : ∃ c ∈ w.cases, c.id = caseId
  new : ∀ r ∈ w.evidence, ¬ Copy caseId content r

def cleanSetting (caseId : Uuid) (content : List UInt8) (w₀ : World ι) : Setting ι where
  old := fun u => w₀.owner u = .old
  isUpload := fun _ => True
  clean := True
  caseId := caseId
  content := content
  storage := w₀.objects

/-! ### One row -/

variable {S : Setting ι} {w : World ι}

lemma drawn_not_old (hw : Inv S w) {u : Uuid} {i : ι} (hu : w.owner u = .drawn i) : ¬ S.old u := by
  intro hold
  rw [(hw.old u).mpr hold] at hu
  cases hu

lemma same_once (hw : Inv S w) (hc : S.clean) :
    (w.evidence.filter fun r => Copy S.caseId S.content r).length ≤ 1 := by
  by_cases hnone : ∃ r ∈ w.evidence, S.Same r
  · obtain ⟨r, hr, hs⟩ := hnone
    obtain ⟨i, hi⟩ := (hw.clean hc).owned r hr hs
    have hone := congrArg View.rows ((hw.life r.id i hi).of_row (mem_view_rows hr rfl)).2
    have hlen : (w.evidence.filter fun s => s.id = r.id).length = 1 := by
      simpa [view, viewOf] using congrArg List.length hone
    rw [← hlen, ← List.countP_eq_length_filter, ← List.countP_eq_length_filter]
    refine List.countP_mono_left fun s hs' hcopy => ?_
    have hss : Copy S.caseId S.content s := of_decide_eq_true hcopy
    simpa using (hw.clean hc).single s hs' hss r hr hs
  · have hnil : (w.evidence.filter fun r => Copy S.caseId S.content r) = [] := by
      refine List.filter_eq_nil_iff.mpr fun r hr hdec => hnone ⟨r, hr, ?_⟩
      have hcopy : Copy S.caseId S.content r := of_decide_eq_true hdec
      exact hcopy
    simp [hnil]

/-- The row that a winner has left. -/
lemma Won.row {i : ι} {r : Evidence} (h : Won S i r w) :
    ∃ s ∈ w.evidence, s.id = r.id ∧ factsOf s = factsOf r := by
  have hmem : factsOf r ∈ (view r.id w).rows := by simp [h.rows]
  obtain ⟨s, hs, hfacts⟩ := List.mem_map.mp hmem
  obtain ⟨hs, hid⟩ := List.mem_filter.mp hs
  exact ⟨s, hs, by simpa using hid, hfacts⟩

lemma same_of_facts {r s : Evidence} (h : factsOf s = factsOf r) (hr : S.Same r) : S.Same s := by
  obtain ⟨hcase, hsha, -⟩ := RowFacts.mk.inj h
  exact ⟨hcase.trans hr.1, hsha.trans hr.2⟩

/-- Only one upload wins. -/
lemma Won.unique (hw : Inv S w) (hc : S.clean) {i j : ι} {r s : Evidence} (hi : Won S i r w)
    (hj : Won S j s w) : i = j := by
  obtain ⟨r', hr', hrid, hrf⟩ := Won.row hi
  obtain ⟨s', hs', hsid, hsf⟩ := Won.row hj
  have hid := (hw.clean hc).single r' hr' (same_of_facts hrf hi.same) s' hs'
    (same_of_facts hsf hj.same)
  have ho := hi.owner
  rw [← hrid, hid, hsid, hj.owner] at ho
  exact (Owner.drawn.inj ho).symm

/-! ### One winner -/

/-- What the uploads have left of their objects when all have ended. -/
lemma objects_of_ended (hb : Begins S w₀) (hw : Inv S w) (hc : S.clean) {i : ι} {r : Evidence}
    (hwon : Won S i r w) (hlost : ∀ j, j ≠ i → Lost S j w) :
    w.objects = Function.update w₀.objects r.objectKey (some ⟨S.content, r.mimeType⟩) := by
  obtain ⟨name, hname⟩ := hwon.key
  have hkey : ∀ c u n, u ≠ r.id → objectKeyOf c u n ≠ r.objectKey := fun c u n hu h =>
    hu (objectKeyOf_inj (h.trans hname)).2
  ext1 key
  by_cases hown : ∃ c u n j, w.owner u = .drawn j ∧ key = objectKeyOf c u n
  · obtain ⟨c, u, n, j, hu, rfl⟩ := hown
    have hfresh : w₀.owner u = .fresh := by
      cases ho : w₀.owner u with
      | fresh => rfl
      | old => exact absurd ((hb.old u).mpr ho) (drawn_not_old hw hu)
      | drawn k => exact absurd ho (hb.opening.undrawn u k)
    have hbefore := (hb.opening.blank u hfresh).2 c n (by simp)
    by_cases hur : u = r.id
    · subst hur
      by_cases hk : objectKeyOf c r.id n = r.objectKey
      · rw [hk, Function.update_self, hwon.stored]
      · rw [Function.update_of_ne hk, hbefore]
        exact hwon.bare c n fun h => hk (Option.some.inj h).symm
    · rw [Function.update_of_ne (hkey c u n hur), hbefore]
      by_cases hj : j = i
      · subst hj
        exact (hwon.others u hu (by simpa using hur)).2 c n (by simp)
      · exact ((hlost j hj).nothing u hu).2 c n (by simp)
  · push Not at hown
    have hne : key ≠ r.objectKey := fun h =>
      hown S.caseId r.id name i hwon.owner (h.trans hname)
    rw [Function.update_of_ne hne, ← hb.storage hc]
    exact (hw.clean hc).stored key fun c u n j hu => hown c u n j hu

/-- When all uploads have ended, one has won and the others have lost. -/
lemma one_winner [Nonempty ι] (hw : Inv S w) (hc : S.clean) (results : ι → Except Exn Evidence)
    (h : ∀ i, Outcome S i (results i) w) : ∃ i r, results i = .ok r ∧ Won S i r w ∧
      ∀ j, j ≠ i → results j = .error (.domain duplicateError) ∧ Lost S j w := by
  have hex : ∃ i r, results i = .ok r := by
    by_contra hnone
    push Not at hnone
    have hlost : ∀ j, Lost S j w := fun j => by
      have hj := h j hc
      cases hr : results j with
      | ok r => exact absurd hr (hnone j r)
      | error e =>
        rw [hr] at hj
        exact hj.2
    -- the row that made the uploads fail is the row of one of them
    obtain ⟨s, hs, hsame⟩ := (hlost (Classical.arbitrary ι)).same
    obtain ⟨j, hj⟩ := (hw.clean hc).owned s hs hsame
    have hrow := mem_view_rows hs rfl
    rw [((hlost j).nothing s.id hj).1] at hrow
    cases hrow
  obtain ⟨i, r, hi⟩ := hex
  have hwon : Won S i r w := by
    have hout := h i hc
    rwa [hi] at hout
  refine ⟨i, r, hi, hwon, fun j hj => ?_⟩
  have hout := h j hc
  cases hr : results j with
  | ok s =>
    rw [hr] at hout
    exact absurd (Won.unique hw hc hout hwon) hj
  | error e =>
    rw [hr] at hout
    exact ⟨congrArg Except.error hout.1, hout.2⟩

/-! ### Every run -/

variable [DecidableEq ι] [Fintype ι] {hashtext : String → ℤ}

/-- **One upload wins.** In every state that uploads of the same bytes to a case reach, in any
interleaving, at most one row with the bytes is committed, and no compensation is about to
delete the object of a committed row. When all have ended, one has returned its row, the others
have raised `DUPLICATE_EVIDENCE`, and the winner's object is all they have left in the
storage. -/
theorem concurrent_duplicates [Nonempty ι] (h : SameUploads app caseId content requests)
    (h₀ : Ready caseId content w₀) {σ : Conf ι (World ι) Op Answer (Except Exn Result)}
    (hσ : Reach (machine hashtext) (fun _ _ _ c => c.fault = .none)
      ⟨w₀, fun i => app.handle (requests i)⟩ σ) :
    (σ.world.evidence.filter fun r => Copy caseId content r).length ≤ 1 ∧
    (∀ i key k, σ.prog i = .op (.deleteObject key) k →
      ∀ r ∈ σ.world.evidence, r.objectKey ≠ key) ∧
    ((∀ i, ∃ r, σ.prog i = .ret r) → ∃ i r, σ.prog i = .ret (.ok (.evidence r)) ∧
      (∀ j, j ≠ i → σ.prog j = .ret (.error (.domain duplicateError))) ∧
      (∃ s ∈ σ.world.evidence, s.id = r.id ∧ s.objectKey = r.objectKey ∧ Copy caseId content s) ∧
      σ.world.objects =
        Function.update w₀.objects r.objectKey (some ⟨content, r.mimeType⟩)) := by
  set S := cleanSetting caseId content w₀
  have hc : S.clean := trivial
  have hasks : ∀ i, Asks S app i (requests i) := fun i => by
    obtain ⟨upload, sourceType, createdBy, hreq, hcontent, hmeta⟩ := h.upload i
    refine ⟨fun _ => by rw [hreq]; rfl, fun _ => ⟨upload, sourceType, createdBy, hreq, ?_⟩⟩
    exact ⟨rfl, hcontent, hmeta, h.pos, h.max, rfl⟩
  have hb : Begins S w₀ :=
    ⟨h₀.opening, fun _ => Iff.rfl, fun _ => h₀.caseThere, fun _ => h₀.new, fun _ => rfl⟩
  have hpolicy : ∀ w i o (c : Choice), c.fault = .none → Policy S w i o c := by
    intro w i o c hf
    refine ⟨fun _ _ e he => ?_, fun _ => hf⟩
    rw [hf] at he
    cases he
  obtain ⟨hinv, hsafe⟩ := run_safe hasks hb (hσ.mono hpolicy)
  refine ⟨same_once hinv hc, fun i key k hi r hr => ?_, fun hended => ?_⟩
  · have hdemand : Demand S σ.world i (.deleteObject key) := demand_of_safe hinv hsafe hi
    exact hdemand key rfl trivial r hr
  · choose results hresults using hended
    have hout : ∀ i, ∃ r', results i = Except.map Result.evidence r' ∧ Outcome S i r' σ.world :=
      fun i => post_of_safe hsafe (hresults i) hc
    choose results' hresults' hout using hout
    obtain ⟨i, r, hi, hwon, hlost⟩ := one_winner hinv hc results' hout
    refine ⟨i, r, ?_, fun j hj => ?_, ?_, ?_⟩
    · rw [hresults i, hresults' i, hi]
      rfl
    · rw [hresults j, hresults' j, (hlost j hj).1]
      rfl
    · obtain ⟨s, hs, hid, hfacts⟩ := Won.row hwon
      exact ⟨s, hs, hid, congrArg RowFacts.objectKey hfacts, same_of_facts hfacts hwon.same⟩
    · exact objects_of_ended hb hinv hc hwon fun j hj => (hlost j hj).2

section Example

def shipmentRow : Case where
  id := 2
  caseNo := "CASE-2026-000001"
  name := "Shipment"
  description := none
  status := .created
  createdBy := none
  createdAt := noon
  updatedAt := noon

def oneCase : World (Fin 2) :=
  { World.empty with cases := [shipmentRow], owner := fun u => if u = 2 then .old else .fresh }

def textBytes : List UInt8 := [104, 105]

lemma ready_oneCase : Ready 2 textBytes oneCase where
  opening := by
    refine ⟨fun _ => rfl, fun u i => ?_, fun u hu => ⟨?_, fun _ _ _ => rfl⟩, by simp [oneCase,
      World.empty]⟩
    · simp only [oneCase]
      split_ifs <;> simp
    · have hu2 : u ≠ 2 := by
        rintro rfl
        simp [oneCase] at hu
      simp [view, viewOf, oneCase, World.empty, evidenceLog, creations, shipmentRow, View.blank,
        hu2.symm]
  caseThere := ⟨shipmentRow, by simp [oneCase], rfl⟩
  new := by simp [oneCase, World.empty]

lemma sameUploads_text : SameUploads textApp 2 textBytes
    fun _ : Fin 2 => .upload 2 textUpload .other none none where
  pos := by decide
  max := by decide
  upload := fun _ => ⟨textUpload, .other, none, rfl, rfl, ("a.txt", ".txt"), rfl⟩

/-- Both uploads store their object; then the first one commits, and the second one fails. -/
def race : List (Fin 2 × Choice) :=
  calls 0 100 22 ++ (calls 1 200 22 ++ (calls 0 300 15 ++ calls 1 400 12))

def bothUpload : Conf (Fin 2) (World (Fin 2)) Op Answer (Except Exn Result) :=
  ⟨oneCase, fun _ => textApp.handle (.upload 2 textUpload .other none none)⟩

def hasEnded : Prog Op Answer (Except Exn Result) → Bool
  | .ret _ => true
  | .op .. => false

lemma race_ended : (run (machine fun _ => 0) bothUpload race).map
    (fun σ => decide (∀ i, hasEnded (σ.prog i) = true)) = some true := by
  decide +kernel

/-- The race leaves one object. -/
theorem concurrent_duplicates_race : ∃ σ, run (machine fun _ => 0) bothUpload race = some σ ∧
    (σ.world.evidence.filter fun r => Copy 2 textBytes r).length ≤ 1 ∧
    ∃ i r, σ.prog i = .ret (.ok (.evidence r)) ∧ σ.world.objects =
      Function.update oneCase.objects r.objectKey (some ⟨textBytes, r.mimeType⟩) := by
  obtain ⟨σ, hσ, hdec⟩ := Option.map_eq_some_iff.mp race_ended
  have hended : ∀ i, ∃ r, σ.prog i = .ret r := fun i => by
    have hi := of_decide_eq_true hdec i
    cases hp : σ.prog i with
    | ret r => exact ⟨r, rfl⟩
    | op o k =>
      rw [hp] at hi
      cases hi
  obtain ⟨hone, -, hall⟩ := concurrent_duplicates sameUploads_text ready_oneCase
    (reach_of_run .refl (fun s hs _ _ => by
      simp only [race, List.mem_append] at hs
      rcases hs with hs | hs | hs | hs <;> exact calls_fault hs) hσ)
  obtain ⟨i, r, hi, -, -, hobj⟩ := hall hended
  exact ⟨σ, hσ, hone, i, r, hi, hobj⟩

end Example

end WhaleMas.ConcurrentUploads
