import WhaleMas.LockOrder
import WhaleMas.Progress
import WhaleMas.SessionRuns

/-!
Requests do not deadlock.

A session that waits for a row holds nothing, and one that waits for a lock holds at most rows.
So if nobody could go on, nobody would have a lock, nobody would wait for one, and nobody would
have a row that others wait for. And since programs end, a run that can always go on can be
completed; the identifiers it needs are counted.
-/

namespace WhaleMas.Deadlock

open WhaleMas.Models WhaleMas.AuditLog WhaleMas.Program WhaleMas.RelyGuarantee
open WhaleMas.Database WhaleMas.Services WhaleMas.LockOrder WhaleMas.Progress

section Waits

variable {ι : Type} [DecidableEq ι] [Fintype ι] {hashtext : String → ℤ} {i : ι} {w : World ι}

/-! ### Who waits for whom -/

/-- A call that has to wait and does not fail by itself: for another session's uncommitted
rows, for the lock of a case that another session has, or for a new identifier. -/
lemma exec_waits {o : Op} {c : Choice} (hx : exec hashtext o i c w = none) :
    (RowCall o ∧ ∃ j, j ≠ i ∧ ¬ Settled (w.txn j)) ∨
    (∃ caseId j, o = .lockCaseChain caseId ∧ j ≠ i ∧ hashtext caseId.str ∈ (w.txn j).locks) ∨
    (o = .uuid4 ∧ w.owner c.uuid ≠ .fresh) := by
  cases o with
  | createCase row =>
    simp only [exec, execCreateCase] at hx
    split_ifs at hx with _ hwait
    obtain ⟨j, hj, case, hcase, -⟩ := hwait
    refine .inl ⟨trivial, j, hj, fun h => ?_⟩
    rw [h.cases] at hcase
    cases hcase
  | flushCase case changes =>
    simp only [exec, execFlushCase] at hx
    split at hx
    · cases hx
    · split_ifs at hx with _ hwait
      obtain ⟨j, hj, u, hu, -⟩ := hwait
      refine .inl ⟨trivial, j, hj, fun h => ?_⟩
      rw [h.updates] at hu
      cases hu
  | refreshCase caseId =>
    simp only [exec, execRefreshCase] at hx
    split at hx <;> cases hx
  | createEvidence row =>
    simp only [exec, execCreateEvidence] at hx
    split_ifs at hx with hwait
    obtain ⟨j, hj, hwait⟩ := hwait
    refine .inl ⟨trivial, j, hj, fun h => ?_⟩
    simp [h.evidence, h.deleted] at hwait
  | deleteEvidence evidenceId =>
    simp only [exec, execDeleteEvidence] at hx
    split_ifs at hx with hwait
    obtain ⟨j, hj, hwait⟩ := hwait
    refine .inl ⟨trivial, j, hj, fun h => ?_⟩
    simp [h.evidence, h.deleted] at hwait
  | lockCaseChain caseId =>
    simp only [exec] at hx
    split_ifs at hx with hwait
    obtain ⟨j, hj, hk⟩ := hwait
    exact .inr (.inl ⟨caseId, j, rfl, hj, hk⟩)
  | uuid4 =>
    simp only [exec] at hx
    split_ifs at hx with hfresh
    exact .inr (.inr ⟨rfl, hfresh⟩)
  | appendEvent event =>
    simp only [exec] at hx
    split_ifs at hx
  | _ => cases hx

end Waits

section Progress

variable {ι α : Type} [DecidableEq ι] [Fintype ι] {hashtext : String → ℤ}
  {blocked : World ι → ι → Op → Choice → Prop} [∀ w i o c, Decidable (blocked w i o c)]
  {σ : Conf ι (World ι) Op Answer α}

/-- Blocked calls wait for rows that another session has changed. -/
def WaitsForRows (blocked : World ι → ι → Op → Choice → Prop) : Prop :=
  ∀ w i o c, blocked w i o c → RowCall o ∧ ∃ j, j ≠ i ∧ ¬ Settled (w.txn j)

/-- A choice that makes no call fail, with an identifier to draw. -/
def plainChoice (u : Uuid) : Choice := ⟨.none, u, noon⟩

/-- A call that does not go on with a plain choice waits for a row or for a lock. -/
lemma waits_of_stuck (hblocked : WaitsForRows blocked) {i : ι} {o : Op} {u : Uuid}
    (hfresh : o = .uuid4 → σ.world.owner u = .fresh)
    (h : (waiting (machine hashtext) blocked).perform o i (plainChoice u) σ.world = none) :
    (RowCall o ∧ ∃ j, j ≠ i ∧ ¬ Settled (σ.world.txn j)) ∨
    ∃ caseId j, o = .lockCaseChain caseId ∧ j ≠ i ∧
      hashtext caseId.str ∈ (σ.world.txn j).locks := by
  by_cases hb : blocked σ.world i o (plainChoice u)
  · exact .inl (hblocked _ _ _ _ hb)
  · rw [waiting_perform hb] at h
    have hx : exec hashtext o i (plainChoice u) σ.world = none := by
      cases o <;> exact h
    rcases exec_waits hx with hrow | hlock | ⟨huuid, hno⟩
    · exact .inl hrow
    · exact .inr hlock
    · exact absurd (hfresh huuid) hno

/-- **No deadlock**: among disciplined sessions somebody can go on whenever somebody has
something to do. -/
lemma canGo (hblocked : WaitsForRows blocked) (h : Disciplined hashtext σ)
    (hfresh : ∃ u, (∃ i k, σ.prog i = .op .uuid4 k) → σ.world.owner u = .fresh) (hopen : Open σ) :
    CanGo (waiting (machine hashtext) blocked) (fun _ _ _ c => c.fault = .none) σ := by
  obtain ⟨u, hu⟩ := hfresh
  by_contra hstuck
  have hwaits : ∀ i o k, σ.prog i = .op o k →
      (RowCall o ∧ ∃ j, j ≠ i ∧ ¬ Settled (σ.world.txn j)) ∨
      ∃ caseId j, o = .lockCaseChain caseId ∧ j ≠ i ∧
        hashtext caseId.str ∈ (σ.world.txn j).locks := by
    intro i o k hi
    refine waits_of_stuck hblocked (u := u) (fun ho => hu ⟨i, ho ▸ ⟨k, hi⟩⟩) ?_
    by_contra hp
    obtain ⟨⟨r, w⟩, hp⟩ := Option.ne_none_iff_exists'.mp hp
    exact hstuck ⟨i, o, k, plainChoice u, r, w, hi, rfl, hp⟩
  -- who has a lock waits for no row, and the only lock it may ask for is its own
  have hlocks : ∀ j, (σ.world.txn j).locks = [] := by
    intro j
    cases hj : σ.prog j with
    | ret a => rw [h.done j a hj]
    | op o k =>
      obtain ⟨hrow, hlock⟩ := h.demand j o k hj
      rcases hwaits j o k hj with ⟨hr, -⟩ | ⟨caseId, m, rfl, hm, hkm⟩
      · exact (hrow hr).locks
      · refine List.eq_nil_iff_forall_not_mem.mpr fun l hl => ?_
        rw [← hlock caseId rfl l hl] at hkm
        exact h.exclusive j m hm l hl hkm
  -- so nobody waits for a lock, and who waits for a row has changed none
  have hsettled : ∀ j, Settled (σ.world.txn j) := by
    intro j
    cases hj : σ.prog j with
    | ret a =>
      rw [h.done j a hj]
      exact settled_empty
    | op o k =>
      rcases hwaits j o k hj with ⟨hr, -⟩ | ⟨caseId, m, -, -, hkm⟩
      · exact (h.demand j o k hj).1 hr
      · rw [hlocks m] at hkm
        cases hkm
  obtain ⟨i, o, k, hi⟩ := hopen
  rcases hwaits i o k hi with ⟨-, j, -, hj⟩ | ⟨caseId, m, -, -, hkm⟩
  · exact hj (hsettled j)
  · rw [hlocks m] at hkm
    cases hkm

/-! ### Identifiers are enough -/

/-- The calls that draw an identifier. -/
def Draws (o : Op) : Prop := o = .uuid4

/-- A program that draws at most `n` identifiers. -/
abbrev DrawsAtMost {ε α : Type} (n : ℕ) (p : ExceptT ε (Prog Op Answer) α) : Prop :=
  AtMost Draws n p.run

lemma draws_call {o : Op} (ho : o ≠ .uuid4) : DrawsAtMost 0 (call o) := AtMost.call ho

lemma draws_pure {α : Type} {n : ℕ} (a : α) : DrawsAtMost n (pure a : M α) := .ret _ _

lemma draws_throw {α : Type} {n : ℕ} (e : Exn) : DrawsAtMost n (throw e : M α) := .ret _ _

/-- A part that draws nothing comes first. -/
lemma draws_skip {ε α β : Type} {n : ℕ} {p : ExceptT ε (Prog Op Answer) α}
    {f : α → ExceptT ε (Prog Op Answer) β} (hp : DrawsAtMost 0 p)
    (hf : ∀ a, DrawsAtMost n (f a)) : DrawsAtMost n (p >>= f) :=
  (AtMost.ebind hp hf).mono (by omega)

/-- A part that draws one identifier comes first. -/
lemma draws_one {ε α β : Type} {n : ℕ} {p : ExceptT ε (Prog Op Answer) α}
    {f : α → ExceptT ε (Prog Op Answer) β} (hp : DrawsAtMost 1 p)
    (hf : ∀ a, DrawsAtMost n (f a)) : DrawsAtMost (n + 1) (p >>= f) :=
  (AtMost.ebind hp hf).mono (by omega)

lemma draws_ofExcept {α : Type} (r : Except DomainError α) : DrawsAtMost 0 (ofExcept r) := by
  cases r with
  | ok a => exact draws_pure a
  | error e => exact draws_throw _

lemma draws_append (self : AuditService) (a : AppendArgs) : DrawsAtMost 1 (self.append a) := by
  have hrest : ∀ previous, DrawsAtMost 1 (do
      let id ← call .uuid4
      let now ← call .now
      call (.appendEvent (newEvent previous a id now))) := by
    intro previous
    refine draws_one (AtMost.call_one _) fun id => ?_
    exact draws_skip (draws_call (by simp)) fun now => draws_call (by simp)
  obtain ⟨chainEnabled⟩ := self
  refine draws_skip (draws_call (by simp)) fun _ => ?_
  cases chainEnabled with
  | false => exact hrest none
  | true => exact draws_skip (draws_call (by simp)) hrest

lemma draws_requireCase (caseId : Uuid) : DrawsAtMost 0 (requireCase caseId) := by
  refine draws_skip (draws_call (by simp)) fun r => ?_
  cases r with
  | none => exact draws_throw _
  | some c => exact draws_pure _

lemma draws_createCase (self : CaseService) (data : CaseCreate) :
    DrawsAtMost 2 (self.createCase data) := by
  refine draws_skip (draws_call (by simp)) fun sequence => ?_
  refine draws_skip (draws_call (by simp)) fun current => ?_
  by_cases hsequence : sequence < 1
  · simp only [hsequence, if_true]
    exact draws_throw _
  simp only [hsequence, if_false]
  refine draws_one (AtMost.call_one _) fun id => ?_
  refine draws_skip (draws_call (by simp)) fun case => ?_
  refine draws_one (draws_append _ _) fun _ => ?_
  exact draws_skip (draws_call (by simp)) fun _ => draws_pure _

lemma draws_updateCase (self : CaseService) (caseId : Uuid) (data : CaseUpdate) :
    DrawsAtMost 1 (self.updateCase caseId data) := by
  have hget : DrawsAtMost 0 (self.getCase caseId) := by
    refine draws_skip (draws_call (by simp)) fun r => ?_
    cases r with
    | none => exact draws_throw _
    | some c => exact draws_pure _
  have hflush : ∀ case, DrawsAtMost 0 (flushCase case data) := fun case =>
    draws_skip (draws_call (by simp)) fun _ => draws_call (by simp)
  refine draws_skip hget fun case => ?_
  refine draws_skip (hflush case) fun row => ?_
  refine draws_one (draws_append _ _) fun _ => ?_
  exact draws_skip (draws_call (by simp)) fun _ => draws_pure _

lemma draws_deleteEvidence (self : EvidenceService) (caseId evidenceId : Uuid) :
    DrawsAtMost 1 (self.deleteEvidence caseId evidenceId) := by
  have hget : DrawsAtMost 0 (self.getEvidence caseId evidenceId) := by
    refine draws_skip (draws_requireCase caseId) fun _ => ?_
    refine draws_skip (draws_call (by simp)) fun r => ?_
    cases r with
    | none => exact draws_throw _
    | some e => exact draws_pure _
  refine draws_skip hget fun evidence => ?_
  refine draws_skip (draws_call (by simp)) fun _ => ?_
  refine draws_skip (draws_call (by simp)) fun _ => ?_
  refine draws_one (draws_append _ _) fun _ => ?_
  exact draws_call (by simp)

lemma draws_readUpload (v : FileValidator) (chunks : List (List UInt8)) (size : ℕ)
    (content : List UInt8) : DrawsAtMost 0 (readUpload v chunks size content) := by
  induction chunks generalizing size content with
  | nil => exact draws_skip (draws_call (by simp)) fun _ => draws_pure _
  | cons chunk chunks ih =>
    have hrest : DrawsAtMost 0 (do
        call (.localCall (.writeTemp chunk))
        readUpload v chunks (size + chunk.length) (content ++ chunk)) :=
      draws_skip (draws_call (by simp)) fun _ => ih _ _
    refine draws_skip (draws_call (by simp)) fun _ => ?_
    by_cases hbig : v.maxSizeBytes < size + chunk.length
    · simp only [hbig, if_true]
      exact draws_skip (draws_ofExcept _) fun _ => hrest
    · simp only [hbig, if_false]
      exact hrest

lemma draws_receiveUpload (self : EvidenceService) (caseId evidenceId : Uuid)
    (upload : UploadFile) (createdBy : Option String) :
    DrawsAtMost 1 (receiveUpload self caseId evidenceId upload createdBy) := by
  refine draws_skip (draws_readUpload _ _ _ _) fun ⟨size, content⟩ => ?_
  refine draws_skip (draws_call (by simp)) fun _ => ?_
  refine draws_skip (draws_ofExcept _) fun _ => ?_
  refine draws_skip (draws_call (by simp)) fun _ => ?_
  refine draws_skip (draws_call (by simp)) fun r => ?_
  cases r with
  | none =>
    refine draws_one (draws_append _ _) fun _ => ?_
    exact draws_skip (draws_call (by simp)) fun _ => draws_pure _
  | some e => exact draws_throw _

lemma draws_recordUpload (self : EvidenceService) (caseId evidenceId : Uuid)
    (objectKey digest : String) (row : Datetime → Evidence) (createdBy : Option String) :
    DrawsAtMost 2 (recordUpload self caseId evidenceId objectKey digest row createdBy) := by
  refine draws_skip (draws_call (by simp)) fun evidence => ?_
  refine draws_one (draws_append _ _) fun _ => ?_
  refine draws_one (draws_append _ _) fun _ => ?_
  exact draws_skip (draws_call (by simp)) fun _ => draws_pure _

lemma draws_within {α : Type} {n : ℕ} {l : Locals} {p : M α} (hp : DrawsAtMost n p) :
    DrawsAtMost n (within l p) := by
  refine AtMost.bind (n := 0) hp fun r => ?_
  cases r with
  | ok a => exact .ret _ _
  | error e => exact .ret _ _

lemma draws_storeUpload (self : EvidenceService) (caseId evidenceId : Uuid)
    (upload : UploadFile) (sourceType : EvidenceSourceType) (createdBy : Option String)
    (parentEvidenceId : Option Uuid) (cleanedName extension : String) :
    DrawsAtMost 3 (storeUpload self caseId evidenceId upload sourceType createdBy
      parentEvidenceId cleanedName extension) := by
  refine draws_skip (draws_within (draws_call (by simp))) fun _ => ?_
  refine draws_one (draws_within (draws_receiveUpload _ _ _ _ _)) fun ⟨size, content, digest⟩ => ?_
  refine draws_skip (draws_within (draws_call (by simp))) fun _ => ?_
  exact draws_within (draws_recordUpload _ _ _ _ _ _ _)

lemma draws_compensateStorage (objectKey : Option String) (stored : Bool) :
    DrawsAtMost 0 (compensateStorage objectKey stored) := by
  unfold compensateStorage
  split
  · refine AtMost.tryCatch (n := 0) (draws_call (by simp)) fun e => ?_
    split_ifs
    · exact draws_pure _
    · exact draws_throw _
  · exact draws_pure _

lemma draws_recordFailure (self : EvidenceService) (caseId evidenceId : Uuid)
    (actorId : Option String) (reason : String) :
    DrawsAtMost 1 (recordFailure self caseId evidenceId actorId reason) := by
  refine AtMost.tryCatch (n := 0) (draws_one (draws_append _ _) fun _ => draws_call (by simp))
    fun e => ?_
  split_ifs
  · exact draws_call (by simp)
  · exact draws_throw _

lemma draws_handleUpload (self : EvidenceService) (caseId evidenceId : Uuid)
    (createdBy : Option String) (outcome : Except (Exn × Locals) Evidence) :
    DrawsAtMost 1 (handleUpload self caseId evidenceId createdBy outcome) := by
  have hundo : ∀ (l : Locals) (reason : String) (p : M Evidence), DrawsAtMost 0 p →
      DrawsAtMost 1 (do
        call .rollback
        compensateStorage l.objectKey l.stored
        recordFailure self caseId evidenceId createdBy reason
        p) := by
    intro l reason p hp
    refine draws_skip (draws_call (by simp)) fun _ => ?_
    refine draws_skip (draws_compensateStorage _ _) fun _ => ?_
    exact draws_one (draws_recordFailure _ _ _ _ _) fun _ => hp
  match outcome with
  | .ok evidence => exact draws_pure _
  | .error (e, l) =>
    dsimp only [handleUpload]
    split_ifs
    · exact hundo l _ _ (draws_throw _)
    · exact hundo l _ _ (draws_throw _)
    · exact draws_throw _

lemma draws_cleanUpload (tempPath : Bool) : DrawsAtMost 0 (cleanUpload tempPath) := by
  refine draws_skip (draws_call (by simp)) fun _ => ?_
  split_ifs
  · exact draws_call (by simp)
  · exact draws_pure _

lemma draws_uploadEvidence (self : EvidenceService) (caseId : Uuid) (upload : UploadFile)
    (sourceType : EvidenceSourceType) (createdBy : Option String)
    (parentEvidenceId : Option Uuid) :
    DrawsAtMost 6 (self.uploadEvidence caseId upload sourceType createdBy parentEvidenceId) := by
  refine draws_skip (draws_requireCase caseId) fun _ => ?_
  refine draws_skip (draws_ofExcept _) fun ⟨cleanedName, extension⟩ => ?_
  refine draws_one (AtMost.call_one _) fun evidenceId => ?_
  refine draws_one (draws_append _ _) fun _ => ?_
  refine draws_skip (draws_call (by simp)) fun _ => ?_
  refine AtMost.ebind (m := 3) (n := 1) (AtMost.lift (draws_storeUpload _ _ _ _ _ _ _ _ _))
    fun outcome => ?_
  refine AtMost.bind (m := 1) (n := 0) (draws_handleUpload _ _ _ _ _) fun r => ?_
  refine AtMost.bind (m := 0) (n := 0) (draws_cleanUpload _) fun r' => ?_
  cases r' <;> exact .ret _ _

/-- A request draws at most six identifiers: an upload its own, and one for each of five
events. -/
lemma draws_handle (app : App) (request : Request) : AtMost Draws 6 (app.handle request) := by
  have hsession : ∀ {α : Type} {n : ℕ} {p : M α} {f : α → Result}, n ≤ 6 → DrawsAtMost n p →
      AtMost Draws 6 (withSession (f <$> p)) := by
    intro α n p f hn hp
    refine (AtMost.bind (n := 0) (AtMost.emap hp) fun r => ?_).mono (by omega)
    exact AtMost.bind (m := 0) (n := 0) (AtMost.call (by simp [Draws])) fun _ => .ret _ _
  cases request with
  | upload => exact hsession le_rfl (draws_uploadEvidence _ _ _ _ _ _)
  | delete => exact hsession (by omega) (draws_deleteEvidence _ _ _)
  | createCase => exact hsession (by omega) (draws_createCase _ _)
  | updateCase => exact hsession (by omega) (draws_updateCase _ _ _)

/-- So many identifiers are still to be drawn. -/
def Enough (n : ℕ) (w : World ι) : Prop :=
  ∃ free : Finset Uuid, n ≤ free.card ∧ ∀ u ∈ free, w.owner u = .fresh

/-- Only a drawn identifier is no longer to be drawn. -/
lemma perform_owner {o : Op} {i : ι} {c : Choice} {w v : World ι} {r : Answer o}
    (h : perform hashtext o i c w = some (r, v)) :
    v.owner = w.owner ∨ (o = .uuid4 ∧ v.owner = Function.update w.owner c.uuid (.drawn i)) := by
  have hexec : ∀ {r' : Answer o}, exec hashtext o i c w = some (r', v) →
      v.owner = w.owner ∨ (o = .uuid4 ∧ v.owner = Function.update w.owner c.uuid (.drawn i)) := by
    intro r' hx
    obtain ⟨heffect, -⟩ := exec_effect hx
    cases heffect with
    | uuid4 => exact .inr ⟨rfl, rfl⟩
    | _ => exact .inl rfl
  obtain ⟨hx, -⟩ | ⟨e, -, -, rfl⟩ | ⟨e, r', -, -, hx⟩ := perform_cases hashtext h
  · exact hexec hx
  · exact .inl rfl
  · exact hexec hx

lemma enough_perform {o : Op} {i : ι} {c : Choice} {w v : World ι} {r : Answer o} {n : ℕ}
    (h : perform hashtext o i c w = some (r, v)) (hw : Enough (n + 1) w) : Enough n v := by
  obtain ⟨free, hn, hfree⟩ := hw
  rcases perform_owner h with hv | ⟨-, hv⟩
  · exact ⟨free, by omega, by rwa [hv]⟩
  · refine ⟨free.erase c.uuid, ?_, fun u hu => ?_⟩
    · have := Finset.pred_card_le_card_erase (s := free) (a := c.uuid)
      omega
    · obtain ⟨hne, hu⟩ := Finset.mem_erase.mp hu
      rw [hv, Function.update_of_ne hne]
      exact hfree u hu

lemma enough_keep {o : Op} {i : ι} {c : Choice} {w v : World ι} {r : Answer o} {n : ℕ}
    (h : perform hashtext o i c w = some (r, v)) (ho : ¬ Draws o) (hw : Enough n w) :
    Enough n v := by
  obtain ⟨free, hn, hfree⟩ := hw
  rcases perform_owner h with hv | ⟨hu, -⟩
  · exact ⟨free, hn, by rwa [hv]⟩
  · exact absurd hu ho

omit [DecidableEq ι] in
/-- Whoever is about to draw has a part of the budget left. -/
lemma exists_fresh {b : ι → ℕ} (hb : ∀ i, AtMost Draws (b i) (σ.prog i))
    (henough : Enough (∑ i, b i) σ.world) :
    ∃ u, (∃ i k, σ.prog i = .op .uuid4 k) → σ.world.owner u = .fresh := by
  obtain ⟨free, hcard, hfree⟩ := henough
  by_cases hdraw : ∃ i k, σ.prog i = .op .uuid4 k
  · obtain ⟨i, k, hi⟩ := hdraw
    have hbi := hb i
    rw [hi] at hbi
    have hpos : 0 < b i := by
      generalize b i = n at hbi
      cases hbi with
      | charge => omega
      | free ho => exact absurd rfl ho
    have hsum := Finset.single_le_sum (f := b) (fun _ _ => Nat.zero_le _) (Finset.mem_univ i)
    obtain ⟨u, hu⟩ := Finset.card_pos.mp (show 0 < free.card by omega)
    exact ⟨u, fun _ => hfree u hu⟩
  · exact ⟨0, fun h => absurd h hdraw⟩

/-! ### Every run -/

/-- **Requests neither deadlock nor run forever.** Wherever a run of requests has come to, with
whatever failures, and however long calls wait for rows that others have changed: only finitely
many calls are left, and with identifiers for all the run can be completed without a failure,
every request returned and nothing locked or uncommitted left behind. -/
theorem requests_complete (app : App) (requests : ι → Request) (hblocked : WaitsForRows blocked)
    {w : World ι} (hw : ∀ i, w.txn i = {}) (free : Finset Uuid)
    (hfree : ∀ u ∈ free, w.owner u = .fresh) (henough : 6 * Fintype.card ι ≤ free.card)
    {σ : Conf ι (World ι) Op Answer (Except Exn Result)}
    (hσ : Reach (waiting (machine hashtext) blocked) (fun _ _ _ _ => True)
      ⟨w, fun i => app.handle (requests i)⟩ σ) :
    Acc (Next (waiting (machine hashtext) blocked)) σ ∧
    ∃ τ, Reach (waiting (machine hashtext) blocked) (fun _ _ _ c => c.fault = .none) σ τ ∧
      ∀ i, (∃ r, τ.prog i = .ret r) ∧ τ.world.txn i = {} := by
  refine ⟨(next_wellFounded _).apply σ, ?_⟩
  have hall : ∀ τ, Reach (waiting (machine hashtext) blocked) (fun _ _ _ c => c.fault = .none) σ τ →
      Reach (machine hashtext) (fun _ _ _ _ => True) ⟨w, fun i => app.handle (requests i)⟩ τ :=
    fun τ hτ => reach_of_waiting (hσ.trans (hτ.mono fun _ _ _ _ _ => trivial))
  have hgo : ∀ τ, Reach (waiting (machine hashtext) blocked) (fun _ _ _ c => c.fault = .none) σ τ →
      Open τ → CanGo (waiting (machine hashtext) blocked) (fun _ _ _ c => c.fault = .none) τ := by
    intro τ hτ hopen
    refine canGo hblocked (disciplined_of_reach hw (hall τ hτ)) ?_ hopen
    obtain ⟨b, hb, hleft⟩ := budget_reach (b := fun _ => 6)
      (fun _ _ _ _ _ _ _ h => enough_perform h) (fun _ _ _ _ _ _ _ h => enough_keep h)
      (fun i => draws_handle app (requests i)) ⟨free, by simpa [mul_comm] using henough, hfree⟩
      (hall τ hτ)
    exact exists_fresh hb hleft
  obtain ⟨τ, hτ, hret⟩ := completes hgo
  refine ⟨τ, hτ, fun i => ⟨hret i, ?_⟩⟩
  obtain ⟨r, hr⟩ := hret i
  exact (disciplined_of_reach hw (hall τ hτ)).done i r hr

end Progress

section Example

/-- The delete of a row also sets the parent of its children to null, and waits for others who
delete one of these. -/
def waitsForChild {ι : Type} (w : World ι) (i : ι) (o : Op) (_ : Choice) : Prop :=
  match o with
  | .deleteEvidence p => ∃ j, j ≠ i ∧
      ∃ r ∈ w.evidence, r.parentEvidenceId = some p ∧ (w.txn j).deleted.contains r.id
  | _ => False

instance waitsForChild.decidable {ι : Type} [DecidableEq ι] [Fintype ι] (w : World ι) (i : ι)
    (o : Op) (c : Choice) : Decidable (waitsForChild w i o c) := by
  apply Op.casesOn (motive := fun o => Decidable (waitsForChild w i o c)) o <;> intros <;>
    dsimp only [waitsForChild] <;> infer_instance

lemma waitsForChild_rows {ι : Type} : WaitsForRows (waitsForChild (ι := ι)) := by
  intro w i o c h
  cases o with
  | deleteEvidence p =>
    obtain ⟨j, hj, r, -, -, hr⟩ := h
    refine ⟨trivial, j, hj, fun hs => ?_⟩
    simp [hs.deleted] at hr
  | _ => exact h.elim

def familyCase : Case := ⟨2, "CASE-2026-000001", "Shipment", none, .created, none, noon, noon⟩

def familyRow (id : Uuid) (parentEvidenceId : Option Uuid) : Evidence :=
  ⟨id, 2, "a.txt", "a.txt", objectKeyOf 2 id "a.txt", "text/plain", ".txt", 2, id.str, .other,
    .unknown, parentEvidenceId, JsonText.Dict.empty, none, noon⟩

/-- A case with a row of evidence and its child. -/
def family : World (Fin 3) := { World.empty with
  cases := [familyCase]
  evidence := [familyRow 10 none, familyRow 11 (some 10)]
  owner := fun u => if u = 2 ∨ u = 10 ∨ u = 11 then .old else .fresh }

/-- The child and the parent are deleted, and a file is uploaded. -/
def familyRequests : Fin 3 → Request
  | 0 => .delete 2 11
  | 1 => .delete 2 10
  | 2 => .upload 2 SessionRuns.textUpload .other none none

def familyApp : Conf (Fin 3) (World (Fin 3)) Op Answer (Except Exn Result) :=
  ⟨family, fun i => SessionRuns.textApp.handle (familyRequests i)⟩

/-- The first session has deleted the child and has the lock of the case. -/
def familyCalls : List (Fin 3 × Choice) :=
  SessionRuns.calls 0 100 5 ++ (SessionRuns.calls 1 200 3 ++ SessionRuns.calls 2 300 2)

lemma family_waits : (run (waiting (machine fun _ => 0) waitsForChild) familyApp familyCalls).map
    (fun σ => ((step (waiting (machine fun _ => 0) waitsForChild) σ 1 (plainChoice 400)).isSome,
      (step (waiting (machine fun _ => 0) waitsForChild) σ 2 (plainChoice 400)).isSome)) =
    some (false, false) := by
  decide

/-- So many identifiers as three requests may draw. -/
def familyFree : Finset Uuid := Finset.univ.image fun k : Fin 18 => Fin.ofNat _ (500 + k)

/-- The delete of the parent waits for the child, and the upload for the lock of the case. From
there the three requests can be completed. -/
theorem requests_complete_family : ∃ σ τ,
    run (waiting (machine fun _ => 0) waitsForChild) familyApp familyCalls = some σ ∧
    step (waiting (machine fun _ => 0) waitsForChild) σ 1 (plainChoice 400) = none ∧
    step (waiting (machine fun _ => 0) waitsForChild) σ 2 (plainChoice 400) = none ∧
    Reach (waiting (machine fun _ => 0) waitsForChild) (fun _ _ _ c => c.fault = .none) σ τ ∧
    ∀ i, (∃ r, τ.prog i = .ret r) ∧ τ.world.txn i = {} := by
  obtain ⟨σ, hσ, hwaits⟩ := Option.map_eq_some_iff.mp family_waits
  obtain ⟨-, τ, hτ, hends⟩ := requests_complete SessionRuns.textApp familyRequests
    waitsForChild_rows (w := family) (fun _ => rfl) familyFree
    (Finset.forall_mem_image.mpr (by decide)) (by decide +kernel)
    (reach_of_run .refl (fun _ _ _ _ => trivial) hσ)
  exact ⟨σ, τ, hσ, by simpa using congrArg Prod.fst hwaits, by simpa using congrArg Prod.snd hwaits,
    hτ, hends⟩

end Example

end WhaleMas.Deadlock
