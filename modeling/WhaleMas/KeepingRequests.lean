import WhaleMas.EvidenceKeeping
import WhaleMas.RequestEnds

/-!
Uploads and deletions under the rules of the evidence that is kept. An upload that returns has
its row committed and its bytes stored; a deletion that returns leaves neither.
-/

namespace WhaleMas.KeepingRequests

open WhaleMas.Models WhaleMas.AuditLog WhaleMas.Program WhaleMas.RelyGuarantee
open WhaleMas.Beside WhaleMas.Database WhaleMas.Services WhaleMas.EvidenceLife
open WhaleMas.SessionFrame WhaleMas.EvidenceKeeping
open WhaleMas.Numbering (Plain exec_plain)
open WhaleMas.RequestEnds (caseNotFound evidenceNotFound)

variable {ι : Type} {asks : ι → Uuid → Prop} {i : ι} {w v : World ι × Placed} {u : Uuid}
  {r : Evidence} {data : List UInt8} {fails : ι → Op → Exn → Prop}

/-! ### What a session knows -/

/-- The session drew the identifier. -/
def Owns (i : ι) (u : Uuid) (w : World ι × Placed) : Prop := w.1.owner u = .drawn i

/-- The session has no row to insert or to delete. -/
def Idle (i : ι) (w : World ι × Placed) : Prop :=
  (w.1.txn i).evidence = [] ∧ (w.1.txn i).deleted = []

lemma evidenceFor_idle (h : Idle i w) : w.1.evidenceFor i = w.1.evidence := by
  simp [World.evidenceFor, h.1, h.2]

/-- An upload has drawn its identifier and done nothing with it. -/
structure Fresh (i : ι) (u : Uuid) (w : World ι × Placed) : Prop where
  idle : Idle i w
  owns : Owns i u w
  new : ¬ w.2 u
  vacant : Vacant u w

/-- An upload has stored its object. -/
structure Stored (i : ι) (u : Uuid) (key : String) (o : StoredObject) (w : World ι × Placed) :
    Prop where
  idle : Idle i w
  owns : Owns i u w
  new : ¬ w.2 u
  object : w.1.objects key = some o
  others : ∀ c n, objectKeyOf c u n ≠ key → w.1.objects (objectKeyOf c u n) = none

/-- The object of the row is there, unless somebody asks to delete the row. -/
def Secured (asks : ι → Uuid → Prop) (r : Evidence) (data : List UInt8) (w : World ι × Placed) :
    Prop := (∀ j, ¬ asks j r.id) → w.1.objects r.objectKey = some ⟨data, r.mimeType⟩

/-- An upload has inserted its row. -/
structure Inserted (asks : ι → Uuid → Prop) (i : ι) (r : Evidence) (data : List UInt8)
    (w : World ι × Placed) : Prop where
  txn : (w.1.txn i).evidence = [r] ∧ (w.1.txn i).deleted = []
  owns : Owns i r.id w
  placed : w.2 r.id
  describes : Describes r data
  secured : Secured asks r data w

/-- The row is known, and its object is the one it describes, or none. -/
def Genuine (r : Evidence) (w : World ι × Placed) : Prop := w.2 r.id ∧ Backed r w.1

/-- An upload is done: its row is committed, unless somebody asks to delete it. -/
structure Kept (asks : ι → Uuid → Prop) (i : ι) (r : Evidence) (data : List UInt8)
    (w : World ι × Placed) : Prop where
  owns : Owns i r.id w
  genuine : Genuine r w
  describes : Describes r data
  row : (∀ j, ¬ asks j r.id) → ∃ s ∈ w.1.evidence, Like r s
  secured : Secured asks r data w

/-- The rows that are known are committed. -/
def Present (known : Evidence → Prop) (w : World ι × Placed) : Prop :=
  ∀ r, known r → ∃ s ∈ w.1.evidence, Like r s

/-- Why a search for a row may say that there is none. -/
def Missed (fails : ι → Op → Exn → Prop) (i : ι) (known : Evidence → Prop) (caseId u : Uuid)
    (e : Exn) : Prop :=
  ∀ d, e = .domain d → d.code = evidenceNotFound.code →
    (∃ o, fails i o e) ∨ ∀ r, known r → r.caseId = caseId → r.id ≠ u

/-! ### Stable knowledge -/

lemma stable_owns : Stable (rules asks fails) i (Owns i u) := fun _ _ h _ hr _ => Rely.owner hr u h

lemma stable_idle : Stable (rules asks fails) i (Idle i) := by
  intro w v h _ hr _
  rw [Idle, Rely.txn hr]
  exact h

lemma stable_fresh : Stable (rules asks fails) i (Fresh i u) := by
  intro w v h hw hr hv
  have hnew : ¬ v.2 u := fun hu => h.new ((Rely.mine hr u h.owns).mp hu)
  refine ⟨stable_idle w v h.idle hw hr hv, stable_owns w v h.owns hw hr hv, hnew, fun c n => ?_⟩
  rw [Rely.kept hr u h.owns (fun hu => absurd hu h.new) c n]
  exact h.vacant c n

lemma stable_stored {c : Uuid} {n : String} {o : StoredObject} :
    Stable (rules asks fails) i (Stored i u (objectKeyOf c u n) o) := by
  intro w v h hw hr hv
  have hnew : ¬ v.2 u := fun hu => h.new ((Rely.mine hr u h.owns).mp hu)
  have hsame := Rely.kept hr u h.owns fun hu => absurd hu h.new
  refine ⟨stable_idle w v h.idle hw hr hv, stable_owns w v h.owns hw hr hv, hnew,
    (hsame c n).trans h.object, fun c' n' hne => (hsame c' n').trans (h.others c' n' hne)⟩

lemma Secured.rely (h : Secured asks r data w) (howns : Owns i r.id w) (hd : Describes r data)
    (hr : Rely asks i w v) : Secured asks r data v := by
  intro hno
  rw [hd.key, hr.kept r.id howns (fun _ => hno), ← hd.key]
  exact h hno

lemma stable_inserted : Stable (rules asks fails) i (Inserted asks i r data) := by
  intro w v h _ hr _
  refine ⟨?_, Rely.owner hr r.id h.owns, hr.moves.placed r.id h.placed, h.describes,
    h.secured.rely h.owns h.describes hr⟩
  rw [Rely.txn hr]
  exact h.txn

lemma Genuine.moves (h : Genuine r w) (hm : Moves asks w v) : Genuine r v :=
  ⟨hm.placed r.id h.1, h.2.loses (hm.objects r.id h.1)⟩

lemma stable_genuine : Stable (rules asks fails) i (Genuine r) :=
  fun _ _ h _ hr _ => h.moves (Rely.moves hr)

lemma stable_kept : Stable (rules asks fails) i (Kept asks i r data) := by
  intro w v h _ hr _
  refine ⟨Rely.owner hr r.id h.owns, h.genuine.moves (Rely.moves hr), h.describes, fun hno => ?_,
    h.secured.rely h.owns h.describes hr⟩
  obtain ⟨s, hs, hlike⟩ := h.row hno
  rcases hr.moves.rows s hs with ⟨t, ht, hlike'⟩ | ⟨-, j, hj⟩
  · exact ⟨t, ht, hlike.trans hlike'⟩
  · exact absurd (hlike.id ▸ hj) (hno j)

lemma stable_present {known : Evidence → Prop} (hknown : ∀ r, known r → ∀ j, ¬ asks j r.id) :
    Stable (rules asks fails) i (Present known) := by
  intro w v h _ hr _ r hk
  obtain ⟨s, hs, hlike⟩ := h r hk
  rcases hr.moves.rows s hs with ⟨t, ht, hlike'⟩ | ⟨-, j, hj⟩
  · exact ⟨t, ht, hlike.trans hlike'⟩
  · exact absurd (hlike.id ▸ hj) (hknown r hk j)

lemma stable_gone : Stable (rules asks fails) i (Gone u) :=
  fun _ _ h _ hr _ => hr.moves.gone u h

/-! ### Calls -/

variable [DecidableEq ι] [Fintype ι] {hashtext : String → ℤ} {o : Op}
  {G F : World ι × Placed → Prop}

/-- A call whose demand is met. -/
lemma triple_op {Q : o.Response → World ι × Placed → Prop} {E : Exn → World ι × Placed → Prop}
    (hG : Stable (rules asks fails) i G) (hd : ∀ w, Inv asks w → G w → Demand asks w i o)
    (hpost : ∀ w c a v, Inv asks w → G w → (keeping hashtext).perform o i c w = some (a, v) →
      orElse Q E a v) :
    ETriple (keeping hashtext) (rules asks fails) i G (call o) Q E := by
  refine triple_call hG hd fun w c a v hw hg _ hp => ?_
  obtain ⟨hv, hrely, -⟩ := keeps_step hw (hd w hw hg) hp
  exact ⟨hv, hrely, hpost w c a v hw hg hp⟩

lemma perform_keeping {c : Choice} {a : Answer o} (h : (keeping hashtext).perform o i c w =
    some (a, v)) : Effect i c w.1 o v.1 ∧ v.2 = notePlaced i o a w.2 := by
  obtain ⟨hp, hg⟩ := perform_recording h
  exact ⟨perform_effect hp, hg⟩

lemma Owns.step {c : Choice} {a : Answer o} (h : Owns i u w)
    (hp : (keeping hashtext).perform o i c w = some (a, v)) : Owns i u v := by
  rcases (perform_keeping hp).1.owner u with ho | ⟨ho, -⟩
  · exact ho.trans h
  · rw [h] at ho
    cases ho

/-- What a session drew stays its own, whatever it calls. -/
lemma triple_owns (hd : ∀ w, Owns i u w → Demand asks w i o) :
    ETriple (keeping hashtext) (rules asks fails) i (Owns i u) (call o) (fun _ => Owns i u)
      fun _ => Owns i u := by
  refine triple_op stable_owns (fun w _ h => hd w h) fun w c a v _ h hp => ?_
  cases a with
  | ok _ => exact h.step hp
  | error _ => exact h.step hp

/-- A call of session `i` changes no row, no object and no deletion. -/
structure Quiet (i : ι) (w v : World ι × Placed) : Prop where
  txn : ∀ j, j ≠ i → v.1.txn j = w.1.txn j
  evidence : v.1.evidence = w.1.evidence
  objects : v.1.objects = w.1.objects
  pending : (v.1.txn i).evidence = (w.1.txn i).evidence
  deleted : (v.1.txn i).deleted = (w.1.txn i).deleted
  owner : ∀ u, Owns i u w → Owns i u v
  placed : v.2 = w.2

/-- The calls that are quiet. -/
def Hushed : Op → Prop
  | .createEvidence _ | .deleteEvidence _ | .putObject _ _ _ | .deleteObject _ | .commit
  | .rollback | .close => False
  | _ => True

lemma quiet_step {c : Choice} {a : Answer o} (ho : Hushed o)
    (hp : (keeping hashtext).perform o i c w = some (a, v)) : Quiet i w v := by
  obtain ⟨heffect, hg⟩ := perform_keeping hp
  obtain ⟨x, g⟩ := v
  have hrecord : g = w.2 := hg.trans (notePlaced_of_ne (by
    rintro row rfl
    exact ho))
  have hsame : x.evidence = w.1.evidence → x.objects = w.1.objects →
      (x.txn i).evidence = (w.1.txn i).evidence → (x.txn i).deleted = (w.1.txn i).deleted →
      Quiet i w (x, g) := fun he hobj hpend hdel =>
    ⟨fun j hj => heffect.others hj, he, hobj, hpend, hdel, fun _ h => h.step hp, hrecord⟩
  cases heffect with
  | nothing | uuid4 | nextSequenceValue => exact hsame rfl rfl rfl rfl
  | createCase | flushCase | lockCaseChain | appendEvent =>
    exact hsame rfl rfl (by simp) (by simp)
  | _ => exact ho.elim

/-- What neither the others nor the quiet calls of the session itself take away. -/
structure Knows (asks : ι → Uuid → Prop) (fails : ι → Op → Exn → Prop) (i : ι)
    (G : World ι × Placed → Prop) : Prop where
  stable : Stable (rules asks fails) i G
  quiet : ∀ w v, Quiet i w v → G w → G v

lemma triple_quiet (hG : Knows asks fails i G) (ho : Hushed o) :
    ETriple (keeping hashtext) (rules asks fails) i G (call o) (fun _ => G) fun _ => G := by
  have hd : ∀ w, Demand asks w i o := fun w => by cases o <;> trivial
  refine triple_op hG.stable (fun w _ _ => hd w) fun w c a v _ h hp => ?_
  cases a with
  | ok _ => exact hG.quiet w v (quiet_step ho hp) h
  | error _ => exact hG.quiet w v (quiet_step ho hp) h

/-- A quiet call that raises nothing by itself. -/
lemma triple_plain (hG : Knows asks fails i G) (ho : Hushed o) (hplain : Plain o) :
    ETriple (keeping hashtext) (rules asks fails) i G (call o) (fun _ => G)
      fun e _ => fails i o e := by
  have hd : ∀ w, Demand asks w i o := fun w => by cases o <;> trivial
  refine triple_call hG.stable (fun w _ _ => hd w) fun w c a v hw h hc hp => ?_
  obtain ⟨hv, hrely, -⟩ := keeps_step hw (hd w) hp
  have hg := hG.quiet w v (quiet_step ho hp) h
  obtain ⟨hp, -⟩ := perform_recording hp
  change perform hashtext o i c w.1 = some (a, v.1) at hp
  refine ⟨hv, hrely, ?_⟩
  obtain ⟨hx, -⟩ | ⟨e, hf, rfl, -⟩ | ⟨e, a', hf, rfl, -⟩ := perform_cases hashtext hp
  · obtain ⟨b, rfl⟩ := exec_plain hplain hx
    exact hg
  · exact hc e (.inl hf)
  · exact hc e (.inr hf)

/-- A commit, whether it had its effect or not. -/
lemma triple_commit {Q : World ι × Placed → Prop} (hG : Stable (rules asks fails) i G)
    (hQ : ∀ w, Inv asks w → G w → Q (w.1.commit i, w.2)) (hGF : ∀ w, G w → F w)
    (hQF : ∀ w, Q w → F w) :
    ETriple (keeping hashtext) (rules asks fails) i G (call .commit) (fun _ => Q) fun _ => F := by
  refine triple_op hG (fun _ _ _ => trivial) fun w c a v hw h hp => ?_
  obtain ⟨x, g⟩ := v
  obtain ⟨hp, rfl⟩ := perform_recording hp
  change perform hashtext .commit i c w.1 = some (a, x) at hp
  obtain ⟨hx, -⟩ | ⟨e, -, rfl, rfl⟩ | ⟨e, a', -, rfl, hx⟩ := perform_cases hashtext hp
  · obtain ⟨rfl, rfl⟩ := Prod.mk.inj (Option.some.inj hx)
    exact hQ w hw h
  · exact hGF w h
  · obtain ⟨-, rfl⟩ := Prod.mk.inj (Option.some.inj hx)
    exact hQF _ (hQ w hw h)

/-- The calls of an append are quiet. -/
lemma triple_append (hG : Knows asks fails i G) (self : AuditService) (a : AppendArgs) :
    ETriple (keeping hashtext) (rules asks fails) i G (self.append a) (fun _ => G) fun _ => G :=
  triple_append_of (triple_quiet hG trivial) (triple_quiet hG trivial) (triple_quiet hG trivial)
    (fun _ => triple_quiet hG trivial) fun _ _ _ => triple_quiet hG trivial

/-! ### Uploads -/

omit [DecidableEq ι] [Fintype ι] in
lemma Quiet.idle (h : Quiet i w v) (hw : Idle i w) : Idle i v :=
  ⟨h.pending.trans hw.1, h.deleted.trans hw.2⟩

omit [DecidableEq ι] [Fintype ι] in
lemma knows_idle : Knows asks fails i (Idle i) := ⟨stable_idle, fun _ _ h hw => h.idle hw⟩

omit [DecidableEq ι] [Fintype ι] in
lemma knows_fresh : Knows asks fails i (Fresh i u) where
  stable := stable_fresh
  quiet := fun w v h hw => ⟨h.idle hw.idle, h.owner u hw.owns, h.placed ▸ hw.new,
    fun c n => by rw [h.objects]; exact hw.vacant c n⟩

omit [DecidableEq ι] [Fintype ι] in
lemma knows_inserted : Knows asks fails i (Inserted asks i r data) where
  stable := stable_inserted
  quiet := fun w v h hw => ⟨⟨h.pending.trans hw.txn.1, h.deleted.trans hw.txn.2⟩,
    h.owner r.id hw.owns, h.placed ▸ hw.placed, hw.describes,
    fun hno => by rw [h.objects]; exact hw.secured hno⟩

omit [DecidableEq ι] [Fintype ι] in
lemma knows_kept : Knows asks fails i (Kept asks i r data) where
  stable := stable_kept
  quiet := fun w v h hw => by
    refine ⟨h.owner r.id hw.owns, ⟨h.placed ▸ hw.genuine.1, ?_⟩, hw.describes, fun hno => ?_,
      fun hno => by rw [h.objects]; exact hw.secured hno⟩
    · exact hw.genuine.2.loses fun c n => .inl (by rw [h.objects])
    · rw [h.evidence]
      exact hw.row hno

omit [Fintype ι] in
/-- A commit of a session that has nothing to commit for its evidence. -/
lemma Fresh.commit (h : Fresh i u w) : Fresh i u (w.1.commit i, w.2) :=
  ⟨by simp [Idle], h.owns, h.new, h.vacant⟩

lemma triple_draw : ETriple (keeping hashtext) (rules asks fails) i (Idle i) (call .uuid4)
    (fun u => Fresh i u) fun _ _ => True := by
  refine triple_op stable_idle (fun _ _ _ => trivial) fun w c a v hw h hp => ?_
  obtain ⟨x, g⟩ := v
  have hquiet := quiet_step (o := .uuid4) trivial hp
  obtain ⟨hp, rfl⟩ := perform_recording hp
  change perform hashtext .uuid4 i c w.1 = some (a, x) at hp
  obtain ⟨hx, -⟩ | ⟨e, -, rfl, -⟩ | ⟨e, a', -, rfl, -⟩ := perform_cases hashtext hp
  · simp only [exec] at hx
    split_ifs at hx with hfresh
    obtain ⟨rfl, rfl⟩ := Prod.mk.inj (Option.some.inj hx)
    exact ⟨hquiet.idle h, by simp [Owns, World.draw], fun hu => hw.placed _ hu hfresh,
      hw.bare _ hfresh⟩
  · trivial
  · trivial

/-- The object is stored, or the upload fails. -/
lemma triple_put {c : Uuid} {n : String} {contentType : String} :
    ETriple (keeping hashtext) (rules asks fails) i (Fresh i u)
      (call (.putObject (objectKeyOf c u n) data contentType))
      (fun _ => Stored i u (objectKeyOf c u n) ⟨data, contentType⟩) fun _ => Owns i u := by
  refine triple_op stable_fresh (fun w _ h => ⟨c, u, n, rfl, h.owns, h.new⟩)
    fun w d a v hw h hp => ?_
  obtain ⟨x, g⟩ := v
  have howns := h.owns.step hp
  obtain ⟨hp, rfl⟩ := perform_recording hp
  change perform hashtext (.putObject (objectKeyOf c u n) data contentType) i d w.1 =
    some (a, x) at hp
  obtain ⟨hx, -⟩ | ⟨e, -, rfl, -⟩ | ⟨e, a', -, rfl, -⟩ := perform_cases hashtext hp
  · obtain ⟨rfl, rfl⟩ := Prod.mk.inj (Option.some.inj hx)
    refine ⟨h.idle, howns, h.new, by simp [World.setObject], fun c' n' hne => ?_⟩
    simpa [World.setObject, hne] using h.vacant c' n'
  · exact howns
  · exact howns

omit [DecidableEq ι] [Fintype ι] in
/-- A row that describes what was stored is backed. -/
lemma Stored.backed {key : String} (h : Stored i u key ⟨data, r.mimeType⟩ w) (hid : r.id = u)
    (hkey : r.objectKey = key) (hd : Describes r data) : Backed r w.1 := by
  subst hid
  subst hkey
  refine ⟨data, hd, fun c n => ?_⟩
  by_cases hk : objectKeyOf c r.id n = r.objectKey
  · exact .inr ⟨hk, h.object⟩
  · exact .inl (h.others c n hk)

/-- The row is inserted, or the upload fails. -/
lemma triple_insert {row : Datetime → Evidence} {key contentType : String}
    (hrow : ∀ t, (row t).id = u ∧ (row t).objectKey = key ∧ (row t).mimeType = contentType ∧
      Describes (row t) data) {c : Uuid} {n : String} (hkey : key = objectKeyOf c u n) :
    ETriple (keeping hashtext) (rules asks fails) i (Stored i u key ⟨data, contentType⟩)
      (call (.createEvidence row))
      (fun r w => (∃ t, r = row t) ∧ Inserted asks i r data w) fun _ => Owns i u := by
  subst hkey
  have hback : ∀ w, Stored i u (objectKeyOf c u n) ⟨data, contentType⟩ w → ∀ t,
      (row t).id = u ∧ Backed (row t) w.1 := fun w h t => by
    obtain ⟨hid, hk, hmime, hd⟩ := hrow t
    subst hmime
    exact ⟨hid, h.backed hid hk hd⟩
  refine triple_op stable_stored (fun w _ h => ⟨h.idle.1, u, h.owns, h.new, hback w h⟩)
    fun w d a v hw h hp => ?_
  obtain ⟨x, g⟩ := v
  have howns := h.owns.step hp
  obtain ⟨hp, rfl⟩ := perform_recording hp
  change perform hashtext (.createEvidence row) i d w.1 = some (a, x) at hp
  obtain ⟨hx, -⟩ | ⟨e, -, rfl, -⟩ | ⟨e, a', -, rfl, -⟩ := perform_cases hashtext hp
  · simp only [exec, execCreateEvidence] at hx
    split_ifs at hx
    · obtain ⟨rfl, rfl⟩ := Prod.mk.inj (Option.some.inj hx)
      exact howns
    · obtain ⟨rfl, rfl⟩ := Prod.mk.inj (Option.some.inj hx)
      obtain ⟨hid, hk, hmime, hd⟩ := hrow d.now
      refine ⟨⟨d.now, rfl⟩, ⟨by simp [h.idle.1], by simp [h.idle.2]⟩, hid ▸ howns,
        .inr ⟨d.now, rfl⟩, hd, fun _ => ?_⟩
      rw [hk, hmime]
      exact h.object
  · exact howns
  · exact howns

omit [Fintype ι] in
/-- The row of an upload is committed. -/
lemma Inserted.commit (h : Inserted asks i r data w) (hw : Inv asks w) :
    Kept asks i r data (w.1.commit i, w.2) := by
  have hmem : r ∈ (w.1.txn i).evidence := by simp [h.txn.1]
  obtain ⟨-, hplaced, hbacked, -⟩ := hw.pending i r hmem
  exact ⟨h.owns, ⟨hplaced, hbacked⟩, h.describes,
    fun _ => like_commit_evidence (.inr hmem) (by simp [h.txn.2]), h.secured⟩

lemma triple_recordUpload {self : EvidenceService} {caseId : Uuid} {key digest : String}
    {row : Datetime → Evidence} {createdBy : Option String} {contentType : String}
    (hrow : ∀ t, (row t).id = u ∧ (row t).objectKey = key ∧ (row t).mimeType = contentType ∧
      Describes (row t) data) {c : Uuid} {n : String} (hkey : key = objectKeyOf c u n) :
    ETriple (keeping hashtext) (rules asks fails) i (Stored i u key ⟨data, contentType⟩)
      (recordUpload self caseId u key digest row createdBy)
      (fun r w => (∃ t, r = row t) ∧ Kept asks i r data w) fun _ => Owns i u := by
  refine etriple_bind (triple_insert hrow hkey) fun r => triple_and fun hr => ?_
  have hid : r.id = u := by
    obtain ⟨t, rfl⟩ := hr
    exact (hrow t).1
  subst hid
  have hraise : ∀ (e : Exn) (w : World ι × Placed), (rules asks fails).inv w →
      Inserted asks i r data w → Owns i r.id w := fun _ _ _ h => h.owns
  refine etriple_bind (etriple_error (triple_append knows_inserted self.auditService _) hraise)
    fun _ => ?_
  refine etriple_bind (etriple_error (triple_append knows_inserted self.auditService _) hraise)
    fun _ => ?_
  refine etriple_bind (Q := fun _ => Kept asks i r data) (triple_commit stable_inserted
    (fun w hw h => h.commit hw) (fun _ h => h.owns) fun _ h => h.owns) fun _ => ?_
  exact etriple_pure fun _ _ h => ⟨hr, h⟩

lemma triple_ofExcept {α : Type} (x : Except DomainError α) :
    ETriple (keeping hashtext) (rules asks fails) i G (ofExcept x) (fun _ => G) fun _ => G := by
  cases x with
  | ok a => exact etriple_pure fun _ _ h => h
  | error d => exact etriple_throw fun _ _ h => h

lemma triple_receiveUpload (self : EvidenceService) (caseId : Uuid) (upload : UploadFile)
    (createdBy : Option String) :
    ETriple (keeping hashtext) (rules asks fails) i (Fresh i u)
      (receiveUpload self caseId u upload createdBy)
      (fun p w => p = (upload.chunks.flatten.length, upload.chunks.flatten,
        Sha256.hexdigest upload.chunks.flatten) ∧ Fresh i u w) fun _ => Fresh i u := by
  refine etriple_bind (triple_readUpload_of (fun c => triple_quiet knows_fresh trivial)
    upload.chunks 0 [] fun n _ _ => triple_ofExcept _) fun p => triple_and fun hp => ?_
  subst hp
  rw [Nat.zero_add, List.nil_append]
  refine etriple_bind (triple_quiet knows_fresh trivial) fun _ => ?_
  refine etriple_bind (triple_ofExcept _) fun _ => ?_
  refine etriple_bind (triple_quiet knows_fresh trivial) fun _ => ?_
  refine etriple_bind (triple_quiet knows_fresh trivial) fun (r : Option Evidence) => ?_
  split_ifs
  · exact etriple_bind (Q := fun _ _ => False) (etriple_throw fun _ _ h => h)
      fun _ w _ h => h.elim
  · refine etriple_bind (triple_append knows_fresh self.auditService _) fun _ => ?_
    refine etriple_bind (triple_commit stable_fresh (fun _ _ h => h.commit) (fun _ h => h)
      fun _ h => h) fun _ => ?_
    exact etriple_pure fun _ _ h => ⟨by rw [Hashing.sha256File_default], h⟩

/-- An upload to the case is done. -/
def Done (asks : ι → Uuid → Prop) (i : ι) (caseId : Uuid) (data : List UInt8) (r : Evidence)
    (w : World ι × Placed) : Prop := r.caseId = caseId ∧ Kept asks i r data w

/-- How the `try` block of an upload ends. -/
def Tried (asks : ι → Uuid → Prop) (i : ι) (caseId u : Uuid) (data : List UInt8) :
    Except (Exn × Locals) Evidence → World ι × Placed → Prop
  | .ok r, w => Done asks i caseId data r w
  | .error (_, l), w =>
    (∀ key, l.objectKey = some key → ∃ n, key = objectKeyOf caseId u n) ∧ Owns i u w

lemma triple_storeUpload (self : EvidenceService) (caseId : Uuid) (upload : UploadFile)
    (sourceType : EvidenceSourceType) (createdBy : Option String)
    (parentEvidenceId : Option Uuid) (cleanedName extension : String) :
    Triple (keeping hashtext) (rules asks fails) i (Fresh i u)
      (storeUpload self caseId u upload sourceType createdBy parentEvidenceId cleanedName
        extension).run (Tried asks i caseId u upload.chunks.flatten) := by
  have hnone : ∀ (e : Exn) (b : Bool) (w : World ι × Placed), (rules asks fails).inv w →
      Fresh i u w → Tried asks i caseId u upload.chunks.flatten (.error (e, ⟨b, none, false⟩)) w :=
    fun e b w _ h => ⟨fun key hkey => (by cases hkey), h.owns⟩
  have hsome : ∀ (e : Exn) (b : Bool) (w : World ι × Placed), (rules asks fails).inv w →
      Owns i u w → Tried asks i caseId u upload.chunks.flatten
        (.error (e, ⟨true, some (objectKeyOf caseId u cleanedName), b⟩)) w :=
    fun e b w _ h => ⟨fun key hkey => ⟨cleanedName, (Option.some.inj hkey).symm⟩, h⟩
  have hends : ETriple (keeping hashtext) (rules asks fails) i (Fresh i u)
      (storeUpload self caseId u upload sourceType createdBy parentEvidenceId cleanedName
        extension) (Done asks i caseId upload.chunks.flatten)
      (fun p => Tried asks i caseId u upload.chunks.flatten (.error p)) := by
    refine etriple_bind (triple_within (triple_quiet knows_fresh trivial)
      fun e w hw h => hnone e false w hw h) fun _ => ?_
    refine etriple_bind (triple_within (triple_receiveUpload self caseId upload createdBy)
      fun e w hw h => hnone e true w hw h) fun p => triple_and fun hp => ?_
    subst hp
    refine etriple_bind (triple_within triple_put fun e w hw h => hsome e false w hw h)
      fun _ => ?_
    refine triple_within (triple_conseq (triple_recordUpload (fun t => ⟨rfl, rfl, rfl, rfl, rfl,
      rfl⟩) rfl) (fun _ _ h => h) fun a w _ h => ?_) fun e w hw h => hsome e true w hw h
    cases a with
    | ok r =>
      obtain ⟨⟨t, rfl⟩, hkept⟩ := h
      exact ⟨rfl, hkept⟩
    | error e => exact h
  refine triple_conseq hends (fun _ _ h => h) fun r w _ h => ?_
  match r with
  | .ok r => exact h
  | .error (e, l) => exact h

/-- The handlers hand on what the upload left, or undo it. -/
lemma triple_handleUpload (self : EvidenceService) (caseId : Uuid) (createdBy : Option String)
    (outcome : Except (Exn × Locals) Evidence) :
    ETriple (keeping hashtext) (rules asks fails) i (Tried asks i caseId u data outcome)
      (handleUpload self caseId u createdBy outcome) (Done asks i caseId data)
      fun _ _ => True := by
  have hany : ∀ {α : Type} {p : M α} {Q : α → World ι × Placed → Prop},
      ETriple (keeping hashtext) (rules asks fails) i (Owns i u) p Q (fun _ => Owns i u) →
      ETriple (keeping hashtext) (rules asks fails) i (Owns i u) p Q fun _ _ => True := etriple_any
  have happend : ∀ (self : AuditService) (a : AppendArgs), ETriple (keeping hashtext)
      (rules asks fails) i (Owns i u) (self.append a) (fun _ => Owns i u) fun _ => Owns i u :=
    fun self a => triple_append_of (triple_owns fun _ _ => trivial)
      (triple_owns fun _ _ => trivial) (triple_owns fun _ _ => trivial)
      (fun _ => triple_owns fun _ _ => trivial) fun _ _ _ => triple_owns fun _ _ => trivial
  refine triple_handleUpload_of (P := Tried asks i caseId u data) (fun _ _ _ h => h) ?_
    (fun _ _ _ _ _ _ => trivial) outcome
  intro x l reason y _ _ _
  refine triple_and fun hkeys => ?_
  refine etriple_bind (hany (triple_owns fun _ _ => trivial)) fun _ => ?_
  refine etriple_bind (hany (triple_compensateStorage_of (F := fun _ => Owns i u)
    (fun _ _ _ h => h) (fun key hkey _ => ?_) (fun _ _ _ _ h => h) fun _ _ _ _ h => h))
    fun _ => ?_
  · obtain ⟨n, rfl⟩ := hkeys key hkey
    exact triple_owns fun w h => ⟨caseId, u, n, rfl, .inl h⟩
  · refine etriple_bind (hany (triple_recordFailure_of (K := fun _ => Owns i u)
      (F := fun _ => Owns i u) (happend self.auditService _)
      (fun _ => triple_owns fun _ _ => trivial) (fun _ _ => triple_owns fun _ _ => trivial)
      fun _ _ _ _ h => h)) fun _ => ?_
    exact etriple_throw fun _ _ _ => trivial

/-- A session that requires a case keeps what it knows. -/
lemma triple_requireCase (hG : Knows asks fails i G) (caseId : Uuid) {E : Exn → Prop}
    (hfails : ∀ o e, fails i o e → E e) (hnone : E (.domain caseNotFound)) :
    ETriple (keeping hashtext) (rules asks fails) i G (requireCase caseId) (fun _ => G)
      fun e _ => E e := by
  refine etriple_bind (etriple_error (triple_plain hG (o := .getCase caseId) trivial trivial)
    fun e _ _ => hfails _ e) fun r => ?_
  cases r with
  | none => exact etriple_throw fun _ _ _ => hnone
  | some k => exact etriple_pure fun _ _ h => h

omit [DecidableEq ι] [Fintype ι] in
lemma knows_done {caseId : Uuid} : Knows asks fails i (Done asks i caseId data r) :=
  have hkept : Knows asks fails i (Kept asks i r data) := knows_kept
  ⟨stable_const.and hkept.stable, fun w v hq h => ⟨h.1, hkept.quiet w v hq h.2⟩⟩

lemma triple_uploadEvidence (self : EvidenceService) (caseId : Uuid) (upload : UploadFile)
    (sourceType : EvidenceSourceType) (createdBy : Option String)
    (parentEvidenceId : Option Uuid) :
    ETriple (keeping hashtext) (rules asks fails) i (Idle i)
      (self.uploadEvidence caseId upload sourceType createdBy parentEvidenceId)
      (Done asks i caseId upload.chunks.flatten) fun _ _ => True := by
  refine etriple_bind (triple_requireCase knows_idle caseId (fun _ _ _ => trivial) trivial)
    fun _ => ?_
  refine etriple_bind (etriple_any (triple_ofExcept _)) fun p => ?_
  obtain ⟨cleanedName, extension⟩ := p
  refine etriple_bind triple_draw fun u => ?_
  refine etriple_bind (etriple_any (triple_append knows_fresh self.auditService _)) fun _ => ?_
  refine etriple_bind (etriple_any (triple_commit (F := Fresh i u) stable_fresh
    (fun _ _ h => h.commit) (fun _ h => h) fun _ h => h)) fun _ => ?_
  refine etriple_bind (etriple_lift (triple_storeUpload self caseId upload sourceType createdBy
    parentEvidenceId cleanedName extension)) fun outcome => ?_
  refine triple_withFinally (triple_handleUpload self caseId createdBy outcome) fun r => ?_
  cases r with
  | ok r =>
    have hkeeps : Knows asks fails i (Done asks i caseId upload.chunks.flatten r) := knows_done
    exact etriple_any (triple_cleanUpload_of (triple_quiet hkeeps trivial)
      (triple_quiet hkeeps trivial) _)
  | error e =>
    have htrue : Knows asks fails i fun _ => True := ⟨stable_const, fun _ _ _ h => h⟩
    exact triple_cleanUpload_of (triple_quiet htrue trivial) (triple_quiet htrue trivial) _

/-! ### Deletions -/

/-- A deletion has found its row. -/
structure Found (i : ι) (e : Evidence) (w : World ι × Placed) : Prop where
  idle : Idle i w
  settled : Settled e.id w
  backed : Backed e w.1

/-- A deletion has deleted its object. -/
structure Emptied (i : ι) (u : Uuid) (w : World ι × Placed) : Prop where
  idle : Idle i w
  settled : Settled u w
  vacant : Vacant u w

/-- A deletion is to be committed. -/
structure Marked (i : ι) (u : Uuid) (w : World ι × Placed) : Prop where
  pending : (w.1.txn i).evidence = []
  settled : Settled u w
  vacant : Vacant u w
  marked : u ∈ (w.1.txn i).deleted ∨ ∀ r ∈ w.1.evidence, r.id ≠ u

omit [DecidableEq ι] [Fintype ι] in
lemma stable_found {e : Evidence} : Stable (rules asks fails) i (Found i e) :=
  fun w v h hw hr hv => ⟨stable_idle w v h.idle hw hr hv, hr.moves.settled _ h.settled,
    h.backed.loses (hr.moves.objects _ h.settled.1)⟩

omit [DecidableEq ι] [Fintype ι] in
lemma stable_emptied : Stable (rules asks fails) i (Emptied i u) :=
  fun w v h hw hr hv => ⟨stable_idle w v h.idle hw hr hv, hr.moves.settled _ h.settled,
    h.vacant.moves h.settled.1 hr.moves⟩

omit [DecidableEq ι] [Fintype ι] in
lemma stable_marked : Stable (rules asks fails) i (Marked i u) := by
  intro w v h _ hr _
  refine ⟨by rw [Rely.txn hr]; exact h.pending, hr.moves.settled _ h.settled,
    h.vacant.moves h.settled.1 hr.moves, ?_⟩
  rw [Rely.txn hr]
  exact h.marked.imp_right fun hno => (hr.moves.gone u ⟨h.settled, hno, h.vacant⟩).rows

omit [DecidableEq ι] [Fintype ι] in
lemma settled_quiet (h : Settled u w) (hq : Quiet i w v) : Settled u v := by
  refine ⟨hq.placed ▸ h.1, fun j => ?_⟩
  by_cases hj : j = i
  · subst hj
    rw [hq.pending]
    exact h.2 j
  · rw [hq.txn j hj]
    exact h.2 j

omit [DecidableEq ι] [Fintype ι] in
lemma knows_marked : Knows asks fails i (Marked i u) where
  stable := stable_marked
  quiet := fun w v h hw => ⟨h.pending.trans hw.pending, settled_quiet hw.settled h,
    fun c n => by rw [h.objects]; exact hw.vacant c n,
    by rw [h.deleted, h.evidence]; exact hw.marked⟩

section Search

variable {known : Evidence → Prop} (hknown : ∀ r, known r → ∀ j, ¬ asks j r.id)

include hknown

omit [DecidableEq ι] [Fintype ι] in
lemma knows_search : Knows asks fails i fun w => Idle i w ∧ Present known w where
  stable := stable_idle.and (stable_present hknown)
  quiet := fun w v h hw => ⟨h.idle hw.1, fun r hr => by rw [h.evidence]; exact hw.2 r hr⟩

/-- A row that a session finds is committed, and it finds a row that is known. -/
lemma triple_find (caseId : Uuid) :
    ETriple (keeping hashtext) (rules asks fails) i (fun w => Idle i w ∧ Present known w)
      (call (.getEvidence caseId u))
      (fun r w => (∀ e, r = some e → (e.id = u ∧ e.caseId = caseId) ∧ Genuine e w ∧ Found i e w) ∧
        ∀ k, known k → k.caseId = caseId → k.id = u → ∃ e, r = some e ∧ Like k e)
      fun e _ => ∃ o, fails i o e := by
  have hsearch : Knows asks fails i fun w => Idle i w ∧ Present known w := knows_search hknown
  refine triple_call hsearch.stable (fun _ _ _ => trivial) fun w c a v hw h hc hp => ?_
  have hd : Demand asks w i (.getEvidence caseId u) := trivial
  obtain ⟨hv, hrely, -⟩ := keeps_step hw hd hp
  refine ⟨hv, hrely, ?_⟩
  obtain ⟨x, g⟩ := v
  obtain ⟨hp, rfl⟩ := perform_recording hp
  change perform hashtext (.getEvidence caseId u) i c w.1 = some (a, x) at hp
  obtain ⟨hx, -⟩ | ⟨e, hf, rfl, -⟩ | ⟨e, a', hf, rfl, -⟩ := perform_cases hashtext hp
  · obtain ⟨rfl, rfl⟩ := Prod.mk.inj (Option.some.inj hx)
    obtain ⟨hidle, hpresent⟩ := h
    rw [evidenceFor_idle hidle]
    refine ⟨fun e he => ?_, fun k hk hcase hid => ?_⟩
    · have hmem := List.mem_of_find?_eq_some he
      have hid : e.id = u ∧ e.caseId = caseId := by simpa using List.find?_some he
      obtain ⟨hplaced, hbacked⟩ := hw.rows e hmem
      refine ⟨hid, ⟨hplaced, hbacked⟩, hidle, ⟨hplaced, fun j s hs => ?_⟩, hbacked⟩
      exact Ne.symm ((hw.pending j s hs).free e hmem)
    · obtain ⟨s, hs, hlike⟩ := hpresent k hk
      have hsame : s.id = u ∧ s.caseId = caseId := ⟨hlike.id.trans hid, hlike.caseId.trans hcase⟩
      cases hfind : w.1.evidence.find? fun r => r.id = u ∧ r.caseId = caseId with
      | none => simpa [hsame] using List.find?_eq_none.mp hfind s hs
      | some e =>
        have hmem := List.mem_of_find?_eq_some hfind
        have he : e.id = u ∧ e.caseId = caseId := by simpa using List.find?_some hfind
        exact ⟨e, rfl, hw.eq_of_id hs hmem (hsame.1.trans he.1.symm) ▸ hlike⟩
  · exact ⟨_, hc e (.inl hf)⟩
  · exact ⟨_, hc e (.inr hf)⟩

lemma triple_getEvidence (self : EvidenceService) (caseId : Uuid) :
    ETriple (keeping hashtext) (rules asks fails) i (fun w => Idle i w ∧ Present known w)
      (self.getEvidence caseId u)
      (fun e w => ((e.id = u ∧ e.caseId = caseId) ∧
        ∀ k, known k → k.caseId = caseId → k.id = u → Like k e) ∧ Genuine e w ∧ Found i e w)
      fun e _ => Missed fails i known caseId u e := by
  refine etriple_bind (triple_requireCase (knows_search hknown) caseId
    (fun o e h _ _ _ => .inl ⟨o, h⟩) ?_) fun _ => ?_
  · intro d hd hcode
    obtain rfl := Exn.domain.inj hd
    exact absurd hcode (by decide)
  refine etriple_bind (etriple_error (triple_find hknown caseId) fun e _ _ h _ _ _ => .inl h)
    fun r => ?_
  cases r with
  | none =>
    refine etriple_throw fun w _ h _ _ _ => .inr fun k hk hcase hid => ?_
    obtain ⟨e, he, -⟩ := h.2 k hk hcase hid
    cases he
  | some e =>
    refine etriple_pure fun w _ h => ?_
    obtain ⟨hid, hgenuine, hfound⟩ := h.1 e rfl
    refine ⟨⟨hid, fun k hk hcase hku => ?_⟩, hgenuine, hfound⟩
    obtain ⟨e', he', hlike⟩ := h.2 k hk hcase hku
    exact Option.some.inj he' ▸ hlike

end Search

/-- The object of the row is deleted. -/
lemma triple_deleteObject {e : Evidence} (hasks : asks i e.id) :
    ETriple (keeping hashtext) (rules asks fails) i (Found i e) (call (.deleteObject e.objectKey))
      (fun _ => Emptied i e.id) fun _ _ => True := by
  refine triple_op stable_found (fun w _ h => ?_) fun w c a v _ h hp => ?_
  · obtain ⟨data, hd, -⟩ := h.backed
    exact ⟨_, _, _, hd.key, .inr ⟨hasks, h.settled.1⟩⟩
  · obtain ⟨x, g⟩ := v
    obtain ⟨hp, rfl⟩ := perform_recording hp
    change perform hashtext (.deleteObject e.objectKey) i c w.1 = some (a, x) at hp
    obtain ⟨hx, -⟩ | ⟨e', -, rfl, -⟩ | ⟨e', a', -, rfl, -⟩ := perform_cases hashtext hp
    · obtain ⟨rfl, rfl⟩ := Prod.mk.inj (Option.some.inj hx)
      refine ⟨h.idle, h.settled, fun c n => ?_⟩
      obtain ⟨data, -, hobjects⟩ := h.backed
      by_cases hk : objectKeyOf c e.id n = e.objectKey
      · simp [World.setObject, hk]
      · simpa [World.setObject, hk] using (hobjects c n).resolve_right fun h => hk h.1
    · trivial
    · trivial

/-- The row is marked, unless it is gone. -/
lemma triple_deleteRow (hasks : asks i u) :
    ETriple (keeping hashtext) (rules asks fails) i (Emptied i u) (call (.deleteEvidence u))
      (fun _ => Marked i u) fun _ _ => True := by
  refine triple_op stable_emptied (fun _ _ h => ⟨hasks, h.settled.1, h.vacant⟩)
    fun w c a v _ h hp => ?_
  obtain ⟨x, g⟩ := v
  obtain ⟨hp, rfl⟩ := perform_recording hp
  change perform hashtext (.deleteEvidence u) i c w.1 = some (a, x) at hp
  obtain ⟨hx, -⟩ | ⟨e', -, rfl, -⟩ | ⟨e', a', -, rfl, -⟩ := perform_cases hashtext hp
  · simp only [exec, execDeleteEvidence] at hx
    split_ifs at hx with hwait hthere
    · obtain ⟨rfl, rfl⟩ := Prod.mk.inj (Option.some.inj hx)
      have hpending : ((w.1.setTxn i { w.1.txn i with
          deleted := (w.1.txn i).deleted ++ [u] }).txn i).evidence = [] := by
        simp [h.idle.1]
      refine ⟨hpending, ⟨h.settled.1, ?_⟩, h.vacant, .inl (by simp)⟩
      exact forall_txn (P := fun _ t => ∀ r ∈ t.evidence, r.id ≠ u) rfl (h.settled.2 i)
        fun j _ => h.settled.2 j
    · obtain ⟨rfl, rfl⟩ := Prod.mk.inj (Option.some.inj hx)
      refine ⟨h.idle.1, h.settled, h.vacant, .inr fun r hr hid => hthere ⟨r, ?_, hid⟩⟩
      rwa [evidenceFor_idle h.idle]
  · trivial
  · trivial

omit [Fintype ι] in
/-- A deletion is committed. -/
lemma Marked.commit (h : Marked i u w) (hw : Inv asks w) : Gone u (w.1.commit i, w.2) := by
  refine ⟨(keeps_commit hw).2.2.settled u h.settled, fun r hr => ?_, h.vacant⟩
  obtain ⟨s, hlike, hkeep, hs | hs⟩ := mem_commit_evidence hr
  · rw [hlike.id]
    rcases h.marked with hu | hno
    · rintro rfl
      exact hkeep hu
    · exact hno s hs
  · rw [h.pending] at hs
    cases hs

lemma triple_deleteEvidence (self : EvidenceService) (caseId : Uuid) (hasks : asks i u) :
    ETriple (keeping hashtext) (rules asks fails) i (Idle i) (self.deleteEvidence caseId u)
      (fun _ => Gone u) fun _ _ => True := by
  have hnone : ∀ r : Evidence, (fun _ => False : Evidence → Prop) r → ∀ j, ¬ asks j r.id :=
    fun _ h => h.elim
  refine etriple_bind (etriple_conseq (triple_getEvidence hnone self caseId)
    (fun _ _ h => ⟨h, fun _ hk => hk.elim⟩) (fun _ _ _ h => h) fun _ _ _ _ => trivial)
    fun e => triple_and fun hid => ?_
  obtain ⟨⟨rfl, -⟩, -⟩ := hid
  refine triple_conseq (P := Found i e) ?_ (fun _ _ h => h.2) fun _ _ _ h => h
  refine etriple_bind (triple_deleteObject hasks) fun _ => ?_
  refine etriple_bind (triple_deleteRow hasks) fun _ => ?_
  refine etriple_bind (etriple_any (triple_append knows_marked self.auditService _)) fun _ => ?_
  exact triple_commit stable_marked (fun _ hw h => h.commit hw) (fun _ _ => trivial)
    fun _ _ => trivial

/-! ### Requests -/

/-- The calls of which nothing is demanded. -/
def Tame : Op → Prop
  | .createEvidence _ | .deleteEvidence _ | .putObject _ _ _ | .deleteObject _ => False
  | _ => True

lemma triple_tame (o : Op) (ho : Tame o) :
    Triple (keeping hashtext) (rules asks fails) i (fun _ => True) (.call o) fun _ _ => True := by
  have hd : ∀ w, Demand asks w i o := fun w => by cases o <;> trivial
  refine triple_call stable_const (fun w _ _ => hd w) fun w c a v hw _ _ hp => ?_
  obtain ⟨hv, hrely, -⟩ := keeps_step hw (hd w) hp
  exact ⟨hv, hrely, trivial⟩

omit [DecidableEq ι] [Fintype ι] in
lemma calls_append (self : AuditService) (a : AppendArgs) : Calls Tame (self.append a).run := by
  obtain ⟨chainEnabled⟩ := self
  have hrest : ∀ previous, Calls Tame (do
      let id ← call .uuid4
      let now ← call .now
      call (.appendEvent (newEvent previous a id now)) : M AuditEvent).run := fun previous =>
    calls_ebind (p := call .uuid4) (calls_call trivial) fun id =>
      calls_ebind (p := call .now) (calls_call trivial) fun now => calls_call trivial
  refine calls_ebind (p := call (.lockCaseChain a.caseId)) (calls_call trivial) fun _ => ?_
  cases chainEnabled
  · exact hrest none
  · exact calls_ebind (p := call (.latest a.caseId)) (calls_call trivial) hrest

/-- An event is appended, and all is committed. -/
lemma calls_conclude {α : Type} (self : AuditService) (a : AppendArgs) (r : α) :
    Calls Tame (do
      let _ ← self.append a
      call .commit
      return r : M α).run :=
  calls_ebind (calls_append self a) fun _ =>
    calls_ebind (p := call .commit) (calls_call trivial) fun _ => trivial

/-- What a request has done that returned. -/
def Did (asks : ι → Uuid → Prop) (i : ι) : Request → Result → World ι × Placed → Prop
  | .upload caseId upload _ _ _, .evidence r, w => Done asks i caseId upload.chunks.flatten r w
  | .delete _ u, .deleted, w => Gone u w
  | _, _, _ => True

/-- The session is closed in the end. -/
lemma triple_session {α : Type} {p : M α} {f : α → Result} {Q : α → World ι × Placed → Prop}
    {D : Result → World ι × Placed → Prop}
    (hp : ETriple (keeping hashtext) (rules asks fails) i (Idle i) p Q fun _ _ => True)
    (hQ : ∀ a w, Q a w → D (f a) w) (hD : ∀ b, Stable (rules asks fails) i (D b))
    (hclose : ∀ b w, D b w → D b (w.1.setTxn i {}, w.2)) :
    Triple (keeping hashtext) (rules asks fails) i (Idle i) (withSession (f <$> p))
      fun r w => ∀ b, r = .ok b → D b w := by
  refine triple_bind (Q := fun r w => ∀ b, r = .ok b → D b w) (triple_conseq (etriple_map
    (H := D) hp fun a w _ h => hQ a w h) (fun _ _ h => h) ?_) fun r => ?_
  · intro r w _ h b hb
    subst hb
    exact h
  · refine triple_bind (Q := fun _ w => ∀ b, r = .ok b → D b w) (triple_call
      (fun w v h hw hr hv b hb => hD b w v (h b hb) hw hr hv) (fun _ _ _ => trivial)
      fun w c a v hw h _ hp => ?_) fun _ => triple_ret fun _ _ h => h
    have hd : Demand asks w i .close := trivial
    obtain ⟨hv, hrely, -⟩ := keeps_step hw hd hp
    refine ⟨hv, hrely, fun b hb => ?_⟩
    obtain ⟨x, g⟩ := v
    obtain ⟨hp, rfl⟩ := perform_recording hp
    obtain ⟨-, rfl⟩ := Prod.mk.inj (Option.some.inj hp)
    exact hclose b w (h b hb)

omit [DecidableEq ι] [Fintype ι] in
lemma stable_did (request : Request) (b : Result) :
    Stable (rules asks fails) i (Did asks i request b) := by
  cases request with
  | upload => cases b with
    | evidence r => exact stable_const.and stable_kept
    | _ => exact stable_const
  | delete => cases b with
    | deleted => exact stable_gone
    | _ => exact stable_const
  | _ => exact stable_const

omit [Fintype ι] in
lemma did_close (request : Request) (b : Result) (h : Did asks i request b w) :
    Did asks i request b (w.1.setTxn i {}, w.2) := by
  cases request with
  | upload => cases b with
    | evidence r =>
      obtain ⟨hcase, howns, hgenuine, hd, hrow, hsecured⟩ := h
      exact ⟨hcase, howns, hgenuine, hd, hrow, hsecured⟩
    | _ => trivial
  | delete => cases b with
    | deleted =>
      obtain ⟨⟨hplaced, hpending⟩, hrows, hvacant⟩ := h
      refine ⟨⟨hplaced, ?_⟩, hrows, hvacant⟩
      exact forall_txn (P := fun _ t => ∀ r ∈ t.evidence, r.id ≠ _) rfl (by simp)
        fun j _ => hpending j
    | _ => trivial
  | _ => trivial

/-- **What requests have done that returned**: an upload has its row and its bytes, a deletion
has left neither. -/
theorem triple_handle {app : App} {request : Request}
    (hasks : ∀ caseId u, request = .delete caseId u → asks i u) :
    Triple (keeping hashtext) (rules asks fails) i (Idle i) (app.handle request)
      fun r w => ∀ b, r = .ok b → Did asks i request b w := by
  have htame : ∀ {α : Type} {p : M α}, Calls Tame p.run →
      ETriple (keeping hashtext) (rules asks fails) i (Idle i) p (fun _ _ => True)
        fun _ _ => True := by
    intro α p hp
    refine triple_conseq (triple_of_calls hp triple_tame) (fun _ _ _ => trivial) fun r _ _ _ => ?_
    cases r <;> trivial
  cases request with
  | upload caseId upload sourceType createdBy parentEvidenceId =>
    exact triple_session (triple_uploadEvidence app.evidenceService caseId upload sourceType
      createdBy parentEvidenceId) (fun _ _ h => h) (stable_did _) fun b w => did_close _ b
  | delete caseId u =>
    exact triple_session (triple_deleteEvidence app.evidenceService caseId (hasks caseId u rfl))
      (fun _ _ h => h) (stable_did _) fun b w => did_close _ b
  | createCase data =>
    refine triple_session (htame ?_) (fun _ _ _ => trivial) (stable_did _) fun b w => did_close _ b
    refine calls_ebind (p := call .nextSequenceValue) (calls_call trivial) fun n => ?_
    refine calls_ebind (p := call .now) (calls_call trivial) fun current => ?_
    split_ifs
    · trivial
    · refine calls_ebind (p := call .uuid4) (calls_call trivial) fun (id : Uuid) => ?_
      refine calls_ebind (p := call (.createCase _)) (calls_call trivial) fun (case : Case) => ?_
      exact calls_conclude _ _ _
  | updateCase caseId data =>
    refine triple_session (htame ?_) (fun _ _ _ => trivial) (stable_did _) fun b w => did_close _ b
    refine calls_ebind (calls_ebind (p := call (.getCase caseId)) (calls_call trivial)
      fun r => by cases r <;> trivial) fun (case : Case) => ?_
    refine calls_ebind (p := flushCase case data) (calls_ebind (calls_call trivial)
      fun (_ : Unit) => calls_call trivial) fun (case : Case) => ?_
    exact calls_conclude _ _ _

end WhaleMas.KeepingRequests
