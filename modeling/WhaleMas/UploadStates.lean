import WhaleMas.SessionRules

/-!
The states of an upload: what its session knows of the identifier it drew, from the first
event to the row or the failure, and how its commits move on.
-/

namespace WhaleMas.UploadStates

open WhaleMas.Models WhaleMas.AuditLog WhaleMas.Program WhaleMas.RelyGuarantee
open WhaleMas.Database WhaleMas.Services WhaleMas.EvidenceLife
open WhaleMas.SessionRules WhaleMas.SessionFrame

variable {ι : Type} {S : Setting ι} {i : ι} {caseId E : Uuid} {name : String}
  {l : List AuditEvent} {object : Option StoredObject} {w : World ι}

/-! ### What stays -/

/-- What session `i` has drawn besides `E` is blank. -/
def Others (i : ι) (E : Option Uuid) (w : World ι) : Prop :=
  ∀ u, w.owner u = .drawn i → some u ≠ E → Blank u w

lemma knowledge_others (E : Option Uuid) : Knowledge (rules S) i (Others i E) where
  stable := by
    intro w v h hw hr hv u hu hne
    have hr' : Rely S i w v := hr
    have hu' := (hr'.owner u).mp hu
    have hb := h u hu' hne
    refine ⟨?_, hb.2.rely hr' hu'⟩
    rw [hr'.own u hu' (.inl (hb.1 ▸ View.open_blank)), hb.1]
  quiet := by
    intro w v hq h u hu hne
    exact (h u (hq.owner ▸ hu) hne).quiet hq
  draw := by
    intro w x hw hx h u hu hne
    by_cases hux : u = x
    · subst hux
      exact hw.blank u hx
    · exact h u (by simpa [World.draw, hux] using hu) hne

/-- The upload has drawn `E`: its committed events are `l`, there is no row, and only `object`
may lie under it. -/
structure Holds (S : Setting ι) (i : ι) (caseId E : Uuid) (name : String) (l : List AuditEvent)
    (object : Option StoredObject) (w : World ι) : Prop where
  owner : w.owner E = .drawn i
  view : view E w = ⟨l, [], [], []⟩
  bare : Bare E (object.map fun _ => objectKeyOf caseId E name) w
  stored : S.clean → ∀ o ∈ object, w.objects (objectKeyOf caseId E name) = some o
  others : Others i (some E) w

lemma knowledge_holds (hl : View.Open ⟨l, [], [], []⟩) :
    Knowledge (rules S) i (Holds S i caseId E name l object) where
  stable := by
    intro w v h hw hr hv
    have hr' : Rely S i w v := hr
    refine ⟨(hr'.owner E).mpr h.owner, ?_, h.bare.rely hr' h.owner, fun hc o ho => ?_,
      (knowledge_others _).stable w v h.others hw hr hv⟩
    · rw [hr'.own E h.owner (.inl (h.view ▸ hl)), h.view]
    · rw [hr'.objects E h.owner _ _ (.inr hc)]
      exact h.stored hc o ho
  quiet := by
    intro w v hq h
    refine ⟨hq.owner ▸ h.owner, (hq.view E).trans h.view, fun c n hn => ?_, fun hc o ho => ?_,
      (knowledge_others (S := S) _).quiet w v hq h.others⟩
    · rw [hq.objects]
      exact h.bare c n hn
    · rw [hq.objects]
      exact h.stored hc o ho
  draw := fun w u hw hu h => ⟨owner_draw hu h.owner, h.view, h.bare, h.stored,
    (knowledge_others _).draw w u hw hu h.others⟩

/-! ### How an upload ends -/

def duplicateError : DomainError :=
  conflictError "DUPLICATE_EVIDENCE" "Duplicate evidence in this case"

/-- The upload has left its row and its object. -/
structure Won (S : Setting ι) (i : ι) (r : Evidence) (w : World ι) : Prop where
  owner : w.owner r.id = .drawn i
  same : S.Same r
  key : ∃ name, r.objectKey = objectKeyOf S.caseId r.id name
  rows : (view r.id w).rows = [factsOf r]
  stored : w.objects r.objectKey = some ⟨S.content, r.mimeType⟩
  bare : Bare r.id (some r.objectKey) w
  others : Others i (some r.id) w

/-- The upload has left neither a row nor an object, and a row with its content is there. -/
structure Lost (S : Setting ι) (i : ι) (w : World ι) : Prop where
  nothing : ∀ u, w.owner u = .drawn i → (view u w).rows = [] ∧ Bare u none w
  same : ∃ r ∈ w.evidence, S.Same r

/-- How an upload of a clean run ends. -/
def Outcome (S : Setting ι) (i : ι) (r : Except Exn Evidence) (w : World ι) : Prop :=
  S.clean → match r with
    | .ok r => Won S i r w
    | .error e => e = .domain duplicateError ∧ Lost S i w

lemma knowledge_won {r : Evidence} (hc : S.clean) : Knowledge (rules S) i (Won S i r) where
  stable := by
    intro w v h hw hr hv
    have hr' : Rely S i w v := hr
    obtain ⟨name, hkey⟩ := h.key
    refine ⟨(hr'.owner _).mpr h.owner, h.same, h.key, ?_, ?_, h.bare.rely hr' h.owner,
      (knowledge_others _).stable w v h.others hw hr hv⟩
    · rw [hr'.own _ h.owner (.inr hc), h.rows]
    · rw [hkey, hr'.objects _ h.owner _ _ (.inr hc), ← hkey, h.stored]
  quiet := by
    intro w v hq h
    refine ⟨hq.owner ▸ h.owner, h.same, h.key, ?_, ?_, fun c n hn => ?_,
      (knowledge_others (S := S) _).quiet w v hq h.others⟩
    · rw [hq.view, h.rows]
    · rw [hq.objects, h.stored]
    · rw [hq.objects]
      exact h.bare c n hn
  draw := fun w u hw hu h => ⟨owner_draw hu h.owner, h.same, h.key, h.rows, h.stored, h.bare,
    (knowledge_others _).draw w u hw hu h.others⟩

lemma knowledge_lost (hc : S.clean) : Knowledge (rules S) i (Lost S i) where
  stable := by
    intro w v h hw hr hv
    have hr' : Rely S i w v := hr
    refine ⟨fun u hu => ?_, hr'.same hc h.same⟩
    have hu' := (hr'.owner u).mp hu
    rw [hr'.own u hu' (.inr hc)]
    exact ⟨(h.nothing u hu').1, (h.nothing u hu').2.rely hr' hu'⟩
  quiet := by
    intro w v hq h
    refine ⟨fun u hu => ?_, by rw [hq.evidence]; exact h.same⟩
    obtain ⟨hrows, hbare⟩ := h.nothing u (hq.owner ▸ hu)
    rw [hq.view]
    refine ⟨hrows, fun c n hn => ?_⟩
    rw [hq.objects]
    exact hbare c n hn
  draw := by
    intro w x hw hx h
    refine ⟨fun u hu => ?_, h.same⟩
    by_cases hux : u = x
    · subst hux
      have hb := hw.blank u hx
      exact ⟨congrArg View.rows hb.1, hb.2⟩
    · exact h.nothing u (by simpa [World.draw, hux] using hu)

lemma knowledge_outcome (r : Except Exn Evidence) : Knowledge (rules S) i (Outcome S i r) where
  stable := fun w v h hw hr hv hc => by
    cases r with
    | ok r => exact (knowledge_won hc).stable w v (h hc) hw hr hv
    | error e => exact ⟨(h hc).1, (knowledge_lost hc).stable w v (h hc).2 hw hr hv⟩
  quiet := fun w v hq h hc => by
    cases r with
    | ok r => exact (knowledge_won hc).quiet w v hq (h hc)
    | error e => exact ⟨(h hc).1, (knowledge_lost hc).quiet w v hq (h hc).2⟩
  draw := fun w u hw hu h hc => by
    cases r with
    | ok r => exact (knowledge_won hc).draw w u hw hu (h hc)
    | error e => exact ⟨(h hc).1, (knowledge_lost hc).draw w u hw hu (h hc).2⟩

lemma Holds.lost (h : Holds S i caseId E name l none w) (hs : ∃ r ∈ w.evidence, S.Same r) :
    Lost S i w := by
  refine ⟨fun u hu => ?_, hs⟩
  by_cases hne : u = E
  · subst hne
    rw [h.view]
    exact ⟨rfl, h.bare⟩
  · obtain ⟨hv, hb⟩ := h.others u hu (by simpa using hne)
    rw [hv]
    exact ⟨rfl, hb⟩

/-- The session stores or deletes its object. -/
lemma Holds.setObject (h : Holds S i caseId E name l object w) (o : Option StoredObject) :
    Holds S i caseId E name l o (w.setObject (objectKeyOf caseId E name) o) where
  owner := h.owner
  view := h.view
  bare := fun c n hn => by
    by_cases hk : objectKeyOf c E n = objectKeyOf caseId E name
    · cases o with
      | none => simp [World.setObject, hk]
      | some o => exact absurd (congrArg some hk.symm) hn
    · have hnone := h.bare c n fun h => by
        obtain ⟨-, -, hk'⟩ := Option.map_eq_some_iff.mp h
        exact hk hk'.symm
      simpa [World.setObject, hk] using hnone
  stored := fun _ x hx => by
    obtain rfl : o = some x := hx
    simp [World.setObject]
  others := fun u hu hne => by
    obtain ⟨hv, hb⟩ := h.others u hu hne
    refine ⟨hv, fun c n hn => ?_⟩
    have hk : objectKeyOf c u n ≠ objectKeyOf caseId E name :=
      fun h => hne (congrArg some (objectKeyOf_inj h).2)
    simpa [World.setObject, hk] using hb c n hn

/-! ### Commits -/

/-- A transaction about the evidence `E` alone. -/
structure About (E : Uuid) (t : Txn) : Prop where
  deleted : t.deleted = []
  cases : t.cases = []
  evidence : ∀ r ∈ t.evidence, r.id = E
  events : ∀ e ∈ t.events, (e.resourceType = "evidence" ∧ e.resourceId = some E.str) ∧
    e.eventType ≠ .caseCreated

lemma About.view_eq {t : Txn} (h : About E t) :
    txnView E t = ⟨t.events, t.evidence.map factsOf, [], []⟩ := by
  have hlog : evidenceLog E t.events = t.events :=
    List.filter_eq_self.mpr fun e he => by simp [(h.events e he).1]
  have hrows : (t.evidence.filter fun r => r.id = E) = t.evidence :=
    List.filter_eq_self.mpr fun r hr => by simp [h.evidence r hr]
  have hcre : creations E t.events = [] :=
    List.filter_eq_nil_iff.mpr fun e he => by simp [(h.events e he).2]
  simp [txnView, viewOf, hlog, hrows, hcre, h.cases]

lemma About.untouched {t : Txn} {u : Uuid} (h : About E t) (hu : u ≠ E) : Untouched u t := by
  have hstr : E.str ≠ u.str := fun he => hu (Uuid.str_injective he).symm
  have hlog : evidenceLog u t.events = [] :=
    List.filter_eq_nil_iff.mpr fun e he => by simp [(h.events e he).1, hstr]
  have hrows : (t.evidence.filter fun r => r.id = u) = [] :=
    List.filter_eq_nil_iff.mpr fun r hr => by simp [h.evidence r hr, Ne.symm hu]
  have hcre : creations u t.events = [] :=
    List.filter_eq_nil_iff.mpr fun e he => by simp [(h.events e he).2]
  exact ⟨by simp [h.deleted], by simp [txnView, viewOf, hlog, hrows, hcre, h.cases, View.blank]⟩

variable [DecidableEq ι] {T : Txn}

lemma Others.commit (h : Others i (some E) w) (ht : About E (w.txn i)) :
    Others i (some E) (w.commit i) := by
  intro u hu hne
  have hb := h u hu hne
  have huE : u ≠ E := by simpa using hne
  exact ⟨(view_commit_untouched (ht.untouched huE)).trans hb.1, hb.2⟩

/-- The commit of a transaction about `E`. -/
lemma keeps_commit_about (hw : Inv S w) (hat : At i T (Holds S i caseId E name l object) w)
    (hT : About E T) (hl : View.Open ⟨l, [], [], []⟩)
    (hkey : ∀ r ∈ T.evidence, r.objectKey = objectKeyOf caseId E name)
    (hlife : Life ⟨l ++ T.events, T.evidence.map factsOf, [], []⟩) :
    Keeps (rules S) i w (w.commit i) ∧
      view E (w.commit i) = ⟨l ++ T.events, T.evidence.map factsOf, [], []⟩ ∧
      Others i (some E) (w.commit i) := by
  have hT' : About E (w.txn i) := by
    rw [hat.txn]
    exact ⟨hT.deleted, hT.cases, hT.evidence, hT.events⟩
  have hevidence := hat.txn_evidence
  have hview : view E (w.commit i) = ⟨l ++ T.events, T.evidence.map factsOf, [], []⟩ := by
    rw [view_commit, hat.2.view, hat.txnView, hT.view_eq, hat.txn_deleted, hT.deleted]
    simp [View.add]
  refine ⟨keeps_commit hw (fun u => ?_) (fun r hr c u n hk => ?_) fun _ r hr => ?_, hview,
    hat.2.others.commit hT'⟩
  · by_cases hu : u = E
    · subst hu
      refine .inr ⟨by simp [hat.2.owner], fun _ => by rwa [hview], fun j hj h => ?_, fun hm _ => ?_⟩
      · rw [hat.2.owner] at h
        exact absurd (Owner.drawn.inj h).symm hj
      · rw [hat.2.view] at hm
        exact absurd hm hl.1
    · exact .inl (hT'.untouched hu)
  · rw [hevidence] at hr
    rw [hkey r hr] at hk
    rw [hT.evidence r hr, (objectKeyOf_inj hk).2]
  · rw [hevidence] at hr
    rw [hT.evidence r hr]
    exact hat.2.owner

/-- The commit of events. -/
lemma Holds.commit (hw : Inv S w) (hat : At i T (Holds S i caseId E name l object) w)
    (hT : About E T) (hl : View.Open ⟨l, [], [], []⟩) (hrows : T.evidence = [])
    (hlife : Life ⟨l ++ T.events, [], [], []⟩) : Keeps (rules S) i w (w.commit i) ∧
      Holds S i caseId E name (l ++ T.events) object (w.commit i) := by
  obtain ⟨hkeeps, hview, hothers⟩ := keeps_commit_about hw hat hT hl (by simp [hrows])
    (by simpa [hrows] using hlife)
  rw [hrows] at hview
  exact ⟨hkeeps, hat.2.owner, hview, hat.2.bare, hat.2.stored, hothers⟩

/-- The commit of the row. -/
lemma Holds.win {r : Evidence} {o : StoredObject} (hw : Inv S w)
    (hat : At i T (Holds S i caseId E name l (some o)) w) (hT : About E T)
    (hl : View.Open ⟨l, [], [], []⟩) (hrow : T.evidence = [r]) (hid : r.id = E)
    (hkey : r.objectKey = objectKeyOf caseId E name)
    (hlife : Life ⟨l ++ T.events, [factsOf r], [], []⟩)
    (hsame : S.clean → caseId = S.caseId ∧ S.Same r ∧ o = ⟨S.content, r.mimeType⟩) :
    Keeps (rules S) i w (w.commit i) ∧ Outcome S i (.ok r) (w.commit i) := by
  subst hid
  obtain ⟨hkeeps, hview, hothers⟩ := keeps_commit_about hw hat hT hl (by simp [hrow, hkey])
    (by simpa [hrow] using hlife)
  refine ⟨hkeeps, fun hc => ?_⟩
  obtain ⟨rfl, hs, rfl⟩ := hsame hc
  refine ⟨hat.2.owner, hs, ⟨name, hkey⟩, ?_, ?_, ?_, hothers⟩
  · rw [hview, hrow]
    rfl
  · rw [hkey]
    exact hat.2.stored hc _ rfl
  · rw [hkey]
    exact hat.2.bare

end WhaleMas.UploadStates
