import WhaleMas.Beside
import WhaleMas.CaseNumbers
import WhaleMas.SessionFrame

/-!
Who draws which number. The sequence gives every value once, and a record of who drew it makes
the value its session's own: no other session inserts a case with it, so the insert of a case
neither fails nor waits.

What a call of a session may raise by itself is left open.
-/

namespace WhaleMas.Numbering

open WhaleMas.Models WhaleMas.AuditLog WhaleMas.Program WhaleMas.RelyGuarantee
open WhaleMas.Beside WhaleMas.Database WhaleMas.Services WhaleMas.EvidenceLife
open WhaleMas.SessionFrame WhaleMas.CaseNumbers

/-! ### Numbers drawn -/

/-- The session that drew a value of the sequence. -/
abbrev Drawn (ι : Type) : Type := ℕ → Option ι

def noteDrawn {ι : Type} (i : ι) : (o : Op) → Answer o → Drawn ι → Drawn ι
  | .nextSequenceValue, .ok n, g => Function.update g n (some i)
  | _, _, g => g

/-- The number of a case is made from a value of the sequence. -/
def HasNumber (n : ℕ) (c : Case) : Prop := ∃ t, c.caseNo = formatCaseNo n t

lemma HasNumber.unique {n m : ℕ} {c d : Case} (h : HasNumber n c) (h' : HasNumber m d)
    (he : c.caseNo = d.caseNo) : n = m := by
  obtain ⟨t, ht⟩ := h
  obtain ⟨t', ht'⟩ := h'
  exact (formatCaseNo_inj (ht ▸ ht' ▸ he)).2

/-- Two rows that the constraints on cases keep apart. -/
def Apart (c d : Case) : Prop := c.id ≠ d.id ∧ c.caseNo ≠ d.caseNo

/-- The same case, before and after updates. -/
def Same (c d : Case) : Prop := c.id = d.id ∧ c.caseNo = d.caseNo

lemma Same.trans {c d e : Case} (h : Same c d) (h' : Same d e) : Same c e :=
  ⟨h.1.trans h'.1, h.2.trans h'.2⟩

lemma same_update (updates : List (Uuid × CaseColumns)) (c : Case) :
    Same (updateCase updates c) c := updateCase_keeps updates c

lemma HasNumber.same {n : ℕ} {c d : Case} (h : HasNumber n c) (hs : Same c d) :
    HasNumber n d := by
  obtain ⟨t, ht⟩ := h
  exact ⟨t, hs.2 ▸ ht⟩

variable {ι : Type} {w₀ : World ι} {i : ι} {w v : World ι × Drawn ι}

/-! ### The rules -/

/-- The case is a committed row, whatever its updates. -/
def Stored (c : Case) (w : World ι × Drawn ι) : Prop := ∃ d ∈ w.1.cases, Same d c

/-- The row is the session's own: nobody else has its identifier or its number. -/
structure Mine (i : ι) (row : Case) (w : World ι × Drawn ι) : Prop where
  owner : w.1.owner row.id = .drawn i
  number : ∃ n, w.2 n = some i ∧ HasNumber n row
  free : ∀ c ∈ w.1.cases, Apart c row

/-- Runs from `w₀`. -/
structure Inv (w₀ : World ι) (w : World ι × Drawn ι) : Prop where
  grows : w₀.sequence ≤ w.1.sequence
  drawn : ∀ n i, w.2 n = some i → w₀.sequence < n ∧ n ≤ w.1.sequence
  ids : ∀ c ∈ w.1.cases, w.1.owner c.id ≠ .fresh
  later : ∀ c ∈ w.1.cases, ∀ n, HasNumber n c → n ≤ w.1.sequence
  numbered : ∀ c ∈ w.1.cases, (∃ b ∈ w₀.cases, Same b c) ∨ ∃ n i, w.2 n = some i ∧ HasNumber n c
  pending : ∀ i, ∀ c ∈ (w.1.txn i).cases, Mine i c w
  one : ∀ i, (w.1.txn i).cases.length ≤ 1
  distinct : w.1.cases.Pairwise Apart

/-- What session `i` relies on. -/
structure Rely (i : ι) (w v : World ι × Drawn ι) : Prop where
  txn : v.1.txn i = w.1.txn i
  owner : ∀ u, v.1.owner u = .drawn i ↔ w.1.owner u = .drawn i
  drew : ∀ n, v.2 n = some i ↔ w.2 n = some i
  stays : ∀ c, Stored c w → Stored c v
  new : ∀ d ∈ v.1.cases, Stored d w ∨
    w.1.owner d.id ≠ .drawn i ∧ ∀ n, HasNumber n d → w.2 n ≠ some i

/-- A session inserts a case of its own, and one only. -/
def Demand (w : World ι × Drawn ι) (i : ι) (o : Op) : Prop :=
  ∀ row, o = .createCase row → (w.1.txn i).cases = [] ∧ ∀ now, Mine i (row now) w

/-- A call raises by itself only what `fails` says. -/
def Policy (fails : ι → Op → Exn → Prop) (i : ι) (o : Op) (c : Choice) : Prop :=
  ∀ e, c.fault = .before e ∨ c.fault = .after e → fails i o e

lemma Rely.trans {u : World ι × Drawn ι} (h : Rely i u w) (h' : Rely i w v) : Rely i u v where
  txn := h'.txn.trans h.txn
  owner := fun x => (h'.owner x).trans (h.owner x)
  drew := fun n => (h'.drew n).trans (h.drew n)
  stays := fun c hc => h'.stays c (h.stays c hc)
  new := fun d hd => by
    rcases h'.new d hd with ⟨c, hc, hcd⟩ | ⟨ho, hn⟩
    · rcases h.new c hc with ⟨b, hb, hbc⟩ | ⟨ho, hn⟩
      · exact .inl ⟨b, hb, hbc.trans hcd⟩
      · refine .inr ⟨hcd.1 ▸ ho, fun n hd => hn n (hd.same ⟨hcd.1.symm, hcd.2.symm⟩)⟩
    · exact .inr ⟨fun hx => ho ((h.owner d.id).mpr hx), fun n hx hg => hn n hx ((h.drew n).mpr hg)⟩

def rules (w₀ : World ι) (fails : ι → Op → Exn → Prop) : Rules ι (World ι × Drawn ι) Choice Op where
  inv := Inv w₀
  rely := Rely
  demand := Demand
  policy := fun _ => Policy fails
  refl := fun _ _ => ⟨rfl, fun _ => Iff.rfl, fun _ => Iff.rfl, fun _ h => h,
    fun d hd => .inl ⟨d, hd, rfl, rfl⟩⟩
  trans := fun _ _ _ _ => Rely.trans

lemma Mine.apart {j : ι} {c d : Case} (h : Mine i c w) (h' : Mine j d w) (hij : i ≠ j) :
    Apart c d := by
  constructor
  · intro he
    have howner := h.owner
    rw [he, h'.owner] at howner
    exact hij (Owner.drawn.inj howner).symm
  · intro he
    obtain ⟨n, hn, hc⟩ := h.number
    obtain ⟨m, hm, hd⟩ := h'.number
    obtain rfl := hc.unique hd he
    exact hij (Option.some.inj (hn.symm.trans hm))

/-- What a session owns, it keeps. -/
lemma Mine.rely {row : Case} (h : Mine i row w) (hr : Rely i w v) : Mine i row v where
  owner := (hr.owner _).mpr h.owner
  number := by
    obtain ⟨n, hn, hrow⟩ := h.number
    exact ⟨n, (hr.drew n).mpr hn, hrow⟩
  free := fun d hd => by
    rcases hr.new d hd with ⟨c, hc, hcd⟩ | ⟨howner, hnumber⟩
    · obtain ⟨hid, hno⟩ := h.free c hc
      exact ⟨hcd.1 ▸ hid, hcd.2 ▸ hno⟩
    · refine ⟨fun he => howner (he ▸ h.owner), fun he => ?_⟩
      obtain ⟨n, hn, t, ht⟩ := h.number
      exact hnumber n ⟨t, he.trans ht⟩ hn

/-! ### What calls keep -/

/-- Session `i` changes no case, but may forget its own, and may draw a value. -/
structure Still (i : ι) (w v : World ι × Drawn ι) : Prop where
  cases : v.1.cases = w.1.cases
  pending : (v.1.txn i).cases = (w.1.txn i).cases ∨ (v.1.txn i).cases = []
  txn : ∀ j, j ≠ i → v.1.txn j = w.1.txn j
  owner : ∀ u, v.1.owner u = w.1.owner u ∨ w.1.owner u = .fresh ∧ v.1.owner u = .drawn i
  drawn : v.2 = w.2 ∧ w.1.sequence ≤ v.1.sequence ∨
    v.1.sequence = w.1.sequence + 1 ∧
      v.2 = Function.update w.2 (w.1.sequence + 1) (some i)

lemma Still.refl (w : World ι × Drawn ι) : Still i w w :=
  ⟨rfl, .inl rfl, fun _ _ => rfl, fun _ => .inl rfl, .inl ⟨rfl, le_rfl⟩⟩

lemma Still.sequence_le (h : Still i w v) : w.1.sequence ≤ v.1.sequence := by
  rcases h.drawn with ⟨-, hle⟩ | ⟨heq, -⟩ <;> omega

/-- Values drawn before stay with who drew them. -/
lemma Still.drew (hw : Inv w₀ w) (h : Still i w v) {n : ℕ} {j : ι} (hn : w.2 n = some j) :
    v.2 n = some j := by
  rcases h.drawn with ⟨hg, -⟩ | ⟨-, hg⟩
  · rwa [hg]
  · have hle := (hw.drawn n j hn).2
    rw [hg, Function.update_of_ne (by omega), hn]

/-- A value is drawn by its session only. -/
lemma Still.drew_before (h : Still i w v) {n : ℕ} {j : ι} (hj : j ≠ i) (hn : v.2 n = some j) :
    w.2 n = some j := by
  rcases h.drawn with ⟨hg, -⟩ | ⟨-, hg⟩
  · rwa [← hg]
  · rw [hg] at hn
    by_cases hnext : n = w.1.sequence + 1
    · rw [hnext, Function.update_self] at hn
      exact absurd (Option.some.inj hn).symm hj
    · rwa [Function.update_of_ne hnext] at hn

lemma Still.owned (h : Still i w v) {u : Uuid} {j : ι} (hu : w.1.owner u = .drawn j) :
    v.1.owner u = .drawn j := by
  rcases h.owner u with ho | ⟨ho, -⟩
  · rwa [ho]
  · rw [hu] at ho
    cases ho

lemma Still.mine (hw : Inv w₀ w) (h : Still i w v) {j : ι} {row : Case} (hm : Mine j row w) :
    Mine j row v where
  owner := h.owned hm.owner
  number := by
    obtain ⟨n, hn, hrow⟩ := hm.number
    exact ⟨n, h.drew hw hn, hrow⟩
  free := by
    rw [h.cases]
    exact hm.free

lemma Still.inv (hw : Inv w₀ w) (h : Still i w v) : Inv w₀ v where
  grows := hw.grows.trans h.sequence_le
  drawn := fun n j hn => by
    rcases h.drawn with ⟨hg, hle⟩ | ⟨heq, hg⟩
    · rw [hg] at hn
      have hold := hw.drawn n j hn
      exact ⟨hold.1, hold.2.trans hle⟩
    · rw [hg] at hn
      have hgrows := hw.grows
      by_cases hnext : n = w.1.sequence + 1
      · omega
      · rw [Function.update_of_ne hnext] at hn
        have hold := hw.drawn n j hn
        omega
  ids := by
    intro c hc
    rw [h.cases] at hc
    have hid := hw.ids c hc
    rcases h.owner c.id with ho | ⟨ho, -⟩
    · rwa [ho]
    · exact absurd ho hid
  later := by
    rw [h.cases]
    exact fun c hc n hn => (hw.later c hc n hn).trans h.sequence_le
  numbered := by
    rw [h.cases]
    intro c hc
    rcases hw.numbered c hc with hold | ⟨n, j, hn, hno⟩
    · exact .inl hold
    · exact .inr ⟨n, j, h.drew hw hn, hno⟩
  pending := fun j c hc => by
    by_cases hj : j = i
    · subst hj
      rcases h.pending with hp | hp
      · exact h.mine hw (hw.pending j c (hp ▸ hc))
      · rw [hp] at hc
        cases hc
    · rw [h.txn j hj] at hc
      exact h.mine hw (hw.pending j c hc)
  one := fun j => by
    by_cases hj : j = i
    · subst hj
      rcases h.pending with hp | hp
      · rw [hp]
        exact hw.one j
      · simp [hp]
    · rw [h.txn j hj]
      exact hw.one j
  distinct := by
    rw [h.cases]
    exact hw.distinct

lemma Still.rely (hw : Inv w₀ w) (h : Still i w v) {j : ι} (hj : j ≠ i) : Rely j w v where
  txn := h.txn j hj
  owner := fun u => ⟨fun hu => by
    rcases h.owner u with ho | ⟨-, ho⟩
    · rwa [← ho]
    · rw [hu] at ho
      exact absurd (Owner.drawn.inj ho) hj, h.owned⟩
  drew := fun n => ⟨h.drew_before hj, h.drew hw⟩
  stays := fun c hc => by
    rw [Stored, h.cases]
    exact hc
  new := fun d hd => .inl ⟨d, h.cases ▸ hd, rfl, rfl⟩

variable [DecidableEq ι]

/-- A session inserts a case that is its own. -/
lemma Inv.insert {row : Case} (hw : Inv w₀ w) (hnone : (w.1.txn i).cases = [])
    (hm : Mine i row w) :
    Inv w₀ (w.1.setTxn i { w.1.txn i with cases := (w.1.txn i).cases ++ [row] }, w.2) where
  grows := hw.grows
  drawn := hw.drawn
  ids := hw.ids
  later := hw.later
  numbered := hw.numbered
  pending := forall_txn (P := fun j t => ∀ c ∈ t.cases, Mine j c _) rfl
    (fun c hc => by
      rw [hnone] at hc
      obtain rfl := List.mem_singleton.mp hc
      exact ⟨hm.owner, hm.number, hm.free⟩)
    fun j _ c hc => by
      obtain ⟨howner, hnumber, hfree⟩ := hw.pending j c hc
      exact ⟨howner, hnumber, hfree⟩
  one := forall_txn (P := fun _ t => t.cases.length ≤ 1) rfl (by simp [hnone])
    fun j _ => hw.one j
  distinct := hw.distinct

lemma rely_setTxn {t : Txn} {j : ι} (hj : j ≠ i) : Rely j w (w.1.setTxn i t, w.2) where
  txn := setTxn_txn_of_ne hj
  owner := fun _ => Iff.rfl
  drew := fun _ => Iff.rfl
  stays := fun _ h => h
  new := fun d hd => .inl ⟨d, hd, rfl, rfl⟩

/-- A committed case was there, or is the session's own. -/
lemma mem_commit_cases {d : Case} (hw : Inv w₀ w) (hd : d ∈ (w.1.commit i).cases) :
    ∃ c, Same d c ∧ (c ∈ w.1.cases ∨ c ∈ (w.1.txn i).cases ∧ Mine i c w) := by
  obtain ⟨c, hc, rfl⟩ := List.mem_map.mp hd
  refine ⟨c, same_update _ c, ?_⟩
  rcases List.mem_append.mp hc with hc | hc
  · exact .inl hc
  · exact .inr ⟨hc, hw.pending i c hc⟩

lemma Apart.same {c d c' d' : Case} (h : Apart c d) (hc : Same c' c) (hd : Same d' d) :
    Apart c' d' := by
  refine ⟨?_, ?_⟩
  · rw [hc.1, hd.1]
    exact h.1
  · rw [hc.2, hd.2]
    exact h.2

lemma Inv.commit (hw : Inv w₀ w) : Inv w₀ (w.1.commit i, w.2) where
  grows := hw.grows
  drawn := hw.drawn
  ids := fun d hd => by
    obtain ⟨c, hs, hc | ⟨-, hm⟩⟩ := mem_commit_cases hw hd
    · rw [hs.1]
      exact hw.ids c hc
    · rw [hs.1]
      simp [hm.owner]
  later := fun d hd n hn => by
    obtain ⟨c, hs, hc | ⟨-, hm⟩⟩ := mem_commit_cases hw hd
    · exact hw.later c hc n (hn.same hs)
    · obtain ⟨m, hm, hno⟩ := hm.number
      obtain rfl := (hn.same hs).unique hno rfl
      exact (hw.drawn n i hm).2
  numbered := fun d hd => by
    obtain ⟨c, hs, hc | ⟨-, hm⟩⟩ := mem_commit_cases hw hd
    · rcases hw.numbered c hc with ⟨b, hb, hbc⟩ | ⟨n, j, hn, hno⟩
      · exact .inl ⟨b, hb, hbc.trans ⟨hs.1.symm, hs.2.symm⟩⟩
      · exact .inr ⟨n, j, hn, hno.same ⟨hs.1.symm, hs.2.symm⟩⟩
    · obtain ⟨n, hn, hno⟩ := hm.number
      exact .inr ⟨n, i, hn, hno.same ⟨hs.1.symm, hs.2.symm⟩⟩
  pending := forall_txn (P := fun j t => ∀ c ∈ t.cases, Mine j c _) rfl (by simp)
    fun j hj c hc => by
      have hm := hw.pending j c hc
      refine ⟨hm.owner, hm.number, fun d hd => ?_⟩
      obtain ⟨b, hs, hb | ⟨-, hmb⟩⟩ := mem_commit_cases hw hd
      · exact (hm.free b hb).same hs ⟨rfl, rfl⟩
      · exact (hmb.apart hm hj.symm).same hs ⟨rfl, rfl⟩
  one := forall_txn (P := fun _ t => t.cases.length ≤ 1) rfl (by simp) fun j _ => hw.one j
  distinct := by
    have hlist : (w.1.cases ++ (w.1.txn i).cases).Pairwise Apart := by
      refine List.pairwise_append.mpr ⟨hw.distinct, ?_, fun c hc d hd => ?_⟩
      · rcases Nat.le_one_iff_eq_zero_or_eq_one.mp (hw.one i) with h | h
        · simp [List.eq_nil_of_length_eq_zero h]
        · obtain ⟨c, hc⟩ := List.length_eq_one_iff.mp h
          simp [hc]
      · exact (hw.pending i d hd).free c hc
    exact List.pairwise_map.mpr (hlist.imp fun h => h.same (same_update _ _) (same_update _ _))

lemma stored_commit {c : Case} (h : c ∈ w.1.cases ∨ c ∈ (w.1.txn i).cases) :
    Stored c (w.1.commit i, w.2) :=
  ⟨_, List.mem_map_of_mem (List.mem_append.mpr h), same_update _ c⟩

lemma rely_commit (hw : Inv w₀ w) {j : ι} (hj : j ≠ i) : Rely j w (w.1.commit i, w.2) where
  txn := commit_txn_of_ne hj
  owner := fun _ => Iff.rfl
  drew := fun _ => Iff.rfl
  stays := fun c ⟨d, hd, hs⟩ => by
    obtain ⟨e, he, hse⟩ := stored_commit (i := i) (.inl hd)
    exact ⟨e, he, hse.trans hs⟩
  new := fun d hd => by
    obtain ⟨c, hs, hc | ⟨-, hm⟩⟩ := mem_commit_cases hw hd
    · exact .inl ⟨c, hc, hs.1.symm, hs.2.symm⟩
    · refine .inr ⟨?_, fun n hn hg => ?_⟩
      · rw [hs.1, hm.owner]
        exact fun h => hj (Owner.drawn.inj h).symm
      · obtain ⟨m, hm, hno⟩ := hm.number
        obtain rfl := (hn.same hs).unique hno rfl
        exact hj (Option.some.inj (hg.symm.trans hm))

/-! ### Calls -/

variable [Fintype ι] {hashtext : String → ℤ} {fails : ι → Op → Exn → Prop} {o : Op} {c : Choice}
  {r : Answer o}

/-- The database and the storage, with a record of who drew which value. -/
def numbers (hashtext : String → ℤ) : Machine ι (World ι × Drawn ι) Choice Op Answer :=
  recording (machine hashtext) noteDrawn

lemma perform_numbers (h : (numbers hashtext).perform o i c w = some (r, v)) :
    Effect i c w.1 o v.1 ∧ (v.2 = w.2 ∨ o = .nextSequenceValue ∧
      v.1.sequence = w.1.sequence + 1 ∧
        v.2 = Function.update w.2 (w.1.sequence + 1) (some i)) := by
  obtain ⟨hp, hg⟩ := perform_recording h
  have hother : o ≠ .nextSequenceValue → noteDrawn i o r w.2 = w.2 := by
    intro ho
    cases o <;> first | rfl | exact absurd rfl ho
  refine ⟨perform_effect hp, ?_⟩
  obtain ⟨hx, -⟩ | ⟨e, -, rfl, -⟩ | ⟨e, r', -, rfl, -⟩ := perform_cases hashtext hp
  · by_cases ho : o = .nextSequenceValue
    · subst ho
      obtain ⟨rfl, hv⟩ := Prod.mk.inj (Option.some.inj hx)
      exact .inr ⟨rfl, by rw [← hv], hg⟩
    · exact .inl (hg.trans (hother ho))
  · refine .inl (hg.trans ?_)
    cases o <;> rfl
  · refine .inl (hg.trans ?_)
    cases o <;> rfl

omit [Fintype ι] in
/-- A call that neither inserts a case nor commits leaves the cases alone. -/
lemma still_of_effect (h : Effect i c w.1 o v.1)
    (hcreate : ∀ row, o ≠ .createCase row) (hcommit : o ≠ .commit)
    (hg : v.2 = w.2 ∨ o = .nextSequenceValue ∧ v.1.sequence = w.1.sequence + 1 ∧
      v.2 = Function.update w.2 (w.1.sequence + 1) (some i)) : Still i w v := by
  obtain ⟨v, g⟩ := v
  have hsame : v.cases = w.1.cases → w.1.sequence ≤ v.sequence →
      ((v.txn i).cases = (w.1.txn i).cases ∨ (v.txn i).cases = []) → Still i w (v, g) := by
    intro hcases hle hpending
    refine ⟨hcases, hpending, fun j hj => h.others hj, h.owner, ?_⟩
    rcases hg with hg | ⟨-, hseq, hg⟩
    · exact .inl ⟨hg, hle⟩
    · exact .inr ⟨hseq, hg⟩
  cases h with
  | nothing | putObject | deleteObject | uuid4 => exact hsame rfl le_rfl (.inl rfl)
  | nextSequenceValue => exact hsame rfl (Nat.le_succ _) (.inl rfl)
  | createCase row => exact absurd rfl (hcreate row)
  | commit => exact absurd rfl hcommit
  | rollback | close => exact hsame rfl le_rfl (.inr (by simp))
  | appendEvent event => exact hsame rfl le_rfl (.inl (by simp))
  | flushCase | lockCaseChain | createEvidence | deleteEvidence =>
    exact hsame rfl le_rfl (.inl (by simp))

/-- **Every call keeps the rules**, and no call takes a case away. -/
lemma keeps_step (hw : Inv w₀ w) (hd : Demand w i o)
    (h : (numbers hashtext).perform o i c w = some (r, v)) :
    Inv w₀ v ∧ (∀ j, j ≠ i → Rely j w v) ∧ ∀ c, Stored c w → Stored c v := by
  obtain ⟨heffect, hg⟩ := perform_numbers h
  have hstays : ∀ c, Stored c w → Stored c v := by
    rintro c ⟨d, hd, hs⟩
    obtain ⟨e, he, hse⟩ := stays_of_effect heffect hd
    exact ⟨e, he, Same.trans hse hs⟩
  have hsame : o ≠ .nextSequenceValue → v.2 = w.2 :=
    fun ho => hg.resolve_right fun h => ho h.1
  by_cases hstill : Still i w v
  · exact ⟨hstill.inv hw, fun j hj => hstill.rely hw hj, hstays⟩
  have hchanges : (∃ row, o = .createCase row) ∨ o = .commit := by
    by_contra hno
    push Not at hno
    exact hstill (still_of_effect heffect hno.1 hno.2 hg)
  obtain ⟨v, g⟩ := v
  rcases hchanges with ⟨row, rfl⟩ | rfl
  · obtain rfl := hsame (by simp)
    cases heffect with
    | nothing => exact absurd (Still.refl w) hstill
    | createCase =>
      obtain ⟨hnone, hm⟩ := hd row rfl
      exact ⟨hw.insert hnone (hm c.now), fun j hj => rely_setTxn hj, hstays⟩
  · obtain rfl := hsame (by simp)
    cases heffect with
    | nothing => exact absurd (Still.refl w) hstill
    | commit => exact ⟨hw.commit, fun j hj => rely_commit hw hj, hstays⟩

/-! ### Rules for calls -/

/-- What follows from committed cases alone. -/
def Lasting (G : World ι × Drawn ι → Prop) : Prop :=
  ∀ w v, (∀ c, Stored c w → Stored c v) → G w → G v

omit [DecidableEq ι] [Fintype ι] in
lemma Lasting.stable {G : World ι × Drawn ι → Prop} (hG : Lasting G) :
    Stable (rules w₀ fails) i G :=
  fun w v h _ hr _ => hG w v (Rely.stays hr) h

omit [DecidableEq ι] [Fintype ι] in
lemma lasting_stored (c : Case) : Lasting (ι := ι) (Stored c) := fun _ _ h hc => h c hc

/-- There is a committed case. -/
def There (caseId : Uuid) (w : World ι × Drawn ι) : Prop := ∃ c, c.id = caseId ∧ Stored c w

omit [DecidableEq ι] [Fintype ι] in
lemma lasting_there (caseId : Uuid) : Lasting (ι := ι) (There caseId) :=
  fun _ _ h ⟨c, hid, hc⟩ => ⟨c, hid, h c hc⟩

/-- The session has inserted no case. -/
def Idle (i : ι) (w : World ι × Drawn ι) : Prop := (w.1.txn i).cases = []

/-- The session sees the case. -/
def Sees (i : ι) (caseId : Uuid) (w : World ι × Drawn ι) : Prop :=
  ∃ c ∈ w.1.casesFor i, c.id = caseId

omit [DecidableEq ι] [Fintype ι] in
lemma There.sees {caseId : Uuid} (h : There caseId w) : Sees i caseId w := by
  obtain ⟨c, rfl, d, hd, hs⟩ := h
  refine ⟨updateCase (w.1.txn i).updates d, ?_, (same_update _ d).1.trans hs.1⟩
  exact List.mem_map_of_mem (List.mem_append_left _ hd)

/-- The calls that do not raise unless they are made to. -/
def Plain : Op → Prop
  | .createCase _ | .flushCase _ _ | .refreshCase _ | .appendEvent _ | .createEvidence _ => False
  | _ => True

lemma exec_plain {w v : World ι} (ho : Plain o) (h : exec hashtext o i c w = some (r, v)) :
    ∃ a, r = .ok a := by
  cases o with
  | createCase | flushCase | refreshCase | appendEvent | createEvidence => exact ho.elim
  | lockCaseChain caseId =>
    simp only [exec] at h
    split_ifs at h
    exact ⟨_, (Prod.mk.inj (Option.some.inj h)).1.symm⟩
  | deleteEvidence evidenceId =>
    simp only [exec, execDeleteEvidence] at h
    split_ifs at h <;> exact ⟨_, (Prod.mk.inj (Option.some.inj h)).1.symm⟩
  | uuid4 =>
    simp only [exec] at h
    split_ifs at h
    exact ⟨_, (Prod.mk.inj (Option.some.inj h)).1.symm⟩
  | _ => exact ⟨_, (Prod.mk.inj (Option.some.inj h)).1.symm⟩

variable {G F : World ι × Drawn ι → Prop} {E : Exn → Prop}

/-- A call has raised one of `E`, and `F` still holds. -/
def Failed (E : Exn → Prop) (F : World ι × Drawn ι → Prop) (e : Exn) (w : World ι × Drawn ι) :
    Prop := E e ∧ F w

/-- A call that raises only in `E` if the database lets it. -/
lemma triple_op {Q : o.Response → World ι × Drawn ι → Prop} (hG : Stable (rules w₀ fails) i G)
    (hF : Lasting F) (hGF : ∀ w, G w → F w) (hdemand : ∀ w, Inv w₀ w → G w → Demand w i o)
    (hfails : ∀ e, fails i o e → E e)
    (hpost : ∀ w c r v, Inv w₀ w → G w → (numbers hashtext).perform o i c w = some (r, v) →
      exec hashtext o i c w.1 = some (r, v.1) → (∀ c, Stored c w → Stored c v) →
      orElse Q (Failed E F) r v) :
    ETriple (numbers hashtext) (rules w₀ fails) i G (call o) Q (Failed E F) := by
  refine triple_call hG hdemand fun w c r v hw hg hc hp => ?_
  obtain ⟨hv, hrely, hstays⟩ := keeps_step hw (hdemand w hw hg) hp
  refine ⟨hv, hrely, ?_⟩
  obtain ⟨hx, -⟩ | ⟨e, hf, rfl, -⟩ | ⟨e, r', hf, rfl, -⟩ :=
    perform_cases hashtext (perform_recording hp).1
  · exact hpost w c r v hw hg hp hx hstays
  · exact ⟨hfails e (hc e (.inl hf)), hF w v hstays (hGF w hg)⟩
  · exact ⟨hfails e (hc e (.inr hf)), hF w v hstays (hGF w hg)⟩

omit [DecidableEq ι] [Fintype ι] in
lemma no_demand (ho : ∀ row, o ≠ .createCase row) (w : World ι × Drawn ι) : Demand w i o :=
  fun row h => absurd h (ho row)

/-- A plain call keeps what lasts. -/
lemma triple_plain (hG : Lasting G) (ho : Plain o) (hfails : ∀ e, fails i o e → E e) :
    ETriple (numbers hashtext) (rules w₀ fails) i G (call o) (fun _ => G) (Failed E G) := by
  refine triple_op hG.stable hG (fun _ h => h) (fun w _ _ => no_demand ?_ w) hfails ?_
  · rintro row rfl
    exact ho
  · intro w c r v _ hg _ hx hstays
    obtain ⟨a, rfl⟩ := exec_plain ho hx
    exact hG w v hstays hg

/-- The calls of an append. -/
def Appends : Op → Prop
  | .lockCaseChain _ | .latest _ | .uuid4 | .now | .appendEvent _ => True
  | _ => False

/-- An append raises nothing by itself where the session sees the case. -/
lemma triple_append (hG : Stable (rules w₀ fails) i G) (hF : Lasting F) (hGF : ∀ w, G w → F w)
    (self : AuditService) (a : AppendArgs)
    (hkeep : ∀ o w c r v, Appends o → Inv w₀ w → G w →
      (numbers hashtext).perform o i c w = some (r, v) → G v)
    (hsees : ∀ w, G w → Sees i a.caseId w) (hfails : ∀ o, Appends o → ∀ e, fails i o e → E e) :
    ETriple (numbers hashtext) (rules w₀ fails) i G (self.append a) (fun _ => G)
      (Failed E F) := by
  have hcall : ∀ o, Appends o → Plain o → ETriple (numbers hashtext) (rules w₀ fails) i G
      (call o) (fun _ => G) (Failed E F) := by
    intro o ho hplain
    refine triple_op hG hF hGF (fun w _ _ => no_demand ?_ w) (hfails o ho) ?_
    · rintro row rfl
      exact ho
    · intro w c r v hw hg hp hx _
      obtain ⟨b, rfl⟩ := exec_plain hplain hx
      exact hkeep o w c (.ok b) v ho hw hg hp
  refine triple_append_of (D := fun _ => G) (hcall _ trivial trivial) (hcall _ trivial trivial)
    (hcall _ trivial trivial) (fun _ => hcall _ trivial trivial) fun previous id now => ?_
  refine triple_op hG hF hGF (fun w _ _ => no_demand (by simp) w) (hfails _ trivial) ?_
  intro w c r v hw hg hp hx _
  obtain ⟨k, hk, hid⟩ := hsees w hg
  have hv := hkeep _ w c r v trivial hw hg hp
  simp only [exec, newEvent, Option.any_some, decide_eq_true_eq] at hx
  split_ifs at hx with hmiss
  · exact absurd hid (hmiss k hk)
  · obtain ⟨rfl, -⟩ := Prod.mk.inj (Option.some.inj hx)
    exact hv

/-- An append for a case that is there. -/
lemma triple_append_there {caseId : Uuid} (self : AuditService) (a : AppendArgs)
    (ha : a.caseId = caseId) (hfails : ∀ o, Appends o → ∀ e, fails i o e → E e) :
    ETriple (numbers hashtext) (rules w₀ fails) i (There caseId) (self.append a)
      (fun _ => There caseId) (Failed E (There caseId)) := by
  refine triple_append (lasting_there caseId).stable (lasting_there caseId) (fun _ h => h) self a
    (fun o w c r v ho hw hg hp => ?_) (fun w hg => ha ▸ hg.sees) hfails
  have hd : Demand w i o := no_demand (fun row h => by subst h; exact ho) w
  exact lasting_there caseId w v (keeps_step hw hd hp).2.2 hg

end WhaleMas.Numbering
