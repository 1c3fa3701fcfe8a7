import WhaleMas.Beside
import WhaleMas.EvidenceLife
import WhaleMas.Numbering

/-!
Where the bytes of evidence are. Only the session that drew an identifier stores objects under
it, and only before the row is inserted; from then on the object is the one that the row
describes, or none. A row goes only with a session that was asked to delete it, and does not
come back.

What a call of a session raises is left open, and whether it had its effect by then.
-/

namespace WhaleMas.EvidenceKeeping

open WhaleMas.Models WhaleMas.Program WhaleMas.RelyGuarantee WhaleMas.Beside WhaleMas.Database
open WhaleMas.Services WhaleMas.EvidenceLife
open WhaleMas.Numbering (Policy)

/-! ### Rows and objects -/

/-- The identifiers under which the insert of a row was tried. -/
abbrev Placed : Type := Uuid → Prop

def notePlaced {ι : Type} (_ : ι) : (o : Op) → Answer o → Placed → Placed
  | .createEvidence row, _, g => fun u => g u ∨ ∃ t, (row t).id = u
  | _, _, g => g

/-- The row says where the bytes are, and how many they are, and has their digest. -/
structure Describes (r : Evidence) (data : List UInt8) : Prop where
  key : r.objectKey = objectKeyOf r.caseId r.id r.storedFilename
  size : r.fileSize = data.length
  digest : r.sha256 = Sha256.hexdigest data

/-- There is no object under the identifier of the row but the one it describes. -/
def Backed {ι : Type} (r : Evidence) (w : World ι) : Prop :=
  ∃ data, Describes r data ∧ ∀ c n, w.objects (objectKeyOf c r.id n) = none ∨
    objectKeyOf c r.id n = r.objectKey ∧ w.objects r.objectKey = some ⟨data, r.mimeType⟩

/-- The row as it was, or without its parent. -/
def Like (r s : Evidence) : Prop := s = r ∨ s = { r with parentEvidenceId := none }

lemma Like.refl (r : Evidence) : Like r r := .inl rfl

lemma Like.trans {r s t : Evidence} (h : Like r s) (h' : Like s t) : Like r t := by
  rcases h with rfl | rfl <;> rcases h' with rfl | rfl
  · exact .inl rfl
  · exact .inr rfl
  · exact .inr rfl
  · exact .inr rfl

lemma Like.id {r s : Evidence} (h : Like r s) : s.id = r.id := by
  rcases h with rfl | rfl <;> rfl

lemma Like.caseId {r s : Evidence} (h : Like r s) : s.caseId = r.caseId := by
  rcases h with rfl | rfl <;> rfl

lemma like_orphan (deleted : List Uuid) (r : Evidence) : Like r (orphan deleted r) := by
  cases hparent : r.parentEvidenceId.filter fun p => p ∉ deleted with
  | none => exact .inr (by rw [orphan, hparent])
  | some p =>
    have hsame : r.parentEvidenceId = some p := (Option.filter_eq_some_iff.mp hparent).1
    exact .inl (by rw [orphan, hparent, ← hsame])

variable {ι : Type} {asks : ι → Uuid → Prop} {i : ι} {w v : World ι × Placed} {u : Uuid}
  {r s : Evidence}

lemma Backed.like {w : World ι} (h : Backed r w) (hs : Like r s) : Backed s w := by
  rcases hs with rfl | rfl
  · exact h
  · obtain ⟨data, ⟨hkey, hsize, hdigest⟩, hobjects⟩ := h
    exact ⟨data, ⟨hkey, hsize, hdigest⟩, hobjects⟩

/-- An object under the identifier may have gone. -/
lemma Backed.loses {w v : World ι} (h : Backed r w)
    (hv : ∀ c n, v.objects (objectKeyOf c r.id n) = w.objects (objectKeyOf c r.id n) ∨
      v.objects (objectKeyOf c r.id n) = none) : Backed r v := by
  obtain ⟨data, hdescribes, hobjects⟩ := h
  refine ⟨data, hdescribes, fun c n => ?_⟩
  rcases hv c n with hsame | hnone
  · rcases hobjects c n with hno | ⟨hkey, hsome⟩
    · exact .inl (hsame.trans hno)
    · refine .inr ⟨hkey, ?_⟩
      rw [← hkey, hsame, hkey, hsome]
  · exact .inl hnone

/-! ### The rules -/

/-- The row under the identifier is not to be inserted any more. -/
def Settled (u : Uuid) (w : World ι × Placed) : Prop :=
  w.2 u ∧ ∀ j, ∀ r ∈ (w.1.txn j).evidence, r.id ≠ u

/-- No object is under the identifier. -/
def Vacant (u : Uuid) (w : World ι × Placed) : Prop :=
  ∀ c n, w.1.objects (objectKeyOf c u n) = none

/-- The row under the identifier is gone for good, and its object. -/
structure Gone (u : Uuid) (w : World ι × Placed) : Prop where
  settled : Settled u w
  rows : ∀ r ∈ w.1.evidence, r.id ≠ u
  vacant : Vacant u w

/-- A session is to delete the row as it was asked to, after the object. -/
structure Leaving (asks : ι → Uuid → Prop) (i : ι) (u : Uuid) (w : World ι × Placed) : Prop where
  asked : asks i u
  placed : w.2 u
  vacant : Vacant u w

/-- A row that a session has inserted and not committed. -/
structure Pending (i : ι) (r : Evidence) (w : World ι × Placed) : Prop where
  owner : w.1.owner r.id = .drawn i
  placed : w.2 r.id
  backed : Backed r w.1
  free : ∀ s ∈ w.1.evidence, s.id ≠ r.id

structure Inv (asks : ι → Uuid → Prop) (w : World ι × Placed) : Prop where
  placed : ∀ u, w.2 u → w.1.owner u ≠ .fresh
  bare : ∀ u, w.1.owner u = .fresh → Vacant u w
  rows : ∀ r ∈ w.1.evidence, w.2 r.id ∧ Backed r w.1
  distinct : w.1.evidence.Pairwise fun r s => r.id ≠ s.id
  pending : ∀ i, ∀ r ∈ (w.1.txn i).evidence, Pending i r w
  one : ∀ i, (w.1.txn i).evidence.length ≤ 1
  deleted : ∀ i, ∀ u ∈ (w.1.txn i).deleted, Leaving asks i u w

/-- How rows and objects move: a row stays, or is gone for good with its object as somebody
asked; under an identifier with a row, objects only go. -/
structure Moves (asks : ι → Uuid → Prop) (w v : World ι × Placed) : Prop where
  placed : ∀ u, w.2 u → v.2 u
  rows : ∀ r ∈ w.1.evidence, (∃ s ∈ v.1.evidence, Like r s) ∨ Gone r.id v ∧ ∃ j, asks j r.id
  settled : ∀ u, Settled u w → Settled u v
  gone : ∀ u, Gone u w → Gone u v
  objects : ∀ u, w.2 u → ∀ c n, v.1.objects (objectKeyOf c u n) = w.1.objects (objectKeyOf c u n) ∨
    v.1.objects (objectKeyOf c u n) = none

/-- What session `i` relies on. -/
structure Rely (asks : ι → Uuid → Prop) (i : ι) (w v : World ι × Placed) : Prop where
  txn : v.1.txn i = w.1.txn i
  owner : ∀ u, w.1.owner u = .drawn i → v.1.owner u = .drawn i
  mine : ∀ u, w.1.owner u = .drawn i → (v.2 u ↔ w.2 u)
  kept : ∀ u, w.1.owner u = .drawn i → (w.2 u → ∀ j, ¬ asks j u) →
    ∀ c n, v.1.objects (objectKeyOf c u n) = w.1.objects (objectKeyOf c u n)
  moves : Moves asks w v

/-- Objects are stored under identifiers of one's own, before the row is there; they are
deleted under one's own or where one is asked to. -/
def Demand (asks : ι → Uuid → Prop) (w : World ι × Placed) (i : ι) : Op → Prop
  | .putObject key _ _ => ∃ c u n, key = objectKeyOf c u n ∧ w.1.owner u = .drawn i ∧ ¬ w.2 u
  | .deleteObject key =>
    ∃ c u n, key = objectKeyOf c u n ∧ (w.1.owner u = .drawn i ∨ asks i u ∧ w.2 u)
  | .createEvidence row => (w.1.txn i).evidence = [] ∧
      ∃ u, w.1.owner u = .drawn i ∧ ¬ w.2 u ∧ ∀ t, (row t).id = u ∧ Backed (row t) w.1
  | .deleteEvidence u => Leaving asks i u w
  | _ => True

/-- Rows with one identifier are one row. -/
lemma Inv.eq_of_id {w : World ι × Placed} (hw : Inv asks w) (hr : r ∈ w.1.evidence)
    (hs : s ∈ w.1.evidence) (hid : r.id = s.id) : r = s :=
  List.inj_on_of_nodup_map (List.pairwise_map.mpr hw.distinct) hr hs hid

lemma Leaving.same (h : Leaving asks i u w) (hobjects : v.1.objects = w.1.objects)
    (hplaced : w.2 u → v.2 u) : Leaving asks i u v :=
  ⟨h.asked, hplaced h.placed, fun c n => by rw [hobjects]; exact h.vacant c n⟩

lemma Moves.refl (asks : ι → Uuid → Prop) (w : World ι × Placed) : Moves asks w w where
  placed := fun _ h => h
  rows := fun r hr => .inl ⟨r, hr, .refl r⟩
  settled := fun _ h => h
  gone := fun _ h => h
  objects := fun _ _ _ _ => .inl rfl

lemma Moves.trans {x : World ι × Placed} (h : Moves asks x w) (h' : Moves asks w v) :
    Moves asks x v where
  placed := fun u hu => h'.placed u (h.placed u hu)
  rows := fun r hr => by
    rcases h.rows r hr with ⟨s, hs, hlike⟩ | ⟨hgone, hasks⟩
    · rcases h'.rows s hs with ⟨t, ht, hlike'⟩ | ⟨hgone, hasks⟩
      · exact .inl ⟨t, ht, hlike.trans hlike'⟩
      · exact .inr (hlike.id ▸ ⟨hgone, hasks⟩)
    · exact .inr ⟨h'.gone _ hgone, hasks⟩
  settled := fun u hu => h'.settled u (h.settled u hu)
  gone := fun u hu => h'.gone u (h.gone u hu)
  objects := fun u hu c n => by
    rcases h'.objects u (h.placed u hu) c n with hsame | hnone
    · rcases h.objects u hu c n with hsame' | hnone
      · exact .inl (hsame.trans hsame')
      · exact .inr (hsame.trans hnone)
    · exact .inr hnone

lemma Vacant.moves (h : Vacant u w) (hu : w.2 u) (hm : Moves asks w v) : Vacant u v := by
  intro c n
  rcases hm.objects u hu c n with hsame | hnone
  · exact hsame.trans (h c n)
  · exact hnone

lemma Rely.refl (asks : ι → Uuid → Prop) (i : ι) (w : World ι × Placed) : Rely asks i w w where
  txn := rfl
  owner := fun _ h => h
  mine := fun _ _ => Iff.rfl
  kept := fun _ _ _ _ _ => rfl
  moves := .refl asks w

lemma Rely.trans {x : World ι × Placed} (h : Rely asks i x w) (h' : Rely asks i w v) :
    Rely asks i x v where
  txn := h'.txn.trans h.txn
  owner := fun u hu => h'.owner u (h.owner u hu)
  mine := fun u hu => (h'.mine u (h.owner u hu)).trans (h.mine u hu)
  kept := fun u hu hno c n => (h'.kept u (h.owner u hu)
    (fun hp => hno ((h.mine u hu).mp hp)) c n).trans (h.kept u hu hno c n)
  moves := h.moves.trans h'.moves

/-- Calls raise by themselves only what they may. -/
def rules (asks : ι → Uuid → Prop) (fails : ι → Op → Exn → Prop) :
    Rules ι (World ι × Placed) Choice Op where
  inv := Inv asks
  rely := Rely asks
  demand := Demand asks
  policy := fun _ => Policy fails
  refl := Rely.refl asks
  trans := fun _ _ _ _ => Rely.trans

/-! ### Calls that change no row and no object -/

/-- Session `i` changes no committed row and no object, but may forget what it has pending, and
mark rows for deletion that it was asked to delete. -/
structure Calm (asks : ι → Uuid → Prop) (i : ι) (w v : World ι × Placed) : Prop where
  evidence : v.1.evidence = w.1.evidence
  objects : v.1.objects = w.1.objects
  txn : ∀ j, j ≠ i → v.1.txn j = w.1.txn j
  pending : (v.1.txn i).evidence = (w.1.txn i).evidence ∨ (v.1.txn i).evidence = []
  deleted : ∀ u ∈ (v.1.txn i).deleted, u ∈ (w.1.txn i).deleted ∨ Leaving asks i u w
  owner : ∀ u, v.1.owner u = w.1.owner u ∨ w.1.owner u = .fresh ∧ v.1.owner u = .drawn i
  placed : v.2 = w.2

lemma Calm.owned {j : ι} (h : Calm asks i w v) (hu : w.1.owner u = .drawn j) :
    v.1.owner u = .drawn j := by
  rcases h.owner u with ho | ⟨ho, -⟩
  · rwa [ho]
  · rw [hu] at ho
    cases ho

lemma Calm.leaving {j : ι} (h : Calm asks i w v) (hu : Leaving asks j u w) :
    Leaving asks j u v := hu.same h.objects fun hp => h.placed ▸ hp

lemma Calm.backed (h : Calm asks i w v) (hr : Backed r w.1) : Backed r v.1 :=
  hr.loses fun c n => .inl (by rw [h.objects])

/-- What a session has pending it had pending before. -/
lemma Calm.mem_evidence (h : Calm asks i w v) {j : ι} (hr : r ∈ (v.1.txn j).evidence) :
    r ∈ (w.1.txn j).evidence := by
  by_cases hj : j = i
  · subst hj
    rcases h.pending with hp | hp
    · rwa [← hp]
    · rw [hp] at hr
      cases hr
  · rwa [← h.txn j hj]

lemma Calm.inv (hw : Inv asks w) (h : Calm asks i w v) : Inv asks v where
  placed := fun u hu => by
    have hne := hw.placed u (h.placed ▸ hu)
    rcases h.owner u with ho | ⟨ho, -⟩
    · rwa [ho]
    · exact absurd ho hne
  bare := fun u hu c n => by
    rw [h.objects]
    rcases h.owner u with ho | ⟨-, ho⟩
    · exact hw.bare u (ho ▸ hu) c n
    · rw [ho] at hu
      cases hu
  rows := fun r hr => by
    obtain ⟨hplaced, hbacked⟩ := hw.rows r (h.evidence ▸ hr)
    exact ⟨h.placed ▸ hplaced, h.backed hbacked⟩
  distinct := by
    rw [h.evidence]
    exact hw.distinct
  pending := fun j r hr => by
    obtain ⟨howner, hplaced, hbacked, hfree⟩ := hw.pending j r (h.mem_evidence hr)
    exact ⟨h.owned howner, h.placed ▸ hplaced, h.backed hbacked, h.evidence ▸ hfree⟩
  one := fun j => by
    by_cases hj : j = i
    · subst hj
      rcases h.pending with hp | hp
      · rw [hp]
        exact hw.one j
      · simp [hp]
    · rw [h.txn j hj]
      exact hw.one j
  deleted := fun j u hu => by
    by_cases hj : j = i
    · subst hj
      exact h.leaving ((h.deleted u hu).elim (hw.deleted j u) id)
    · rw [h.txn j hj] at hu
      exact h.leaving (hw.deleted j u hu)

lemma Calm.moves (h : Calm asks i w v) : Moves asks w v := by
  have hsettled : ∀ u, Settled u w → Settled u v := fun u hu =>
    ⟨h.placed ▸ hu.1, fun j r hr => hu.2 j r (h.mem_evidence hr)⟩
  exact ⟨fun u hu => h.placed ▸ hu, fun r hr => .inl ⟨r, h.evidence ▸ hr, .refl r⟩, hsettled,
    fun u hu => ⟨hsettled u hu.settled, h.evidence ▸ hu.rows,
      fun c n => by rw [h.objects]; exact hu.vacant c n⟩,
    fun u _ c n => .inl (by rw [h.objects])⟩

lemma Calm.rely (h : Calm asks i w v) {j : ι} (hj : j ≠ i) : Rely asks j w v where
  txn := h.txn j hj
  owner := fun _ hu => h.owned hu
  mine := fun u _ => by rw [h.placed]
  kept := fun u _ _ c n => by rw [h.objects]
  moves := h.moves

/-! ### Inserts, objects and commits -/

/-- Session `i` keeps the rules. -/
def Keeps (asks : ι → Uuid → Prop) (i : ι) (w v : World ι × Placed) : Prop :=
  Inv asks v ∧ (∀ j, j ≠ i → Rely asks j w v) ∧ Moves asks w v

lemma Calm.keeps (hw : Inv asks w) (h : Calm asks i w v) : Keeps asks i w v :=
  ⟨h.inv hw, fun _ hj => h.rely hj, h.moves⟩

variable {g : Placed}

/-- The insert of a row was tried. -/
lemma keeps_place (hw : Inv asks w) (howner : w.1.owner u = .drawn i)
    (hg : ∀ x, g x ↔ w.2 x ∨ x = u) : Keeps asks i w (w.1, g) := by
  have hmono : ∀ x, w.2 x → g x := fun x hx => (hg x).mpr (.inl hx)
  have hmoves : Moves asks w (w.1, g) := ⟨hmono, fun r hr => .inl ⟨r, hr, .refl r⟩,
    fun x hx => ⟨hmono x hx.1, hx.2⟩, fun x hx => ⟨⟨hmono x hx.settled.1, hx.settled.2⟩,
      hx.rows, hx.vacant⟩, fun _ _ _ _ => .inl rfl⟩
  refine ⟨⟨fun x hx => ?_, hw.bare, fun r hr => ⟨hmono _ (hw.rows r hr).1, (hw.rows r hr).2⟩,
    hw.distinct, fun j r hr => ?_, hw.one,
    fun j x hx => (hw.deleted j x hx).same rfl (hmono x)⟩, fun j hj => ⟨rfl, fun _ h => h,
    fun x hx => ?_, fun _ _ _ _ _ => rfl, hmoves⟩, hmoves⟩
  · rcases (hg x).mp hx with hx | rfl
    · exact hw.placed x hx
    · simp [howner]
  · obtain ⟨ho, hplaced, hbacked, hfree⟩ := hw.pending j r hr
    exact ⟨ho, hmono _ hplaced, hbacked, hfree⟩
  · refine (hg x).trans (or_iff_left ?_)
    rintro rfl
    rw [hx] at howner
    exact hj (Owner.drawn.inj howner)

variable [DecidableEq ι]

/-- A row is inserted. -/
lemma keeps_insert (hw : Inv asks w) (hnone : (w.1.txn i).evidence = [])
    (howner : w.1.owner r.id = .drawn i) (hnew : ¬ w.2 r.id) (hbacked : Backed r w.1)
    (hg : ∀ x, g x ↔ w.2 x ∨ x = r.id) :
    Keeps asks i w
      (w.1.setTxn i { w.1.txn i with evidence := (w.1.txn i).evidence ++ [r] }, g) := by
  obtain ⟨hinv, hrely, hmoves⟩ := keeps_place hw howner hg
  have hpending : ∀ x, w.2 x → (∀ j, ∀ s ∈ (w.1.txn j).evidence, s.id ≠ x) → ∀ j, ∀ s ∈
      ((w.1.setTxn i { w.1.txn i with evidence := (w.1.txn i).evidence ++ [r] }).txn j).evidence,
      s.id ≠ x := by
    intro x hx hno
    refine forall_txn (P := fun _ t => ∀ s ∈ t.evidence, s.id ≠ x) rfl (fun s hs => ?_)
      fun j _ => hno j
    rcases List.mem_append.mp hs with hs | hs
    · exact hno i s hs
    · rw [List.mem_singleton.mp hs]
      rintro rfl
      exact hnew hx
  have hmoves' : Moves asks w
      (w.1.setTxn i { w.1.txn i with evidence := (w.1.txn i).evidence ++ [r] }, g) :=
    ⟨hmoves.placed, fun s hs => .inl ⟨s, hs, .refl s⟩,
      fun x hx => ⟨hmoves.placed x hx.1, hpending x hx.1 hx.2⟩,
      fun x hx => ⟨⟨hmoves.placed x hx.settled.1, hpending x hx.settled.1 hx.settled.2⟩,
        hx.rows, hx.vacant⟩,
      fun _ _ _ _ => .inl rfl⟩
  refine ⟨⟨hinv.placed, hinv.bare, hinv.rows, hinv.distinct, ?_, ?_, ?_⟩, fun j hj => ?_, hmoves'⟩
  · refine forall_txn (P := fun j t => ∀ s ∈ t.evidence, Pending j s _) rfl (fun s hs => ?_)
      fun j _ s hs => ?_
    · rw [hnone] at hs
      obtain rfl := List.mem_singleton.mp hs
      refine ⟨howner, (hg _).mpr (.inr rfl), hbacked, fun s hs he => ?_⟩
      exact hnew (he ▸ (hw.rows s hs).1)
    · obtain ⟨ho, hplaced, hback, hfree⟩ := hinv.pending j s hs
      exact ⟨ho, hplaced, hback, hfree⟩
  · exact forall_txn (P := fun _ t => t.evidence.length ≤ 1) rfl (by simp [hnone])
      fun j _ => hw.one j
  · exact forall_txn (P := fun j t => ∀ x ∈ t.deleted, Leaving asks j x _) rfl
      (fun x hx => (hw.deleted i x hx).same rfl (hmoves.placed x))
      fun j _ x hx => (hw.deleted j x hx).same rfl (hmoves.placed x)
  · exact ⟨setTxn_txn_of_ne hj, fun _ h => h, (hrely j hj).mine, fun _ _ _ _ _ => rfl, hmoves'⟩

omit [DecidableEq ι] in
/-- An object is stored before the row is there, or deleted. -/
lemma keeps_setObject {c : Uuid} {n : String} {o : Option StoredObject} (hw : Inv asks w)
    (hu : w.1.owner u = .drawn i ∧ ¬ w.2 u ∨
      o = none ∧ (w.1.owner u = .drawn i ∨ asks i u ∧ w.2 u)) :
    Keeps asks i w (w.1.setObject (objectKeyOf c u n) o, w.2) := by
  have hsame : ∀ c' x n', x ≠ u → (w.1.setObject (objectKeyOf c u n) o).objects
      (objectKeyOf c' x n') = w.1.objects (objectKeyOf c' x n') := by
    intro c' x n' hx
    have hkey : objectKeyOf c' x n' ≠ objectKeyOf c u n := fun h => hx (objectKeyOf_inj h).2
    simp [World.setObject, hkey]
  have hloses : ∀ x, w.2 x → ∀ c' n', (w.1.setObject (objectKeyOf c u n) o).objects
      (objectKeyOf c' x n') = w.1.objects (objectKeyOf c' x n') ∨
      (w.1.setObject (objectKeyOf c u n) o).objects (objectKeyOf c' x n') = none := by
    intro x hx c' n'
    by_cases hxu : x = u
    · subst hxu
      obtain rfl : o = none := by
        rcases hu with ⟨-, hno⟩ | ⟨ho, -⟩
        · exact absurd hx hno
        · exact ho
      by_cases hkey : objectKeyOf c' x n' = objectKeyOf c x n
      · exact .inr (by simp [World.setObject, hkey])
      · exact .inl (by simp [World.setObject, hkey])
    · exact .inl (hsame c' x n' hxu)
  have hvacant : ∀ x, w.2 x → Vacant x w →
      Vacant x (w.1.setObject (objectKeyOf c u n) o, w.2) := fun x hx hno c' n' =>
    (hloses x hx c' n').elim (fun h => h.trans (hno c' n')) id
  have hmoves : Moves asks w (w.1.setObject (objectKeyOf c u n) o, w.2) :=
    ⟨fun _ h => h, fun r hr => .inl ⟨r, hr, .refl r⟩, fun _ h => h,
      fun x h => ⟨h.settled, h.rows, hvacant x h.settled.1 h.vacant⟩, hloses⟩
  have hfresh : w.1.owner u ≠ .fresh := by
    rcases hu with ⟨ho, -⟩ | ⟨-, ho | ⟨-, hx⟩⟩
    · simp [ho]
    · simp [ho]
    · exact hw.placed u hx
  refine ⟨⟨hw.placed, fun x hx c' n' => ?_, fun r hr => ?_, hw.distinct, fun j r hr => ?_, hw.one,
    fun j x hx => ?_⟩, fun j hj => ⟨rfl, fun _ h => h, fun _ _ => Iff.rfl,
    fun x hx hno c' n' => ?_, hmoves⟩, hmoves⟩
  · have hne : x ≠ u := by
      rintro rfl
      exact hfresh hx
    exact (hsame c' x n' hne).trans (hw.bare x hx c' n')
  · obtain ⟨hplaced, hbacked⟩ := hw.rows r hr
    exact ⟨hplaced, hbacked.loses (hloses _ hplaced)⟩
  · obtain ⟨ho, hplaced, hbacked, hfree⟩ := hw.pending j r hr
    exact ⟨ho, hplaced, hbacked.loses (hloses _ hplaced), hfree⟩
  · obtain ⟨hasked, hplaced, hno⟩ := hw.deleted j x hx
    exact ⟨hasked, hplaced, hvacant x hplaced hno⟩
  · refine hsame c' x n' ?_
    rintro rfl
    rcases hu with ⟨ho, -⟩ | ⟨-, ho | ⟨ha, hp⟩⟩
    · rw [hx] at ho
      exact hj (Owner.drawn.inj ho)
    · rw [hx] at ho
      exact hj (Owner.drawn.inj ho)
    · exact hno hp i ha

/-- A row after a commit was there, or was pending. -/
lemma mem_commit_evidence (hr : r ∈ (w.1.commit i).evidence) :
    ∃ s, Like s r ∧ s.id ∉ (w.1.txn i).deleted ∧ (s ∈ w.1.evidence ∨ s ∈ (w.1.txn i).evidence) := by
  obtain ⟨s, hs, rfl⟩ := List.mem_map.mp hr
  obtain ⟨hmem, hkeep⟩ := List.mem_filter.mp hs
  exact ⟨s, like_orphan _ s, by simpa using hkeep, List.mem_append.mp hmem⟩

/-- A row is there after a commit unless it is deleted. -/
lemma like_commit_evidence (hr : r ∈ w.1.evidence ∨ r ∈ (w.1.txn i).evidence)
    (hkeep : r.id ∉ (w.1.txn i).deleted) : ∃ s ∈ (w.1.commit i).evidence, Like r s := by
  refine ⟨_, List.mem_map_of_mem (List.mem_filter.mpr ⟨List.mem_append.mpr hr, ?_⟩),
    like_orphan _ r⟩
  simpa using hkeep

/-- A session commits its row and its deletions. -/
lemma keeps_commit (hw : Inv asks w) : Keeps asks i w (w.1.commit i, w.2) := by
  have hrest : ∀ j, ∀ r ∈ ((w.1.commit i).txn j).evidence, j ≠ i ∧ r ∈ (w.1.txn j).evidence :=
    forall_txn (P := fun j t => ∀ r ∈ t.evidence, j ≠ i ∧ r ∈ (w.1.txn j).evidence) rfl (by simp)
      fun j hj r hr => ⟨hj, hr⟩
  have hsettled : ∀ u, Settled u w → Settled u (w.1.commit i, w.2) := fun u hu =>
    ⟨hu.1, fun j r hr => hu.2 j r (hrest j r hr).2⟩
  have hmoves : Moves asks w (w.1.commit i, w.2) := by
    refine ⟨fun _ h => h, fun r hr => ?_, hsettled, fun u hu => ⟨hsettled u hu.settled,
      fun r hr => ?_, hu.vacant⟩, fun _ _ _ _ => .inl rfl⟩
    · by_cases hdeleted : r.id ∈ (w.1.txn i).deleted
      · obtain ⟨hasked, hplaced, hvacant⟩ := hw.deleted i _ hdeleted
        refine .inr ⟨⟨hsettled _ ⟨hplaced, fun j s hs => ?_⟩, fun s hs he => ?_, hvacant⟩, i,
          hasked⟩
        · exact Ne.symm ((hw.pending j s hs).free r hr)
        · obtain ⟨t, hlike, hkeep, -⟩ := mem_commit_evidence hs
          rw [← hlike.id, he] at hkeep
          exact hkeep hdeleted
      · exact .inl (like_commit_evidence (.inl hr) hdeleted)
    · obtain ⟨s, hlike, -, hs | hs⟩ := mem_commit_evidence hr
      · rw [hlike.id]
        exact hu.rows s hs
      · rw [hlike.id]
        exact hu.settled.2 i s hs
  refine ⟨⟨hw.placed, hw.bare, fun r hr => ?_, ?_, fun j r hr => ?_, ?_, ?_⟩, fun j hj => ⟨
    commit_txn_of_ne hj, fun _ h => h, fun _ _ => Iff.rfl, fun _ _ _ _ _ => rfl, hmoves⟩, hmoves⟩
  · obtain ⟨s, hlike, -, hs | hs⟩ := mem_commit_evidence hr
    · obtain ⟨hplaced, hbacked⟩ := hw.rows s hs
      exact ⟨hlike.id ▸ hplaced, hbacked.like hlike⟩
    · obtain ⟨-, hplaced, hbacked, -⟩ := hw.pending i s hs
      exact ⟨hlike.id ▸ hplaced, hbacked.like hlike⟩
  · have hlist : (w.1.evidence ++ (w.1.txn i).evidence).Pairwise fun r s => r.id ≠ s.id := by
      refine List.pairwise_append.mpr ⟨hw.distinct, ?_, fun r hr s hs => ?_⟩
      · rcases Nat.le_one_iff_eq_zero_or_eq_one.mp (hw.one i) with h | h
        · simp [List.eq_nil_of_length_eq_zero h]
        · obtain ⟨r, hr⟩ := List.length_eq_one_iff.mp h
          simp [hr]
      · exact (hw.pending i s hs).free r hr
    exact List.pairwise_map.mpr ((hlist.filter _).imp fun h => h)
  · obtain ⟨hj, hr⟩ := hrest j r hr
    obtain ⟨ho, hplaced, hbacked, hfree⟩ := hw.pending j r hr
    refine ⟨ho, hplaced, hbacked, fun s hs => ?_⟩
    obtain ⟨t, hlike, -, ht | ht⟩ := mem_commit_evidence hs
    · rw [hlike.id]
      exact hfree t ht
    · rw [hlike.id]
      intro he
      have hto := (hw.pending i t ht).owner
      rw [he, ho] at hto
      exact hj (Owner.drawn.inj hto)
  · exact forall_txn (P := fun _ t => t.evidence.length ≤ 1) rfl (by simp) fun j _ => hw.one j
  · exact forall_txn (P := fun j t => ∀ x ∈ t.deleted, Leaving asks j x _) rfl (by simp)
      fun j _ x hx => (hw.deleted j x hx).same rfl id

/-! ### Calls -/

variable [Fintype ι] {hashtext : String → ℤ} {o : Op} {c : Choice} {a : Answer o}

/-- The database and the storage, with a record of the rows whose insert was tried. -/
def keeping (hashtext : String → ℤ) : Machine ι (World ι × Placed) Choice Op Answer :=
  recording (machine hashtext) notePlaced

omit [DecidableEq ι] [Fintype ι] in
lemma notePlaced_of_ne (ho : ∀ row, o ≠ .createEvidence row) : notePlaced i o a g = g := by
  cases o <;> first | rfl | exact absurd rfl (ho _)

omit [Fintype ι] in
/-- A call that inserts no row, stores and deletes no object and does not commit is calm. -/
lemma calm_of_effect {x : World ι} (h : Effect i c w.1 o x) (hd : Demand asks w i o)
    (hcreate : ∀ row, o ≠ .createEvidence row) (hcommit : o ≠ .commit)
    (hput : ∀ key data contentType, o ≠ .putObject key data contentType)
    (hdelete : ∀ key, o ≠ .deleteObject key) : Calm asks i w (x, w.2) := by
  have hsame : x.evidence = w.1.evidence → x.objects = w.1.objects →
      ((x.txn i).evidence = (w.1.txn i).evidence ∨ (x.txn i).evidence = []) →
      (∀ u ∈ (x.txn i).deleted, u ∈ (w.1.txn i).deleted ∨ Leaving asks i u w) →
      Calm asks i w (x, w.2) :=
    fun he hobj hp hdel => ⟨he, hobj, fun j hj => h.others hj, hp, hdel, h.owner, rfl⟩
  cases h with
  | createEvidence row => exact absurd rfl (hcreate row)
  | commit => exact absurd rfl hcommit
  | putObject key data contentType => exact absurd rfl (hput key data contentType)
  | deleteObject key => exact absurd rfl (hdelete key)
  | nothing | uuid4 | nextSequenceValue => exact hsame rfl rfl (.inl rfl) fun _ h => .inl h
  | rollback | close => exact hsame rfl rfl (.inr (by simp)) (by simp)
  | deleteEvidence evidenceId =>
    refine hsame rfl rfl (.inl (by simp)) fun u hu => ?_
    simp only [setTxn_txn] at hu
    rcases List.mem_append.mp hu with hu | hu
    · exact .inl hu
    · rw [List.mem_singleton.mp hu]
      exact .inr hd
  | appendEvent event => exact hsame rfl rfl (.inl (by simp)) fun u hu => .inl (by simpa using hu)
  | createCase | flushCase | lockCaseChain =>
    exact hsame rfl rfl (.inl (by simp)) fun u hu => .inl (by simpa using hu)

/-- **Every call keeps the rules.** -/
lemma keeps_step (hw : Inv asks w) (hd : Demand asks w i o)
    (h : (keeping hashtext).perform o i c w = some (a, v)) : Keeps asks i w v := by
  obtain ⟨x, g⟩ := v
  obtain ⟨hp, hg⟩ := perform_recording h
  have heffect : Effect i c w.1 o x := perform_effect hp
  change g = notePlaced i o a w.2 at hg
  by_cases hcreate : ∃ row, o = .createEvidence row
  · obtain ⟨row, rfl⟩ := hcreate
    obtain ⟨hnone, u, howner, hnew, hrow⟩ := hd
    have hplaced : ∀ y, g y ↔ w.2 y ∨ y = u := by
      intro y
      rw [hg]
      exact or_congr_right ⟨fun ⟨t, ht⟩ => ht.symm.trans (hrow t).1,
        fun hy => ⟨c.now, (hrow c.now).1.trans hy.symm⟩⟩
    obtain ⟨hid, hbacked⟩ := hrow c.now
    cases heffect with
    | nothing => exact keeps_place hw howner hplaced
    | createEvidence =>
      subst hid
      exact keeps_insert hw hnone howner hnew hbacked hplaced
  · push Not at hcreate
    rw [notePlaced_of_ne hcreate] at hg
    subst hg
    by_cases hcalm : Calm asks i w (x, w.2)
    · exact hcalm.keeps hw
    · have hchanges : o = .commit ∨ (∃ key data contentType, o = .putObject key data contentType) ∨
          ∃ key, o = .deleteObject key := by
        by_contra hno
        push Not at hno
        exact hcalm (calm_of_effect heffect hd hcreate hno.1 hno.2.1 hno.2.2)
      have hnothing : ∀ y : World ι, y = w.1 → Keeps asks i w (y, w.2) := fun y hy => by
        rw [hy]
        exact ⟨hw, fun j _ => .refl asks j w, .refl asks w⟩
      rcases hchanges with rfl | ⟨key, data, contentType, rfl⟩ | ⟨key, rfl⟩
      · cases heffect with
        | nothing => exact hnothing _ rfl
        | commit => exact keeps_commit hw
      · obtain ⟨caseId, u, n, rfl, hu⟩ := hd
        cases heffect with
        | nothing => exact hnothing _ rfl
        | putObject => exact keeps_setObject hw (.inl hu)
      · obtain ⟨caseId, u, n, rfl, hu⟩ := hd
        cases heffect with
        | nothing => exact hnothing _ rfl
        | deleteObject => exact keeps_setObject hw (.inr ⟨rfl, hu⟩)

end WhaleMas.EvidenceKeeping
