import WhaleMas.SessionFrame

/-!
What the sessions of concurrent requests keep and rely on: every identifier lives as the log
says, only the session that drew an identifier begins its life, and rows do not come back.

A run may be clean: all its requests are uploads of one content to one case, and no call fails
by itself. Then rows and objects stay, and rows with that content are kept apart.
-/

namespace WhaleMas.SessionRules

open WhaleMas.Models WhaleMas.AuditLog WhaleMas.Program WhaleMas.RelyGuarantee
open WhaleMas.Database WhaleMas.Services WhaleMas.EvidenceLife WhaleMas.SessionFrame

/-- What a run is about: the identifiers that are older than it and the sessions that upload;
and, if it is clean, the case and the content of the uploads and the objects stored before. -/
structure Setting (ι : Type) where
  old : Uuid → Prop
  isUpload : ι → Prop
  clean : Prop
  caseId : Uuid
  content : List UInt8
  storage : String → Option StoredObject

def Setting.digest {ι : Type} (S : Setting ι) : String := Sha256.hexdigest S.content

variable {ι : Type} {S : Setting ι} {i : ι} {w v : World ι}

/-- The row has the case and the digest of the uploads. -/
def Setting.Same (S : Setting ι) (r : Evidence) : Prop :=
  r.caseId = S.caseId ∧ r.sha256 = S.digest

/-- No object lies under the identifier, except at `key`. -/
def Bare (u : Uuid) (key : Option String) (w : World ι) : Prop :=
  ∀ c n, key ≠ some (objectKeyOf c u n) → w.objects (objectKeyOf c u n) = none

/-- Nothing is known of the identifier, and no object lies under it. -/
def Blank (u : Uuid) (w : World ι) : Prop := view u w = View.blank ∧ Bare u none w

/-! ### The invariant -/

/-- What a transaction of a clean run may have to commit. -/
structure Modest (S : Setting ι) (i : ι) (t : Txn) (w : World ι) : Prop where
  deleted : t.deleted = []
  one : t.evidence.length ≤ 1
  apart : ∀ r ∈ t.evidence, S.Same r → (∀ s ∈ w.evidence, ¬ S.Same s) ∧
    ∀ j, j ≠ i → ∀ s ∈ (w.txn j).evidence, ¬ S.Same s

structure Clean (S : Setting ι) (w : World ι) : Prop where
  caseThere : ∃ c ∈ w.cases, c.id = S.caseId
  modest : ∀ i, Modest S i (w.txn i) w
  single : ∀ r ∈ w.evidence, S.Same r → ∀ s ∈ w.evidence, S.Same s → r.id = s.id
  owned : ∀ r ∈ w.evidence, S.Same r → ∃ j, w.owner r.id = .drawn j
  stored : ∀ key, (∀ c u n i, w.owner u = .drawn i → key ≠ objectKeyOf c u n) →
    w.objects key = S.storage key

structure Inv (S : Setting ι) (w : World ι) : Prop where
  old : ∀ u, w.owner u = .old ↔ S.old u
  blank : ∀ u, w.owner u = .fresh → Blank u w
  life : ∀ u i, w.owner u = .drawn i → Life (view u w)
  keyed : ∀ r ∈ w.evidence, ∀ c u n, ¬ S.old u → r.objectKey = objectKeyOf c u n → r.id = u
  clean : S.clean → Clean S w

/-- What session `i` relies on. -/
structure Rely (S : Setting ι) (i : ι) (w v : World ι) : Prop where
  txn : v.txn i = w.txn i
  owner : ∀ u, v.owner u = .drawn i ↔ w.owner u = .drawn i
  taken : ∀ u, w.owner u ≠ .fresh → v.owner u ≠ .fresh
  own : ∀ u, w.owner u = .drawn i → (view u w).Open ∨ S.clean → view u v = view u w
  objects : ∀ u, w.owner u = .drawn i → ∀ c n,
    w.objects (objectKeyOf c u n) = none ∨ S.clean →
    v.objects (objectKeyOf c u n) = w.objects (objectKeyOf c u n)
  grows : ∀ u, (view u w).log <+: (view u v).log
  gone : ∀ u, (view u w).Made → (view u w).rows = [] → (view u v).rows = []
  same : S.clean → (∃ r ∈ w.evidence, S.Same r) → ∃ r ∈ v.evidence, S.Same r

lemma Rely.refl (S : Setting ι) (i : ι) (w : World ι) : Rely S i w w where
  txn := rfl
  owner := fun _ => Iff.rfl
  taken := fun _ h => h
  own := fun _ _ _ => rfl
  objects := fun _ _ _ _ _ => rfl
  grows := fun _ => List.prefix_rfl
  gone := fun _ _ h => h
  same := fun _ h => h

lemma Rely.trans {u : World ι} (h : Rely S i w v) (h' : Rely S i v u) : Rely S i w u where
  txn := h'.txn.trans h.txn
  owner := fun x => (h'.owner x).trans (h.owner x)
  taken := fun x hx => h'.taken x (h.taken x hx)
  own := fun x hx ho => by
    have hv := h.own x hx ho
    rw [← hv]
    exact h'.own x ((h.owner x).mpr hx) (hv ▸ ho)
  objects := fun x hx c n ho => by
    have hv := h.objects x hx c n ho
    rw [← hv]
    exact h'.objects x ((h.owner x).mpr hx) c n (hv ▸ ho)
  grows := fun x => (h.grows x).trans (h'.grows x)
  gone := fun x hm hr => h'.gone x (hm.mono (h.grows x)) (h.gone x hm hr)
  same := fun hc hs => h'.same hc (h.same hc hs)

lemma Bare.rely {u : Uuid} {key : Option String} (h : Bare u key w) (hr : Rely S i w v)
    (hu : w.owner u = .drawn i) : Bare u key v := by
  intro c n hn
  have hnone := h c n hn
  rw [hr.objects u hu c n (.inl hnone), hnone]

/-- A commit with a row of evidence pending is not in doubt: where it raises an `Exception`,
it was not applied. -/
def Certain (w : World ι) (i : ι) (o : Op) (c : Choice) : Prop :=
  o = .commit → (w.txn i).evidence ≠ [] → ∀ e, c.fault = .after e → e.isException = false

/-- Commits of rows are not in doubt, and no call of a clean run fails by itself. -/
def Policy (S : Setting ι) (w : World ι) (i : ι) (o : Op) (c : Choice) : Prop :=
  Certain w i o c ∧ (S.clean → c.fault = .none)

/-- An upload deletes no object of a committed row. -/
def Demand (S : Setting ι) (w : World ι) (i : ι) (o : Op) : Prop :=
  ∀ key, o = .deleteObject key → S.isUpload i → ∀ r ∈ w.evidence, r.objectKey ≠ key

def rules (S : Setting ι) : Rules ι (World ι) Choice Op where
  inv := Inv S
  rely := Rely S
  demand := Demand S
  policy := Policy S
  refl := Rely.refl S
  trans := fun _ _ _ _ => Rely.trans

/-! ### Steps that commit nothing -/

lemma Blank.quiet {u : Uuid} (hb : Blank u w) (h : Quiet i w v) : Blank u v := by
  refine ⟨(h.view u).trans hb.1, fun c n hn => ?_⟩
  rw [h.objects]
  exact hb.2 c n hn

lemma Clean.quiet (hc : Clean S w) (h : Quiet i w v) (ht : Modest S i (v.txn i) w) :
    Clean S v where
  caseThere := by
    rw [h.cases]
    exact hc.caseThere
  modest := fun j => by
    by_cases hj : j = i
    · subst hj
      refine ⟨ht.deleted, ht.one, fun r hr hs => ?_⟩
      obtain ⟨hcom, hother⟩ := ht.apart r hr hs
      rw [h.evidence]
      exact ⟨hcom, fun k hk => by rw [h.txn k hk]; exact hother k hk⟩
    · have hm := hc.modest j
      rw [h.txn j hj]
      refine ⟨hm.deleted, hm.one, fun r hr hs => ?_⟩
      obtain ⟨hcom, hother⟩ := hm.apart r hr hs
      rw [h.evidence]
      refine ⟨hcom, fun k hk s hs' hss => ?_⟩
      by_cases hki : k = i
      · subst hki
        exact (ht.apart s hs' hss).2 j hj r hr hs
      · rw [h.txn k hki] at hs'
        exact hother k hk s hs' hss
  single := by
    rw [h.evidence]
    exact hc.single
  owned := by
    rw [h.evidence, h.owner]
    exact hc.owned
  stored := by
    rw [h.objects, h.owner]
    exact hc.stored

lemma keeps_quiet (hw : Inv S w) (h : Quiet i w v) (ht : S.clean → Modest S i (v.txn i) w) :
    Keeps (rules S) i w v := by
  constructor
  · constructor
    · rw [h.owner]
      exact hw.old
    · intro u hu
      exact (hw.blank u (h.owner ▸ hu)).quiet h
    · intro u j hu
      rw [h.view]
      exact hw.life u j (h.owner ▸ hu)
    · rw [h.evidence]
      exact hw.keyed
    · exact fun hc => (hw.clean hc).quiet h (ht hc)
  · intro j hj
    constructor
    · exact h.txn j hj
    · simp [h.owner]
    · simp [h.owner]
    · exact fun u _ _ => h.view u
    · simp [h.objects]
    · intro u
      rw [h.view]
    · intro u _ hr
      rwa [h.view]
    · rw [h.evidence]
      exact fun _ hs => hs

/-- A transaction that has no row of evidence to commit, or still the same one. -/
lemma Modest.of_evidence {t : Txn} (hw : Inv S w) (hc : S.clean) (hd : t.deleted = [])
    (he : t.evidence = [] ∨ t.evidence = (w.txn i).evidence) : Modest S i t w := by
  rcases he with he | he
  · exact ⟨hd, by simp [he], by simp [he]⟩
  · have hm := (hw.clean hc).modest i
    exact ⟨hd, by rw [he]; exact hm.one, by rw [he]; exact hm.apart⟩

lemma draw_owner_of_ne {x u : Uuid} (h : x ≠ u) : (w.draw i u).owner x = w.owner x := by
  simp [World.draw, h]

lemma Clean.draw {u : Uuid} (hc : Clean S w) (hu : w.owner u = .fresh) : Clean S (w.draw i u) where
  caseThere := hc.caseThere
  modest := fun j => ⟨(hc.modest j).deleted, (hc.modest j).one, (hc.modest j).apart⟩
  single := hc.single
  owned := fun r hr hs => by
    obtain ⟨j, hj⟩ := hc.owned r hr hs
    exact ⟨j, owner_draw hu hj⟩
  stored := fun key hkey => hc.stored key fun c x n j hx => hkey c x n j (owner_draw hu hx)

lemma Inv.draw {u : Uuid} (hw : Inv S w) (hu : w.owner u = .fresh) : Inv S (w.draw i u) where
  old := fun x => by
    by_cases hx : x = u
    · subst hx
      have hold : ¬ S.old x := fun h => by simp [(hw.old x).mpr h] at hu
      simp [World.draw, hold]
    · rw [draw_owner_of_ne hx]
      exact hw.old x
  blank := fun x hx => by
    by_cases hxu : x = u
    · subst hxu
      simp [World.draw] at hx
    · exact hw.blank x (draw_owner_of_ne hxu ▸ hx)
  life := fun x j hx => by
    by_cases hxu : x = u
    · subst hxu
      have hv : view x (w.draw i x) = View.blank := (hw.blank x hu).1
      rw [hv]
      exact .blank
    · exact hw.life x j (draw_owner_of_ne hxu ▸ hx)
  keyed := hw.keyed
  clean := fun hc => (hw.clean hc).draw hu

lemma rely_draw {j : ι} {u : Uuid} (hu : w.owner u = .fresh) (hj : j ≠ i) :
    Rely S j w (w.draw i u) where
  txn := rfl
  owner := fun x => by
    by_cases hx : x = u
    · subst hx
      simp [World.draw, hu, Ne.symm hj]
    · rw [draw_owner_of_ne hx]
  taken := fun x hx => by
    by_cases hxu : x = u
    · subst hxu
      simp [World.draw]
    · rwa [draw_owner_of_ne hxu]
  own := fun _ _ _ => rfl
  objects := fun _ _ _ _ _ => rfl
  grows := fun _ => List.prefix_rfl
  gone := fun _ _ h => h
  same := fun _ h => h

lemma keeps_draw {u : Uuid} (hw : Inv S w) (hu : w.owner u = .fresh) :
    Keeps (rules S) i w (w.draw i u) := ⟨hw.draw hu, fun _ hj => rely_draw hu hj⟩

/-- A session stores or deletes an object under an identifier of its own. -/
lemma keeps_setObject {c E : Uuid} {n : String} {o : Option StoredObject} (hw : Inv S w)
    (hE : w.owner E = .drawn i) : Keeps (rules S) i w (w.setObject (objectKeyOf c E n) o) := by
  have hobj : ∀ c' u n', u ≠ E → (w.setObject (objectKeyOf c E n) o).objects
      (objectKeyOf c' u n') = w.objects (objectKeyOf c' u n') := by
    intro c' u n' hu
    have hkey : objectKeyOf c' u n' ≠ objectKeyOf c E n := fun h => hu (objectKeyOf_inj h).2
    simp [World.setObject, hkey]
  have hother : ∀ u, w.owner u ≠ .drawn i → u ≠ E := by
    rintro u hu rfl
    exact hu hE
  constructor
  · refine ⟨hw.old, fun u hu => ⟨(hw.blank u hu).1, fun c' n' hn => ?_⟩, hw.life, hw.keyed,
      fun hc => ?_⟩
    · have hu' : w.owner u = .fresh := hu
      rw [hobj c' u n' (hother u (by simp [hu']))]
      exact (hw.blank u hu).2 c' n' hn
    · have hcl := hw.clean hc
      refine ⟨hcl.caseThere, fun j => ⟨(hcl.modest j).deleted, (hcl.modest j).one,
        (hcl.modest j).apart⟩, hcl.single, hcl.owned, fun key hkey => ?_⟩
      have hk : key ≠ objectKeyOf c E n := hkey c E n i hE
      rw [← hcl.stored key hkey]
      simp [World.setObject, hk]
  · intro j hj
    refine ⟨rfl, fun _ => Iff.rfl, fun _ h => h, fun _ _ _ => rfl, fun u hu c' n' _ => ?_,
      fun _ => List.prefix_rfl, fun _ _ h => h, fun _ h => h⟩
    exact hobj c' u n' (hother u (by simp [hu, hj]))

/-- An object is deleted. -/
lemma keeps_deleteObject {key : String} (hw : Inv S w) (hc : ¬ S.clean) :
    Keeps (rules S) i w (w.setObject key none) := by
  have hobj : ∀ k, w.objects k = none → (w.setObject key none).objects k = none := by
    intro k hk
    by_cases h : k = key
    · subst h
      simp [World.setObject]
    · simpa [World.setObject, h] using hk
  constructor
  · refine ⟨hw.old, fun u hu => ⟨(hw.blank u hu).1, fun c n hn => ?_⟩, hw.life, hw.keyed,
      fun h => absurd h hc⟩
    exact hobj _ ((hw.blank u hu).2 c n hn)
  · intro j _
    refine ⟨rfl, fun _ => Iff.rfl, fun _ h => h, fun _ _ _ => rfl, fun u _ c n h => ?_,
      fun _ => List.prefix_rfl, fun _ _ h => h, fun _ h => h⟩
    have hn := h.resolve_right hc
    rw [hobj _ hn, hn]

/-! ### Commits -/

/-- What the commit of session `i` may do to an identifier it touches. -/
structure Allowed [DecidableEq ι] (S : Setting ι) (i : ι) (u : Uuid) (w : World ι) : Prop where
  taken : w.owner u ≠ .fresh
  life : ¬ S.old u → Life (view u (w.commit i))
  foreign : ∀ j, j ≠ i → w.owner u = .drawn j → ¬ (view u w).Open ∧ ¬ S.clean
  gone : (view u w).Made → (view u w).rows = [] → (view u (w.commit i)).rows = []

/-- The transaction has nothing about the identifier. -/
def Untouched (u : Uuid) (t : Txn) : Prop := u ∉ t.deleted ∧ txnView u t = View.blank

variable [DecidableEq ι]

lemma view_commit_untouched {u : Uuid} (h : Untouched u (w.txn i)) :
    view u (w.commit i) = view u w := by
  have hd : decide (u ∈ (w.txn i).deleted) = false := by simpa using h.1
  rw [view_commit, h.2, hd, View.add_blank]

lemma mem_commit_evidence {r : Evidence} : r ∈ (w.commit i).evidence ↔
    ∃ s, (s ∈ w.evidence ∨ s ∈ (w.txn i).evidence) ∧ s.id ∉ (w.txn i).deleted ∧
      orphan (w.txn i).deleted s = r := by
  simp [and_assoc, or_and_right, exists_or]

/-- Sessions whose rows are kept apart commit one after the other. -/
lemma Clean.commit (hc : Clean S w)
    (hown : ∀ r ∈ (w.txn i).evidence, w.owner r.id = .drawn i) : Clean S (w.commit i) where
  caseThere := by
    obtain ⟨c, hmem, hid⟩ := hc.caseThere
    refine ⟨updateCase (w.txn i).updates c, ?_, (updateCase_keeps _ c).1.trans hid⟩
    exact List.mem_map_of_mem (List.mem_append_left _ hmem)
  modest := fun j => by
    by_cases hj : j = i
    · subst hj
      rw [commit_txn]
      exact ⟨rfl, by simp, by simp⟩
    · have hm := hc.modest j
      rw [commit_txn_of_ne hj]
      refine ⟨hm.deleted, hm.one, fun r hr hs => ⟨fun s hmem hss => ?_, fun k hk s hmem hss => ?_⟩⟩
      · obtain ⟨s₀, hs₀, -, rfl⟩ := mem_commit_evidence.mp hmem
        rcases hs₀ with hs₀ | hs₀
        · exact (hm.apart r hr hs).1 s₀ hs₀ hss
        · exact (hm.apart r hr hs).2 i (Ne.symm hj) s₀ hs₀ hss
      · by_cases hki : k = i
        · subst hki
          simp at hmem
        · rw [commit_txn_of_ne hki] at hmem
          exact (hm.apart r hr hs).2 k hk s hmem hss
  single := by
    have hm := hc.modest i
    intro r hr hsr s hs hss
    obtain ⟨r₀, hr₀, -, rfl⟩ := mem_commit_evidence.mp hr
    obtain ⟨s₀, hs₀, -, rfl⟩ := mem_commit_evidence.mp hs
    change r₀.id = s₀.id
    rcases hr₀ with hr₀ | hr₀ <;> rcases hs₀ with hs₀ | hs₀
    · exact hc.single r₀ hr₀ hsr s₀ hs₀ hss
    · exact absurd hsr ((hm.apart s₀ hs₀ hss).1 r₀ hr₀)
    · exact absurd hss ((hm.apart r₀ hr₀ hsr).1 s₀ hs₀)
    · obtain ⟨a, ha⟩ := List.length_eq_one_iff.mp
        (le_antisymm hm.one (List.length_pos_of_mem hr₀))
      rw [ha] at hr₀ hs₀
      rw [List.mem_singleton.mp hr₀, List.mem_singleton.mp hs₀]
  owned := by
    intro r hr hs
    obtain ⟨r₀, hr₀, -, rfl⟩ := mem_commit_evidence.mp hr
    rcases hr₀ with hr₀ | hr₀
    · exact hc.owned r₀ hr₀ hs
    · exact ⟨i, hown r₀ hr₀⟩
  stored := hc.stored

lemma Inv.commit (hw : Inv S w)
    (htouch : ∀ u, Untouched u (w.txn i) ∨ Allowed S i u w)
    (hkeyed : ∀ r ∈ (w.txn i).evidence, ∀ c u n, r.objectKey = objectKeyOf c u n → r.id = u)
    (hown : S.clean → ∀ r ∈ (w.txn i).evidence, w.owner r.id = .drawn i) :
    Inv S (w.commit i) where
  old := hw.old
  blank := fun u hu => by
    rcases htouch u with h | h
    · rw [Blank, view_commit_untouched h]
      exact hw.blank u hu
    · exact absurd hu h.taken
  life := fun u j hu => by
    have hold : ¬ S.old u := fun h => by
      have hx : w.owner u = .drawn j := hu
      rw [(hw.old u).mpr h] at hx
      cases hx
    rcases htouch u with h | h
    · rw [view_commit_untouched h]
      exact hw.life u j hu
    · exact h.life hold
  keyed := fun r hr c u n hold hk => by
    obtain ⟨r₀, hr₀, -, rfl⟩ := mem_commit_evidence.mp hr
    rcases hr₀ with hr₀ | hr₀
    · exact hw.keyed r₀ hr₀ c u n hold hk
    · exact hkeyed r₀ hr₀ c u n hk
  clean := fun hc => (hw.clean hc).commit (hown hc)

lemma rely_commit {j : ι} (hw : Inv S w) (hj : j ≠ i)
    (htouch : ∀ u, Untouched u (w.txn i) ∨ Allowed S i u w) : Rely S j w (w.commit i) where
  txn := commit_txn_of_ne hj
  owner := fun _ => Iff.rfl
  taken := fun _ h => h
  own := fun u hu ho => by
    rcases htouch u with h | h
    · exact view_commit_untouched h
    · obtain ⟨hopen, hclean⟩ := h.foreign j hj hu
      exact (ho.elim hopen hclean).elim
  objects := fun _ _ _ _ _ => rfl
  grows := fun u => by
    rw [view_commit]
    exact List.prefix_append _ _
  gone := fun u hm hr => by
    rcases htouch u with h | h
    · rwa [view_commit_untouched h]
    · exact h.gone hm hr
  same := fun hc ⟨r, hr, hs⟩ => by
    have hd := ((hw.clean hc).modest i).deleted
    exact ⟨_, mem_commit_evidence.mpr ⟨r, .inl hr, by simp [hd], rfl⟩, hs⟩

lemma keeps_commit (hw : Inv S w)
    (htouch : ∀ u, Untouched u (w.txn i) ∨ Allowed S i u w)
    (hkeyed : ∀ r ∈ (w.txn i).evidence, ∀ c u n, r.objectKey = objectKeyOf c u n → r.id = u)
    (hown : S.clean → ∀ r ∈ (w.txn i).evidence, w.owner r.id = .drawn i) :
    Keeps (rules S) i w (w.commit i) :=
  ⟨hw.commit htouch hkeyed hown, fun _ hj => rely_commit hw hj htouch⟩

/-! ### Calls -/

instance : Frame (rules S) i S.clean where
  demand := fun _ _ ho key hk => absurd hk (ho key)
  policy := fun _ _ _ hc => hc.2
  txn := fun _ _ hr => Rely.txn hr
  owner := fun _ _ u hr => (Rely.owner hr u).mpr
  quiet := fun w v hw hq hd he => by
    refine keeps_quiet hw hq fun hc => .of_evidence hw hc ?_ he
    rcases hd with hd | hd
    · exact hd
    · exact hd.trans ((Inv.clean hw hc).modest i).deleted
  draw := fun _ _ => keeps_draw

omit [DecidableEq ι] in
/-- The case of a clean run is found. -/
lemma case_found {caseId : Uuid} {G : World ι → Prop} (hcase : S.clean → caseId = S.caseId) :
    S.clean → ∀ w, (rules S).inv w → G w → ∃ c ∈ w.casesFor i, c.id = caseId := by
  intro hc w hw _
  rw [hcase hc]
  exact exists_casesFor (Inv.clean hw hc).caseThere

variable [Fintype ι] {hashtext : String → ℤ} {T : Txn} {G : World ι → Prop}

/-- A commit that raises an `Exception` with a row of evidence pending was not applied. -/
lemma triple_commit {H : World ι → Prop} (hG : Knowledge (rules S) i G)
    (hcommit : ∀ w, Inv S w → At i T G w → Keeps (rules S) i w (w.commit i) ∧ H (w.commit i)) :
    ETriple (machine hashtext) (rules S) i (At i T G) (call .commit) (fun _ => At i {} H)
      (fun e w => ¬ S.clean ∧
        (G w ∨ H w ∧ (T.evidence ≠ [] → e.isException = false))) := by
  refine triple_exec (stable_at hG.stable) (by simp [rules, Demand]) ?_ ?_
  · intro w c r v hw hat hpolicy hx
    obtain ⟨rfl, rfl⟩ := Prod.mk.inj (Option.some.inj hx)
    obtain ⟨hkeeps, hH⟩ := hcommit w hw hat
    refine ⟨hkeeps.1, hkeeps.2, ⟨by rw [commit_txn]; rfl, hH⟩, fun e hf =>
      ⟨not_clean hpolicy (by simp [hf]), .inr ⟨hH, fun he => ?_⟩⟩⟩
    rw [← hat.txn_evidence] at he
    exact hpolicy.1 rfl he e hf
  · intro w c e _ hat hpolicy hf
    exact ⟨not_clean hpolicy (by simp [hf]), .inl hat.2⟩

end WhaleMas.SessionRules
