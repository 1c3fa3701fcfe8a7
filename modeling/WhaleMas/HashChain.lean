import Mathlib

/-!
Chains of events bound by hashes.

Every event carries the hash of a predecessor and its own hash, which is stamped from the
predecessor's hash and the event. A list is linked when each event names the one before it.
If the stamp binds its two arguments, the last hash binds the whole list. A list that was
grown by linking each new event to the greatest earlier one is linked in the order of the
keys exactly when it was grown in that order.
-/

namespace WhaleMas.HashChain

/-- The hashes an event carries, and the hash it ought to carry after a predecessor. -/
structure Scheme (E H : Type*) where
  prev : E → Option H
  hash : E → H
  stamp : Option H → E → H

variable {E H : Type*} (C : Scheme E H)

/-- The event names `p` as its predecessor and is hashed after it. -/
def Fits (p : Option H) (e : E) : Prop := C.prev e = p ∧ C.hash e = C.stamp p e

def Linked : Option H → List E → Prop
  | _, [] => True
  | p, e :: l => Fits C p e ∧ Linked (some (C.hash e)) l

/-- The hash of the last event, and `p` for no event. -/
def lastHash (p : Option H) (l : List E) : Option H := l.foldl (fun _ e => some (C.hash e)) p

@[simp] lemma lastHash_nil (p : Option H) : lastHash C p [] = p := rfl
@[simp] lemma lastHash_cons (p : Option H) (e : E) (l : List E) :
    lastHash C p (e :: l) = lastHash C (some (C.hash e)) l := rfl
@[simp] lemma lastHash_snoc (p : Option H) (l : List E) (e : E) :
    lastHash C p (l ++ [e]) = some (C.hash e) := by
  simp [lastHash]

lemma linked_append (p : Option H) (l m : List E) :
    Linked C p (l ++ m) ↔ Linked C p l ∧ Linked C (lastHash C p l) m := by
  induction l generalizing p with
  | nil => simp [Linked]
  | cons e l ih => simp [Linked, ih, and_assoc]

lemma linked_snoc (p : Option H) (l : List E) (e : E) :
    Linked C p (l ++ [e]) ↔ Linked C p l ∧ Fits C (lastHash C p l) e := by
  simp [linked_append, Linked]

lemma Linked.of_prefix {p : Option H} {l m : List E} (h : Linked C p l) (hm : m <+: l) :
    Linked C p m := by
  obtain ⟨t, rfl⟩ := hm
  exact ((linked_append C p m t).mp h).1

/-! ### The last hash binds the list -/

/-- On the events of two lists, equal stamps come from equal predecessors and events
related by `R`. -/
def Binds (R : E → E → Prop) (l m : List E) : Prop :=
  ∀ e ∈ l, ∀ f ∈ m, C.stamp (C.prev e) e = C.stamp (C.prev f) f → C.prev e = C.prev f ∧ R e f

variable {C} {R : E → E → Prop}

lemma Binds.mono {l m l' m' : List E} (h : Binds C R l m) (hl : l' ⊆ l) (hm : m' ⊆ m) :
    Binds C R l' m' :=
  fun e he f hf => h e (hl he) f (hm hf)

/-- **Binding**: two linked lists with the same last hash agree event by event. -/
theorem linked_binding {l m : List E} (hl : Linked C none l) (hm : Linked C none m)
    (hb : Binds C R l m) (h : lastHash C none l = lastHash C none m) :
    List.Forall₂ (fun e f => C.prev e = C.prev f ∧ C.hash e = C.hash f ∧ R e f) l m := by
  induction l using List.reverseRecOn generalizing m with
  | nil =>
    rcases List.eq_nil_or_concat m with rfl | ⟨m, f, rfl⟩
    · exact .nil
    · simp at h
  | append_singleton l e ih =>
    rcases List.eq_nil_or_concat m with rfl | ⟨m, f, rfl⟩
    · simp at h
    · rw [List.concat_eq_append] at hm hb h ⊢
      obtain ⟨hl, hpe, hhe⟩ := (linked_snoc C none l e).mp hl
      obtain ⟨hm, hpf, hhf⟩ := (linked_snoc C none m f).mp hm
      have hhash : C.hash e = C.hash f := by simpa using h
      have hstamp : C.stamp (C.prev e) e = C.stamp (C.prev f) f := by
        rw [hpe, hpf, ← hhe, ← hhf, hhash]
      obtain ⟨hprev, hR⟩ := hb e (by simp) f (by simp) hstamp
      have hlast : lastHash C none l = lastHash C none m := by rw [← hpe, ← hpf, hprev]
      have hb' : Binds C R l m := hb.mono (by simp) (by simp)
      exact List.rel_append (ih hl hm hb' hlast) (.cons ⟨hprev, hhash, hR⟩ .nil)

/-- In a linked list the hash of an event identifies the event. -/
lemma linked_hash_inj {l : List E} (hl : Linked C none l) (hb : Binds C R l l) {e f : E}
    (he : e ∈ l) (hf : f ∈ l) (h : C.hash e = C.hash f) : e = f := by
  obtain ⟨p, t, hp⟩ := List.append_of_mem he
  obtain ⟨q, u, hq⟩ := List.append_of_mem hf
  have hpe : p ++ [e] <+: l := ⟨t, by simp [hp]⟩
  have hqf : q ++ [f] <+: l := ⟨u, by simp [hq]⟩
  have hagree := linked_binding (hl.of_prefix C hpe) (hl.of_prefix C hqf)
    (hb.mono hpe.subset hqf.subset) (by simp [h])
  have heq : p ++ [e] = q ++ [f] :=
    List.prefix_or_prefix_of_prefix hpe hqf |>.elim
      (fun hx => hx.eq_of_length hagree.length_eq)
      (fun hx => (hx.eq_of_length hagree.length_eq.symm).symm)
  simpa using (List.append_inj' heq rfl).2

lemma eq_of_forall₂ {S : E → E → Prop} {l m : List E} (h : List.Forall₂ S l m)
    (hS : ∀ x ∈ l, ∀ y ∈ m, S x y → x = y) : l = m := by
  induction h with
  | nil => rfl
  | cons hxy _ ih =>
    rw [hS _ (by simp) _ (by simp) hxy, ih fun x hx y hy => hS x (by simp [hx]) y (by simp [hy])]

/-- Among the lists made of the events of a linked list, exactly its prefixes are linked. -/
theorem linked_iff_prefix {l m : List E} (hl : Linked C none l) (hb : Binds C R l l)
    (hm : m ⊆ l) : Linked C none m ↔ m <+: l := by
  constructor
  · intro h
    rcases List.eq_nil_or_concat m with rfl | ⟨m', e, rfl⟩
    · exact List.nil_prefix
    · rw [List.concat_eq_append] at hm h ⊢
      obtain ⟨p, t, hp⟩ := List.append_of_mem (hm (by simp : e ∈ m' ++ [e]))
      have hpe : p ++ [e] <+: l := ⟨t, by simp [hp]⟩
      have hagree := linked_binding h (hl.of_prefix C hpe) (hb.mono hm hpe.subset) (by simp)
      have heq : m' ++ [e] = p ++ [e] := eq_of_forall₂ hagree fun x hx y hy hxy =>
        linked_hash_inj hl hb (hm hx) (hpe.subset hy) hxy.2.1
      rw [heq]
      exact hpe
  · exact fun h => hl.of_prefix C h

/-! ### Lists grown event by event -/

section Grown

variable {K : Type*} [LinearOrder K] (C) (key : E → K)

/-- The events in the order of their keys. -/
def sortByKey (l : List E) : List E := l.mergeSort fun e f => decide (key e ≤ key f)

/-- Each event was linked to the greatest event there was before it. -/
def Grown (l : List E) : Prop :=
  ∀ pre e post, l = pre ++ e :: post → Fits C ((pre.argmax key).map C.hash) e

variable {C key}

lemma grown_nil : Grown C key [] := by
  intro pre e post h
  simp at h

lemma grown_snoc {l : List E} {e : E} :
    Grown C key (l ++ [e]) ↔ Grown C key l ∧ Fits C ((l.argmax key).map C.hash) e := by
  constructor
  · intro h
    refine ⟨fun pre x post hx => ?_, h l e [] rfl⟩
    exact h pre x (post ++ [e]) (by simp [hx])
  · rintro ⟨hl, he⟩ pre x post hx
    rcases List.eq_nil_or_concat post with rfl | ⟨post, y, rfl⟩
    · obtain ⟨rfl, hxe⟩ := List.append_inj' hx rfl
      obtain rfl : e = x := by simpa using hxe
      exact he
    · have hx' : l ++ [e] = (pre ++ x :: post) ++ [y] := by simpa using hx
      exact hl pre x post (List.append_inj' hx' rfl).1

lemma sortByKey_perm (l : List E) : (sortByKey key l).Perm l := List.mergeSort_perm _ _

lemma sortByKey_pairwise (l : List E) :
    (sortByKey key l).Pairwise fun e f => key e ≤ key f := by
  have h : (sortByKey key l).Pairwise fun e f => decide (key e ≤ key f) = true :=
    List.pairwise_mergeSort
      (fun a b c hab hbc => by simp only [decide_eq_true_eq] at *; exact le_trans hab hbc)
      (fun a b => by simpa using le_total (key a) (key b)) l
  exact h.imp fun hab => by simpa using hab

lemma sortByKey_of_pairwise {l : List E} (h : l.Pairwise fun e f => key e ≤ key f) :
    sortByKey key l = l :=
  List.mergeSort_of_pairwise (h.imp fun hab => by simpa using hab)

/-- The greatest event of a list in increasing order is its last one. -/
lemma argmax_of_pairwise {l : List E} (h : l.Pairwise fun e f => key e < key f) :
    l.argmax key = l.getLast? := by
  rcases List.eq_nil_or_concat l with rfl | ⟨m, e, rfl⟩
  · rfl
  · rw [List.concat_eq_append, List.pairwise_append] at h
    rw [List.concat_eq_append, List.argmax_concat]
    cases hm : m.argmax key with
    | none => simp
    | some f =>
      have hfe : key f < key e := h.2.2 f (List.argmax_mem hm) e (by simp)
      simp [hfe]

lemma lastHash_eq_getLast? (l : List E) : lastHash C none l = l.getLast?.map C.hash := by
  rcases List.eq_nil_or_concat l with rfl | ⟨m, e, rfl⟩ <;> simp

/-- A list grown in the order of the keys is linked. -/
theorem Grown.linked {l : List E} (hg : Grown C key l)
    (h : l.Pairwise fun e f => key e < key f) : Linked C none (sortByKey key l) := by
  rw [sortByKey_of_pairwise (h.imp le_of_lt)]
  induction l using List.reverseRecOn with
  | nil => trivial
  | append_singleton l e ih =>
    obtain ⟨hl, he⟩ := grown_snoc.mp hg
    have hpl := (List.pairwise_append.mp h).1
    rw [argmax_of_pairwise hpl, ← lastHash_eq_getLast?] at he
    exact (linked_snoc C none l e).mpr ⟨ih hl hpl, he⟩

/-- The event a member of a linked list names is an earlier member. -/
lemma Linked.prev_mem {l : List E} (hl : Linked C none l)
    (hs : l.Pairwise fun e f => key e < key f) {e : E} (he : e ∈ l) {x : H}
    (hx : C.prev e = some x) : ∃ d ∈ l, C.hash d = x ∧ key d < key e := by
  obtain ⟨p, t, rfl⟩ := List.append_of_mem he
  have hfit : C.prev e = lastHash C none p := ((linked_append C none p (e :: t)).mp hl).2.1.1
  rcases List.eq_nil_or_concat p with rfl | ⟨q, d, rfl⟩
  · rw [hx] at hfit; cases hfit
  · rw [List.concat_eq_append] at hs hfit ⊢
    rw [hx, lastHash_snoc] at hfit
    refine ⟨d, by simp, (Option.some.inj hfit).symm, ?_⟩
    exact (List.pairwise_append.mp hs).2.2 d (by simp) e (by simp)

/-- A list that is linked in the order of the keys was grown in that order. -/
theorem Grown.pairwise_of_linked {l : List E} (hg : Grown C key l) (hnd : (l.map key).Nodup)
    (hinj : ∀ e ∈ l, ∀ f ∈ l, C.hash e = C.hash f → e = f)
    (h : Linked C none (sortByKey key l)) : l.Pairwise fun e f => key e < key f := by
  have hperm : (sortByKey key l).Perm l := sortByKey_perm l
  have hs : (sortByKey key l).Pairwise fun e f => key e < key f := by
    have hnd' : ((sortByKey key l).map key).Nodup := (hperm.map key).nodup_iff.mpr hnd
    have hne := List.pairwise_map.mp hnd'
    exact (sortByKey_pairwise l).imp₂ (fun _ _ hle hne' => lt_of_le_of_ne hle hne') hne
  have hbefore : ∀ pre e post, l = pre ++ e :: post → ∀ d ∈ pre, key d < key e := by
    intro pre e post hl d hd
    have hmem : ∀ x ∈ pre, x ∈ l := fun x hx => by rw [hl]; simp [hx]
    have he : e ∈ l := by rw [hl]; simp
    cases hm : pre.argmax key with
    | none => rw [List.argmax_eq_none.mp hm] at hd; simp at hd
    | some m =>
      have hprev : C.prev e = some (C.hash m) := by simpa [hm] using (hg pre e post hl).1
      obtain ⟨x, hx, hhash, hlt⟩ := h.prev_mem hs (hperm.mem_iff.mpr he) hprev
      have hxm : x = m :=
        hinj x (hperm.mem_iff.mp hx) m (hmem m (List.argmax_mem hm)) hhash
      exact lt_of_le_of_lt (List.le_of_mem_argmax hd hm) (hxm ▸ hlt)
  clear hg hnd hinj h hperm hs
  induction l using List.reverseRecOn with
  | nil => exact .nil
  | append_singleton l e ih =>
    refine List.pairwise_append.mpr ⟨ih ?_, by simp, ?_⟩
    · exact fun pre x post hl => hbefore pre x (post ++ [e]) (by simp [hl])
    · intro d hd f hf
      obtain rfl : f = e := by simpa using hf
      exact hbefore l f [] rfl d hd

end Grown

end WhaleMas.HashChain
