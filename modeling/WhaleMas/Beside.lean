import WhaleMas.RelyGuarantee

/-!
Machines that extend others, by operations beside theirs or by records of what was done.

A program of the smaller machine runs on the larger one as it runs on its own, and keeps the
same rules. A program that calls only some operations keeps whatever each of these keeps.
-/

namespace WhaleMas.Beside

open WhaleMas.Program WhaleMas.RelyGuarantee

variable {ι W W' V C C' D G O P : Type} {A : O → Type} {B : P → Type} {α β ε : Type}

/-! ### Operations beside a machine -/

/-- The operations of `M`, and beside them operations that see its world and change their
own. -/
def beside (M : Machine ι W C O A) (N : (p : P) → ι → C × D → W × V → Option (B p × V)) :
    Machine ι (W × V) (C × D) (O ⊕ P) (Sum.elim A B) where
  perform
    | .inl o, i, c, w => (M.perform o i c.1 w.1).map fun p => (p.1, (p.2, w.2))
    | .inr p, i, c, w => (N p i c w).map fun q => (q.1, (w.1, q.2))

/-- A program of the machine, beside other operations. -/
def inner : Prog O A α → Prog (O ⊕ P) (Sum.elim A B) α
  | .ret a => .ret a
  | .op o k => .op (.inl o) fun r => inner (k r)

lemma inner_bind (p : Prog O A α) (f : α → Prog O A β) :
    (inner (p >>= f) : Prog (O ⊕ P) (Sum.elim A B) β) = inner p >>= fun a => inner (f a) := by
  induction p with
  | ret a => rfl
  | op o k ih => exact congrArg (Prog.op _) (funext ih)

/-- The machine `M'` shows the world of `M`, where the operations of `M` do what they do and
those beside it do nothing. -/
structure Extends (M : Machine ι W C O A) (M' : Machine ι W' C' (O ⊕ P) (Sum.elim A B))
    (shown : W' → W) (drawn : C' → C) : Prop where
  within : ∀ o i c w r v, M'.perform (.inl o) i c w = some (r, v) →
    M.perform o i (drawn c) (shown w) = some (r, shown v)
  beside : ∀ p i c w r v, M'.perform (.inr p) i c w = some (r, v) → shown v = shown w

lemma extends_beside (M : Machine ι W C O A)
    (N : (p : P) → ι → C × D → W × V → Option (B p × V)) :
    Extends M (beside M N) Prod.fst Prod.fst where
  within := fun o i c w r v h => by
    obtain ⟨⟨r', v'⟩, hp, heq⟩ := Option.map_eq_some_iff.mp h
    obtain ⟨rfl, rfl⟩ := Prod.mk.inj heq
    exact hp
  beside := fun p i c w r v h => by
    obtain ⟨q, -, heq⟩ := Option.map_eq_some_iff.mp h
    obtain ⟨-, rfl⟩ := Prod.mk.inj heq
    rfl

/-- The rules of the smaller machine, which ask nothing of the operations beside it. -/
def outer (R : Rules ι W C O) (shown : W' → W) (drawn : C' → C) : Rules ι W' C' (O ⊕ P) where
  inv := fun w => R.inv (shown w)
  rely := fun i w v => R.rely i (shown w) (shown v)
  demand := fun w i o => ∀ o', o = .inl o' → R.demand (shown w) i o'
  policy := fun w i o c => ∀ o', o = .inl o' → R.policy (shown w) i o' (drawn c)
  refl := fun i w => R.refl i (shown w)
  trans := fun i u v w => R.trans i (shown u) (shown v) (shown w)

section Extends

variable {M : Machine ι W C O A} {M' : Machine ι W' C' (O ⊕ P) (Sum.elim A B)}
  {shown : W' → W} {drawn : C' → C} {R : Rules ι W C O} {i : ι}

lemma stable_outer {Q : W → Prop} (h : Stable R i Q) :
    Stable (outer R shown drawn : Rules ι W' C' (O ⊕ P)) i fun w => Q (shown w) :=
  fun u v hu hw hr hv => h (shown u) (shown v) hu hw hr hv

/-- A program of the smaller machine keeps its rules on the larger one. -/
lemma triple_inner (hext : Extends M M' shown drawn) {Q : W → Prop} {p : Prog O A α}
    {Q' : α → W → Prop} (h : Triple M R i Q p Q') :
    Triple M' (outer R shown drawn) i (fun w => Q (shown w)) (inner p)
      fun a w => Q' a (shown w) := by
  intro w hw hQ
  have hs := h (shown w) hw hQ
  clear hw hQ h
  induction p generalizing w with
  | ret a => exact hs
  | op o k ih =>
    intro u hu hinv
    obtain ⟨hd, hstep⟩ := hs (shown u) hu hinv
    refine ⟨fun o' ho => Sum.inl.inj ho ▸ hd, fun c r v hc hp => ?_⟩
    obtain ⟨hv, hrely, hk⟩ := hstep (drawn c) r (shown v) (hc o rfl) (hext.within o i c u r v hp)
    exact ⟨hv, hrely, ih r v hk⟩

/-- An operation beside the smaller machine leaves its rules alone. -/
lemma triple_beside (hext : Extends M M' shown drawn) {p : P} {Q : W' → Prop}
    {Q' : B p → W' → Prop}
    (hstable : Stable (outer R shown drawn : Rules ι W' C' (O ⊕ P)) i Q)
    (hstep : ∀ w c r v, R.inv (shown w) → Q w → M'.perform (.inr p) i c w = some (r, v) →
      Q' r v) :
    Triple M' (outer R shown drawn) i Q (.call (.inr p)) Q' := by
  refine triple_call hstable (fun _ _ _ _ h => by cases h) fun w c r v hw hQ _ hp => ?_
  have hsame : shown v = shown w := hext.beside p i c w r v hp
  refine ⟨?_, fun j _ => ?_, hstep w c r v hw hQ hp⟩
  · change R.inv (shown v)
    rwa [hsame]
  · change R.rely j (shown w) (shown v)
    rw [hsame]
    exact R.refl j _

end Extends

/-! ### Records -/

/-- The machine keeps a record of its operations and their answers, which none of them sees. -/
def recording (M : Machine ι W C O A) (note : ι → (o : O) → A o → G → G) :
    Machine ι (W × G) C O A where
  perform o i c w := (M.perform o i c w.1).map fun p => (p.1, (p.2, note i o p.1 w.2))

/-- Every run comes with its record. -/
lemma reach_recording [DecidableEq ι] {M : Machine ι W C O A}
    (note : ι → (o : O) → A o → G → G) {policy : W → ι → O → C → Prop} {w : W} (g : G)
    {prog : ι → Prog O A α} {σ : Conf ι W O A α} (h : Reach M policy ⟨w, prog⟩ σ) :
    ∃ g', Reach (recording M note) (fun w i o c => policy w.1 i o c) ⟨(w, g), prog⟩
      ⟨(σ.world, g'), σ.prog⟩ := by
  induction h with
  | refl => exact ⟨g, .refl⟩
  | @step σ i o k c r v _ hi hc hp ih =>
    obtain ⟨g', h⟩ := ih
    exact ⟨note i o r g', .step h hi hc (by simp [recording, hp])⟩

/-- What a recording machine does, its machine does. -/
lemma perform_recording {M : Machine ι W C O A} {note : ι → (o : O) → A o → G → G} {o : O}
    {i : ι} {c : C} {w v : W × G} {r : A o}
    (h : (recording M note).perform o i c w = some (r, v)) :
    M.perform o i c w.1 = some (r, v.1) ∧ v.2 = note i o r w.2 := by
  obtain ⟨⟨r', v'⟩, hp, heq⟩ := Option.map_eq_some_iff.mp h
  obtain ⟨rfl, rfl⟩ := Prod.mk.inj heq
  exact ⟨hp, rfl⟩

/-- The operations beside a machine are not recorded. -/
def noteWithin (note : ι → (o : O) → A o → G → G) : ι → (o : O ⊕ P) → Sum.elim A B o → G → G
  | i, .inl o, r, g => note i o r g
  | _, .inr _, _, g => g

/-- A record of the smaller machine is kept on the larger one. -/
lemma extends_recording {M : Machine ι W C O A}
    {M' : Machine ι W' C' (O ⊕ P) (Sum.elim A B)} {shown : W' → W} {drawn : C' → C}
    (hext : Extends M M' shown drawn) (note : ι → (o : O) → A o → G → G) :
    Extends (recording M note) (recording M' (noteWithin note)) (fun w => (shown w.1, w.2))
      drawn where
  within := fun o i c w r v h => by
    obtain ⟨hp, hg⟩ := perform_recording h
    simp [recording, hext.within o i c w.1 r v.1 hp, hg, noteWithin]
  beside := fun p i c w r v h => by
    obtain ⟨hp, hg⟩ := perform_recording h
    simp [hext.beside p i c w.1 r v.1 hp, hg, noteWithin]

/-- A program keeps its rules where a record is kept. -/
lemma triple_recording {M : Machine ι W C O A} {note : ι → (o : O) → A o → G → G}
    {R : Rules ι W C O} {i : ι} {Q : W → Prop} {p : Prog O A α} {Q' : α → W → Prop}
    (h : Triple M R i Q p Q') :
    Triple (recording M note) (R.comap Prod.fst) i (fun w => Q w.1) p
      fun a w => Q' a w.1 := by
  intro w hw hQ
  have hs := h w.1 hw hQ
  clear hw hQ h
  induction p generalizing w with
  | ret a => exact hs
  | op o k ih =>
    intro u hu hinv
    obtain ⟨hd, hstep⟩ := hs u.1 hu hinv
    refine ⟨hd, fun c r v hc hp => ?_⟩
    obtain ⟨hv, hrely, hk⟩ := hstep c r v.1 hc (perform_recording hp).1
    exact ⟨hv, hrely, ih r v hk⟩

/-! ### Programs that call some operations only -/

/-- The program calls operations of `S` only. -/
def Calls (S : O → Prop) : Prog O A α → Prop
  | .ret _ => True
  | .op o k => S o ∧ ∀ r, Calls S (k r)

section Calls

variable {S : O → Prop}

lemma calls_call {o : O} (h : S o) : Calls S (.call o : Prog O A (A o)) :=
  ⟨h, fun _ => trivial⟩

lemma calls_bind {p : Prog O A α} {f : α → Prog O A β} (hp : Calls S p)
    (hf : ∀ a, Calls S (f a)) : Calls S (p >>= f) := by
  induction p with
  | ret a => exact hf a
  | op o k ih => exact ⟨hp.1, fun r => ih r (hp.2 r)⟩

/-- The same for programs that may raise. -/
lemma calls_ebind {p : ExceptT ε (Prog O A) α} {f : α → ExceptT ε (Prog O A) β}
    (hp : Calls S p.run) (hf : ∀ a, Calls S (f a).run) : Calls S (p >>= f).run := by
  refine calls_bind hp fun r => ?_
  cases r with
  | ok a => exact hf a
  | error e => trivial

lemma calls_anything (p : Prog O A α) : Calls (fun _ => True) p := by
  induction p with
  | ret a => trivial
  | op o k ih => exact ⟨trivial, ih⟩

lemma calls_inner {T : O ⊕ P → Prop} {p : Prog O A α} (hp : Calls S p)
    (h : ∀ o, S o → T (.inl o)) :
    Calls T (inner p : Prog (O ⊕ P) (Sum.elim A B) α) := by
  induction p with
  | ret a => trivial
  | op o k ih => exact ⟨h o hp.1, fun r => ih r (hp.2 r)⟩

/-- What every operation of `S` keeps is kept by a program that calls no others. -/
lemma triple_of_calls {M : Machine ι W C O A} {R : Rules ι W C O} {i : ι} {Q : W → Prop}
    {p : Prog O A α} (hp : Calls S p)
    (h : ∀ o, S o → Triple M R i Q (.call o) fun _ => Q) :
    Triple M R i Q p fun _ => Q := by
  induction p with
  | ret a => exact triple_ret fun _ _ hQ => hQ
  | op o k ih =>
    have hrest : Triple M R i Q (.call o >>= k) fun _ => Q :=
      triple_bind (h o hp.1) fun r => ih r (hp.2 r)
    exact hrest

end Calls

/-! ### What programs return -/

/-- Whatever its operations answer, the program returns only what is in `S`. -/
def Returns (S : α → Prop) : Prog O A α → Prop
  | .ret a => S a
  | .op _ k => ∀ r, Returns S (k r)

lemma returns_any (p : Prog O A α) : Returns (fun _ => True) p := by
  induction p with
  | ret a => trivial
  | op o k ih => exact ih

lemma returns_bind {S : α → Prop} {T : β → Prop} {p : Prog O A α} {f : α → Prog O A β}
    (hp : Returns S p) (hf : ∀ a, S a → Returns T (f a)) : Returns T (p >>= f) := by
  induction p with
  | ret a => exact hf a hp
  | op o k ih => exact fun r => ih r (hp r)

lemma returns_inner {S : α → Prop} {p : Prog O A α} (hp : Returns S p) :
    Returns S (inner p : Prog (O ⊕ P) (Sum.elim A B) α) := by
  induction p with
  | ret a => exact hp
  | op o k ih => exact fun r => ih r (hp r)

/-- The same for programs that may raise. -/
def Yields (S : α → Prop) (r : Except ε α) : Prop := ∀ a, r = .ok a → S a

lemma returns_emap {S : β → Prop} (p : ExceptT ε (Prog O A) α) {f : α → β} (h : ∀ a, S (f a)) :
    Returns (Yields S) (f <$> p).run := by
  refine returns_bind (returns_any p.run) fun r _ => ?_
  cases r with
  | ok a => exact fun b hb => Except.ok.inj hb ▸ h a
  | error e => exact fun b hb => by cases hb

lemma returns_ebind {S : β → Prop} (p : ExceptT ε (Prog O A) α)
    {f : α → ExceptT ε (Prog O A) β} (h : ∀ a, Returns (Yields S) (f a).run) :
    Returns (Yields S) (p >>= f).run := by
  refine returns_bind (returns_any p.run) fun r _ => ?_
  cases r with
  | ok a => exact h a
  | error e => exact fun b hb => by cases hb

/-- A program ends with what it returns. -/
lemma triple_returns {M : Machine ι W C O A} {R : Rules ι W C O} {i : ι} {Q : W → Prop}
    {p : Prog O A α} {Q' : α → W → Prop} {S : α → Prop} (h : Triple M R i Q p Q')
    (hp : Returns S p) : Triple M R i Q p fun a w => S a ∧ Q' a w := by
  intro w hw hQ
  have hs := h w hw hQ
  clear hw hQ h
  induction p generalizing w with
  | ret a => exact ⟨hp, hs⟩
  | op o k ih =>
    intro u hu hinv
    obtain ⟨hd, hstep⟩ := hs u hu hinv
    refine ⟨hd, fun c r v hc hperform => ?_⟩
    obtain ⟨hv, hrely, hk⟩ := hstep c r v hc hperform
    exact ⟨hv, hrely, ih r (hp r) v hk⟩

end WhaleMas.Beside
