import WhaleMas.Program

/-!
Rely and guarantee for interleaved programs.

An agent relies on the others changing the world only in ways it can live with, and must
itself keep the invariant and what the others rely on. What an agent knows between two of
its operations must be stable: no change it relies on may take it away.
-/

namespace WhaleMas.RelyGuarantee

open WhaleMas.Program

/-- The rules agents keep: the invariant, what agent `i` relies on, what an operation demands
of the world it is called in, and which choices there are. -/
structure Rules (ι W C O : Type) where
  inv : W → Prop
  rely : ι → W → W → Prop
  demand : W → ι → O → Prop
  policy : W → ι → O → C → Prop
  refl : ∀ i w, rely i w w
  trans : ∀ i u v w, rely i u v → rely i v w → rely i u w

variable {ι W C O : Type} {A : O → Type} {α β ε : Type}

/-- Program `p` of agent `i` keeps the rules from world `w` on and ends in `Q`. -/
def Safe (M : Machine ι W C O A) (R : Rules ι W C O) (i : ι) (Q : α → W → Prop) :
    Prog O A α → W → Prop
  | .ret a, w => Q a w
  | .op o k, w => ∀ u, R.rely i w u → R.inv u → R.demand u i o ∧
      ∀ c r v, R.policy u i o c → M.perform o i c u = some (r, v) →
        R.inv v ∧ (∀ j, j ≠ i → R.rely j u v) ∧ Safe M R i Q (k r) v

/-- No change that agent `i` relies on takes `P` away. -/
def Stable (R : Rules ι W C O) (i : ι) (P : W → Prop) : Prop :=
  ∀ u v, P u → R.inv u → R.rely i u v → R.inv v → P v

/-- Where `P` holds, the program keeps the rules and ends in `Q`. -/
def Triple (M : Machine ι W C O A) (R : Rules ι W C O) (i : ι) (P : W → Prop)
    (p : Prog O A α) (Q : α → W → Prop) : Prop :=
  ∀ w, R.inv w → P w → Safe M R i Q p w

variable {M : Machine ι W C O A} {R : Rules ι W C O} {i : ι}

/-! ### Stable assertions -/

lemma stable_const {p : Prop} : Stable R i fun _ => p := fun _ _ h _ _ _ => h

lemma Stable.and {P Q : W → Prop} (hP : Stable R i P) (hQ : Stable R i Q) :
    Stable R i fun w => P w ∧ Q w :=
  fun u v h hu hr hv => ⟨hP u v h.1 hu hr hv, hQ u v h.2 hu hr hv⟩

/-! ### Rules for programs -/

lemma Safe.imp {Q Q' : α → W → Prop} {p : Prog O A α} {w : W} (hw : R.inv w)
    (h : Safe M R i Q p w) (hQ : ∀ a w, R.inv w → Q a w → Q' a w) : Safe M R i Q' p w := by
  induction p generalizing w with
  | ret a => exact hQ a w hw h
  | op o k ih =>
    intro u hu hinv
    obtain ⟨hd, hstep⟩ := h u hu hinv
    refine ⟨hd, fun c r v hc hp => ?_⟩
    obtain ⟨hv, hrely, hk⟩ := hstep c r v hc hp
    exact ⟨hv, hrely, ih r hv hk⟩

lemma triple_ret {P : W → Prop} {Q : α → W → Prop} {a : α}
    (h : ∀ w, R.inv w → P w → Q a w) : Triple M R i P (.ret a) Q := h

lemma triple_bind {P : W → Prop} {p : Prog O A α} {f : α → Prog O A β} {Q : α → W → Prop}
    {Q' : β → W → Prop} (hp : Triple M R i P p Q) (hf : ∀ a, Triple M R i (Q a) (f a) Q') :
    Triple M R i P (p >>= f) Q' := by
  intro w hw hP
  have hs := hp w hw hP
  clear hp hP
  induction p generalizing w with
  | ret a => exact hf a w hw hs
  | op o k ih =>
    intro u hu hinv
    obtain ⟨hd, hstep⟩ := hs u hu hinv
    refine ⟨hd, fun c r v hc hp => ?_⟩
    obtain ⟨hv, hrely, hk⟩ := hstep c r v hc hp
    exact ⟨hv, hrely, ih r v hv hk⟩

lemma triple_conseq {P P' : W → Prop} {p : Prog O A α} {Q Q' : α → W → Prop}
    (h : Triple M R i P p Q) (hP : ∀ w, R.inv w → P' w → P w)
    (hQ : ∀ a w, R.inv w → Q a w → Q' a w) : Triple M R i P' p Q' :=
  fun w hw hP' => (h w hw (hP w hw hP')).imp hw hQ

lemma triple_exists {κ : Type} {P : κ → W → Prop} {p : Prog O A α} {Q : α → W → Prop}
    (h : ∀ x, Triple M R i (P x) p Q) : Triple M R i (fun w => ∃ x, P x w) p Q := by
  rintro w hw ⟨x, hx⟩
  exact h x w hw hx

lemma triple_and {φ : Prop} {P : W → Prop} {p : Prog O A α} {Q : α → W → Prop}
    (h : φ → Triple M R i P p Q) : Triple M R i (fun w => φ ∧ P w) p Q :=
  fun w hw hP => h hP.1 w hw hP.2

/-- One operation, called where the stable `P` holds. -/
lemma triple_call {P : W → Prop} {o : O} {Q : A o → W → Prop} (hstable : Stable R i P)
    (hdemand : ∀ w, R.inv w → P w → R.demand w i o)
    (hstep : ∀ w c r v, R.inv w → P w → R.policy w i o c → M.perform o i c w = some (r, v) →
      R.inv v ∧ (∀ j, j ≠ i → R.rely j w v) ∧ Q r v) :
    Triple M R i P (.call o) Q := by
  intro w hw hP u hu hinv
  have hPu := hstable w u hP hw hu hinv
  exact ⟨hdemand u hinv hPu, fun c r v hc hp => hstep u c r v hinv hPu hc hp⟩

/-! ### Programs that may raise -/

/-- A postcondition for a program that returns or raises. -/
def orElse (Q : α → W → Prop) (E : ε → W → Prop) : Except ε α → W → Prop
  | .ok a => Q a
  | .error e => E e

/-- Where `P` holds, the program returns in `Q` or raises in `E`. -/
abbrev ETriple (M : Machine ι W C O A) (R : Rules ι W C O) (i : ι) (P : W → Prop)
    (p : ExceptT ε (Prog O A) α) (Q : α → W → Prop) (E : ε → W → Prop) : Prop :=
  Triple M R i P p.run (orElse Q E)

lemma etriple_pure {P : W → Prop} {Q : α → W → Prop} {E : ε → W → Prop} {a : α}
    (h : ∀ w, R.inv w → P w → Q a w) :
    ETriple M R i P (pure a : ExceptT ε (Prog O A) α) Q E :=
  triple_ret h

lemma etriple_throw {P : W → Prop} {Q : α → W → Prop} {E : ε → W → Prop} {e : ε}
    (h : ∀ w, R.inv w → P w → E e w) :
    ETriple M R i P (throw e : ExceptT ε (Prog O A) α) Q E :=
  triple_ret h

lemma etriple_bind {P : W → Prop} {p : ExceptT ε (Prog O A) α} {f : α → ExceptT ε (Prog O A) β}
    {Q : α → W → Prop} {Q' : β → W → Prop} {E : ε → W → Prop} (hp : ETriple M R i P p Q E)
    (hf : ∀ a, ETriple M R i (Q a) (f a) Q' E) : ETriple M R i P (p >>= f) Q' E := by
  refine triple_bind hp fun r => ?_
  cases r with
  | ok a => exact hf a
  | error e => exact triple_ret fun _ _ h => h

/-- The program is run for its result, which is then looked at. -/
lemma etriple_lift {P : W → Prop} {p : Prog O A α} {Q : α → W → Prop} {E : ε → W → Prop}
    (hp : Triple M R i P p Q) : ETriple M R i P (ExceptT.lift p : ExceptT ε (Prog O A) α) Q E :=
  triple_bind hp fun _ => triple_ret fun _ _ h => h

lemma etriple_conseq {P P' : W → Prop} {p : ExceptT ε (Prog O A) α} {Q Q' : α → W → Prop}
    {E E' : ε → W → Prop} (h : ETriple M R i P p Q E) (hP : ∀ w, R.inv w → P' w → P w)
    (hQ : ∀ a w, R.inv w → Q a w → Q' a w) (hE : ∀ e w, R.inv w → E e w → E' e w) :
    ETriple M R i P' p Q' E' := by
  refine triple_conseq h hP fun r w hw => ?_
  cases r with
  | ok a => exact hQ a w hw
  | error e => exact hE e w hw

lemma etriple_error {P : W → Prop} {p : ExceptT ε (Prog O A) α} {Q : α → W → Prop}
    {E E' : ε → W → Prop} (h : ETriple M R i P p Q E)
    (hE : ∀ e w, R.inv w → E e w → E' e w) : ETriple M R i P p Q E' :=
  etriple_conseq h (fun _ _ h => h) (fun _ _ _ h => h) hE

lemma etriple_map {P : W → Prop} {p : ExceptT ε (Prog O A) α} {f : α → β} {Q : α → W → Prop}
    {H : β → W → Prop} {E : ε → W → Prop} (hp : ETriple M R i P p Q E)
    (hf : ∀ a w, R.inv w → Q a w → H (f a) w) : ETriple M R i P (f <$> p) H E := by
  refine triple_bind hp fun r => ?_
  cases r with
  | ok a => exact triple_ret fun w hw h => hf a w hw h
  | error e => exact triple_ret fun _ _ h => h

/-- The handler takes over where the program raises. -/
lemma etriple_tryCatch {P : W → Prop} {p : ExceptT ε (Prog O A) α}
    {h : ε → ExceptT ε (Prog O A) α} {Q : α → W → Prop} {E E' : ε → W → Prop}
    (hp : ETriple M R i P p Q E) (hh : ∀ e, ETriple M R i (E e) (h e) Q E') :
    ETriple M R i P (tryCatch p h) Q E' := by
  refine triple_bind hp fun r => ?_
  cases r with
  | ok a => exact triple_ret fun _ _ h => h
  | error e => exact hh e

/-- Nothing is asked of a program that raises. -/
lemma etriple_any {P : W → Prop} {p : ExceptT ε (Prog O A) α} {Q : α → W → Prop}
    {E : ε → W → Prop} (h : ETriple M R i P p Q E) : ETriple M R i P p Q (fun _ _ => True) :=
  etriple_error h fun _ _ _ _ => trivial

/-! ### Rules together -/

/-- Two sets of rules at once. -/
def Rules.and (R S : Rules ι W C O) : Rules ι W C O where
  inv := fun w => R.inv w ∧ S.inv w
  rely := fun i w v => R.rely i w v ∧ S.rely i w v
  demand := fun w i o => R.demand w i o ∧ S.demand w i o
  policy := fun w i o c => R.policy w i o c ∧ S.policy w i o c
  refl := fun i w => ⟨R.refl i w, S.refl i w⟩
  trans := fun i u v w h h' => ⟨R.trans i u v w h.1 h'.1, S.trans i u v w h.2 h'.2⟩

lemma Safe.and {S : Rules ι W C O} {Q Q' : α → W → Prop} {p : Prog O A α} {w : W}
    (h : Safe M R i Q p w) (h' : Safe M S i Q' p w) :
    Safe M (R.and S) i (fun a w => Q a w ∧ Q' a w) p w := by
  induction p generalizing w with
  | ret a => exact ⟨h, h'⟩
  | op o k ih =>
    intro u hu hinv
    obtain ⟨hd, hstep⟩ := h u hu.1 hinv.1
    obtain ⟨hd', hstep'⟩ := h' u hu.2 hinv.2
    refine ⟨⟨hd, hd'⟩, fun c r v hc hp => ?_⟩
    obtain ⟨hv, hrely, hk⟩ := hstep c r v hc.1 hp
    obtain ⟨hv', hrely', hk'⟩ := hstep' c r v hc.2 hp
    exact ⟨⟨hv, hv'⟩, fun j hj => ⟨hrely j hj, hrely' j hj⟩, ih r hk hk'⟩

/-- A program that keeps two sets of rules keeps both at once. -/
lemma Triple.and {S : Rules ι W C O} {P P' : W → Prop} {Q Q' : α → W → Prop} {p : Prog O A α}
    (h : Triple M R i P p Q) (h' : Triple M S i P' p Q') :
    Triple M (R.and S) i (fun w => P w ∧ P' w) p fun a w => Q a w ∧ Q' a w :=
  fun w hw hP => (h w hw.1 hP.1).and (h' w hw.2 hP.2)

/-- The rules of a machine, for what a larger world shows of its own. -/
def Rules.comap (R : Rules ι W C O) {W' : Type} (shown : W' → W) : Rules ι W' C O where
  inv := fun w => R.inv (shown w)
  rely := fun i w v => R.rely i (shown w) (shown v)
  demand := fun w i o => R.demand (shown w) i o
  policy := fun w i o c => R.policy (shown w) i o c
  refl := fun i w => R.refl i (shown w)
  trans := fun i u v w => R.trans i (shown u) (shown v) (shown w)

/-! ### Soundness -/

/-- An operation that is about to be called finds what it demands. -/
lemma demand_of_safe {σ : Conf ι W O A α} {Q : ι → α → W → Prop} (hinv : R.inv σ.world)
    (h : ∀ i, Safe M R i (Q i) (σ.prog i) σ.world) {o : O} {k : A o → Prog O A α}
    (hi : σ.prog i = .op o k) : R.demand σ.world i o := by
  have hsi := h i
  rw [hi] at hsi
  exact (hsi σ.world (R.refl i _) hinv).1

/-- A program that has returned ended as it should. -/
lemma post_of_safe {σ : Conf ι W O A α} {Q : ι → α → W → Prop}
    (h : ∀ i, Safe M R i (Q i) (σ.prog i) σ.world) {a : α} (hi : σ.prog i = .ret a) :
    Q i a σ.world := by
  have hsi := h i
  rwa [hi] at hsi

/-- **Soundness**: if every program keeps the rules from the beginning on, then in every
world a run comes to the invariant holds and every program still keeps the rules. -/
theorem safe_reach [DecidableEq ι] {σ₀ σ : Conf ι W O A α} {Q : ι → α → W → Prop}
    (hQ : ∀ i a, Stable R i (Q i a)) (hinv : R.inv σ₀.world)
    (h₀ : ∀ i, Safe M R i (Q i) (σ₀.prog i) σ₀.world) (h : Reach M R.policy σ₀ σ) :
    R.inv σ.world ∧ ∀ i, Safe M R i (Q i) (σ.prog i) σ.world := by
  induction h with
  | refl => exact ⟨hinv, h₀⟩
  | @step σ i o k c r w _ hi hc hp ih =>
    obtain ⟨hσ, hsafe⟩ := ih
    have hsi := hsafe i
    rw [hi] at hsi
    obtain ⟨hw, hrely, hk⟩ := (hsi σ.world (R.refl i _) hσ).2 c r w hc hp
    refine ⟨hw, fun j => ?_⟩
    by_cases hj : j = i
    · subst hj
      simpa using hk
    · simp only [Function.update_of_ne hj]
      have hsj := hsafe j
      cases hpj : σ.prog j with
      | ret a =>
        rw [hpj] at hsj
        exact hQ j a _ _ hsj hσ (hrely j hj) hw
      | op o' k' =>
        rw [hpj] at hsj
        exact fun u hu => hsj u (R.trans j _ _ _ (hrely j hj) hu)

/-- What every step does that finds what it demands, a run does. -/
lemma moves_of_safe [DecidableEq ι] {σ τ : Conf ι W O A α} {Q : ι → α → W → Prop}
    {move : W → W → Prop} (refl : ∀ w, move w w)
    (trans : ∀ u v w, move u v → move v w → move u w)
    (hstep : ∀ w i o c r v, R.inv w → R.demand w i o → M.perform o i c w = some (r, v) → move w v)
    (hQ : ∀ i a, Stable R i (Q i a)) (hinv : R.inv σ.world)
    (hσ : ∀ i, Safe M R i (Q i) (σ.prog i) σ.world) (h : Reach M R.policy σ τ) :
    move σ.world τ.world := by
  induction h with
  | refl => exact refl _
  | @step τ i o k c r v hτ hi hc hp ih =>
    obtain ⟨hw, hsafe⟩ := safe_reach hQ hinv hσ hτ
    exact trans _ _ _ ih (hstep _ _ _ _ _ _ hw (demand_of_safe hw hsafe hi) hp)

end WhaleMas.RelyGuarantee
