import WhaleMas.RelyGuarantee

/-!
A program that runs alone: the calls it makes, with the worlds it makes them in, and how it
ends. The rules for interleaved programs apply to it, with nobody to rely on and with its calls
so far as a part of the world.
-/

namespace WhaleMas.Alone

open WhaleMas.Program WhaleMas.RelyGuarantee

/-- A call: the operation, the choice that came with it, and the world before it. -/
structure Event (W C O : Type) where
  op : O
  choice : C
  before : W

variable {ι W C O : Type} {A : O → Type} {α : Type} {M : Machine ι W C O A} {i : ι}

/-- Alone from `w` on, program `p` of agent `i` makes the calls `t`; then the world is `v`, and
`q` is still to do. -/
inductive Makes (M : Machine ι W C O A) (i : ι) :
    Prog O A α → W → List (Event W C O) → Prog O A α → W → Prop
  | refl (p : Prog O A α) (w : W) : Makes M i p w [] p w
  | op {o : O} {k : A o → Prog O A α} {c : C} {w u v : W} {r : A o} {t : List (Event W C O)}
      {q : Prog O A α} (hp : M.perform o i c w = some (r, u)) (h : Makes M i (k r) u t q v) :
      Makes M i (.op o k) w (⟨o, c, w⟩ :: t) q v

/-- Alone from `w` on, the program makes the calls `t` and ends with `a` in `v`. -/
abbrev Ends (M : Machine ι W C O A) (i : ι) (p : Prog O A α) (w : W) (t : List (Event W C O))
    (a : α) (v : W) : Prop := Makes M i p w t (.ret a) v

/-! ### Runs of one agent -/

/-- The calls that a program makes with the choices of a list, its result, and the last world. -/
def follow (M : Machine ι W C O A) (i : ι) :
    Prog O A α → W → List C → Option (List (Event W C O) × α × W)
  | .ret a, w, [] => some ([], a, w)
  | .op o k, w, c :: cs => (M.perform o i c w).bind fun p =>
      (follow M i (k p.1) p.2 cs).map fun q => (⟨o, c, w⟩ :: q.1, q.2)
  | _, _, _ => none

lemma ends_of_follow {p : Prog O A α} {w v : W} {cs : List C} {t : List (Event W C O)} {a : α}
    (h : follow M i p w cs = some (t, a, v)) : Ends M i p w t a v := by
  induction p generalizing w cs t with
  | ret b =>
    cases cs with
    | nil =>
      obtain ⟨rfl, rfl, rfl⟩ : [] = t ∧ b = a ∧ w = v := by simpa [follow] using h
      exact .refl _ w
    | cons c cs => simp [follow] at h
  | op o k ih =>
    cases cs with
    | nil => simp [follow] at h
    | cons c cs =>
      obtain ⟨⟨r, u⟩, hp, hk⟩ := Option.bind_eq_some_iff.mp h
      obtain ⟨⟨t', q⟩, hq, heq⟩ := Option.map_eq_some_iff.mp hk
      obtain ⟨rfl, rfl⟩ := Prod.mk.inj heq
      exact .op hp (ih r hq)

/-- The choices of the calls are the first ones of a sequence. -/
def Chosen (cs : ℕ → C) (t : List (Event W C O)) : Prop :=
  t.map Event.choice = (List.range t.length).map cs

lemma Chosen.cons {cs : ℕ → C} {t : List (Event W C O)} {o : O} {w : W}
    (h : Chosen (fun n => cs (n + 1)) t) : Chosen cs (⟨o, cs 0, w⟩ :: t) := by
  unfold Chosen at h ⊢
  rw [List.map_cons, h, List.length_cons, List.range_succ_eq_map, List.map_cons, List.map_map]
  rfl

/-- A program that runs alone ends, unless it comes to a call that has to wait. -/
theorem ends_or_waits (M : Machine ι W C O A) (i : ι) (p : Prog O A α) (w : W) (cs : ℕ → C) :
    (∃ t a v, Chosen cs t ∧ Ends M i p w t a v) ∨
      ∃ t o k u, Chosen cs t ∧ Makes M i p w t (.op o k) u ∧
        M.perform o i (cs t.length) u = none := by
  induction p generalizing w cs with
  | ret a => exact .inl ⟨[], a, w, rfl, .refl _ w⟩
  | op o k ih =>
    cases hp : M.perform o i (cs 0) w with
    | none => exact .inr ⟨[], o, k, w, rfl, .refl _ w, hp⟩
    | some x =>
      obtain ⟨r, u⟩ := x
      rcases ih r u fun n => cs (n + 1) with ⟨t, a, v, hc, h⟩ | ⟨t, o', k', v, hc, h, hw⟩
      · exact .inl ⟨_, a, v, hc.cons, .op hp h⟩
      · exact .inr ⟨_, o', k', v, hc.cons, .op hp h, hw⟩

/-! ### Rules -/

/-- The machine that remembers the calls. -/
def recorded (M : Machine ι W C O A) : Machine ι (W × List (Event W C O)) C O A where
  perform o i c x := (M.perform o i c x.1).map fun p => (p.1, p.2, x.2 ++ [⟨o, c, x.1⟩])

/-- Agent `i` runs alone, and all its calls are `ok`. -/
def alone (ok : Event W C O → Prop) (i : ι) : Rules ι (W × List (Event W C O)) C O where
  inv := fun _ => True
  rely := fun j x y => j = i → x = y
  demand := fun _ _ _ => True
  policy := fun x _ o c => ok ⟨o, c, x.1⟩
  refl := fun _ _ _ => rfl
  trans := fun _ _ _ _ h h' hi => (h hi).trans (h' hi)

variable {ok : Event W C O → Prop}

lemma stable_alone {P : W × List (Event W C O) → Prop} : Stable (alone ok i) i P :=
  fun _ _ h _ hr _ => hr rfl ▸ h

/-- One call, which is remembered. -/
lemma triple_solo {P : W × List (Event W C O) → Prop} {o : O}
    {Q : A o → W × List (Event W C O) → Prop}
    (h : ∀ w s c r v, P (w, s) → ok ⟨o, c, w⟩ → M.perform o i c w = some (r, v) →
      Q r (v, s ++ [⟨o, c, w⟩])) :
    Triple (recorded M) (alone ok i) i P (.call o) Q := by
  refine triple_call stable_alone (fun _ _ _ => trivial) ?_
  rintro ⟨w, s⟩ c r x - hP hok hx
  obtain ⟨⟨r', v⟩, hp, heq⟩ := Option.map_eq_some_iff.mp hx
  obtain ⟨rfl, rfl⟩ := Prod.mk.inj heq
  exact ⟨trivial, fun j hj hji => absurd hji hj, h w s c r' v hP hok hp⟩

lemma safe_makes {p q : Prog O A α} {Q : α → W × List (Event W C O) → Prop} {w v : W}
    {s t : List (Event W C O)} (h : Makes M i p w t q v) (hok : ∀ e ∈ t, ok e)
    (hs : Safe (recorded M) (alone ok i) i Q p (w, s)) :
    Safe (recorded M) (alone ok i) i Q q (v, s ++ t) := by
  induction h generalizing s with
  | refl p w => simpa using hs
  | @op o k c w u v r t q hp _ ih =>
    have hx : (recorded M).perform o i c (w, s) = some (r, u, s ++ [⟨o, c, w⟩]) := by
      simp [recorded, hp]
    obtain ⟨-, hstep⟩ := hs (w, s) (fun _ => rfl) trivial
    obtain ⟨-, -, hk⟩ := hstep c r _ (hok _ (by simp)) hx
    simpa using ih (fun e he => hok e (by simp [he])) hk

/-- **Soundness**: a program that runs alone ends as the rules say. -/
theorem ends_post {p : Prog O A α} {P : W × List (Event W C O) → Prop}
    {Q : α → W × List (Event W C O) → Prop} {w v : W} {t : List (Event W C O)} {a : α}
    (hp : Triple (recorded M) (alone ok i) i P p Q) (h : Ends M i p w t a v)
    (hok : ∀ e ∈ t, ok e) (hP : P (w, [])) : Q a (v, t) :=
  safe_makes h hok (hp (w, []) trivial hP)

end WhaleMas.Alone
