import Mathlib

/-!
Programs that call operations, and the interleaved runs of many of them on one world.

A program is a tree: it returns, or calls an operation and goes on with its answer. A
machine says what an operation answers and does to the world, given a choice that the
program does not make; it answers nothing while the operation has to wait.
-/

namespace WhaleMas.Program

/-- Programs over operations `O` with answers `A`. -/
inductive Prog (O : Type) (A : O → Type) (α : Type)
  | ret (a : α)
  | op (o : O) (k : A o → Prog O A α)

namespace Prog

variable {O : Type} {A : O → Type} {α β γ : Type}

def bind : Prog O A α → (α → Prog O A β) → Prog O A β
  | ret a, f => f a
  | op o k, f => op o fun r => (k r).bind f

/-- Call an operation and return its answer. -/
def call (o : O) : Prog O A (A o) := op o ret

instance : Monad (Prog O A) where
  pure := ret
  bind := bind

@[simp] lemma pure_eq (a : α) : (pure a : Prog O A α) = ret a := rfl
@[simp] lemma ret_bind (a : α) (f : α → Prog O A β) : (ret a >>= f) = f a := rfl
@[simp] lemma op_bind (o : O) (k : A o → Prog O A α) (f : α → Prog O A β) :
    (op o k >>= f) = op o fun r => k r >>= f := rfl

end Prog

/-- What operations do: agent `i`, given a choice, gets an answer and changes the world. -/
structure Machine (ι W C O : Type) (A : O → Type) where
  perform : (o : O) → ι → C → W → Option (A o × W)

/-- A world, and what every agent has still to do. -/
structure Conf (ι W O : Type) (A : O → Type) (α : Type) where
  world : W
  prog : ι → Prog O A α

section Runs

variable {ι W C O : Type} {A : O → Type} {α : Type} [DecidableEq ι]

/-- The next operation of agent `i`. -/
def step (M : Machine ι W C O A) (σ : Conf ι W O A α) (i : ι) (c : C) :
    Option (Conf ι W O A α) :=
  match σ.prog i with
  | .ret _ => none
  | .op o k => (M.perform o i c σ.world).map fun p =>
      ⟨p.2, Function.update σ.prog i (k p.1)⟩

/-- The operations of the agents in the order of a schedule. -/
def run (M : Machine ι W C O A) (σ : Conf ι W O A α) : List (ι × C) → Option (Conf ι W O A α)
  | [] => some σ
  | s :: schedule => (step M σ s.1 s.2).bind fun τ => run M τ schedule

/-- The configurations that runs come to, when choices follow a policy. -/
inductive Reach (M : Machine ι W C O A) (policy : W → ι → O → C → Prop)
    (σ₀ : Conf ι W O A α) : Conf ι W O A α → Prop
  | refl : Reach M policy σ₀ σ₀
  | step {σ : Conf ι W O A α} {i : ι} {o : O} {k : A o → Prog O A α} {c : C} {r : A o} {w : W}
      (hσ : Reach M policy σ₀ σ) (hi : σ.prog i = .op o k) (hc : policy σ.world i o c)
      (hp : M.perform o i c σ.world = some (r, w)) :
      Reach M policy σ₀ ⟨w, Function.update σ.prog i (k r)⟩

/-- What a step does: the next operation is performed, and the program goes on with the answer. -/
lemma step_cases {M : Machine ι W C O A} {σ τ : Conf ι W O A α} {i : ι} {c : C}
    (h : step M σ i c = some τ) : ∃ o k r w, σ.prog i = .op o k ∧
      M.perform o i c σ.world = some (r, w) ∧ τ = ⟨w, Function.update σ.prog i (k r)⟩ := by
  unfold step at h
  cases hi : σ.prog i with
  | ret a => simp [hi] at h
  | op o k =>
    simp only [hi, Option.map_eq_some_iff] at h
    obtain ⟨⟨r, w⟩, hp, rfl⟩ := h
    exact ⟨o, k, r, w, rfl, hp, rfl⟩

lemma reach_of_step {M : Machine ι W C O A} {policy : W → ι → O → C → Prop}
    {σ₀ σ τ : Conf ι W O A α} {i : ι} {c : C} (hσ : Reach M policy σ₀ σ)
    (hpolicy : ∀ o k, σ.prog i = .op o k → policy σ.world i o c) (h : step M σ i c = some τ) :
    Reach M policy σ₀ τ := by
  obtain ⟨o, k, r, w, hi, hp, rfl⟩ := step_cases h
  exact .step hσ hi (hpolicy o k hi) hp

/-- Every schedule that runs is a run. -/
lemma reach_of_run {M : Machine ι W C O A} {policy : W → ι → O → C → Prop}
    {σ₀ σ τ : Conf ι W O A α} {schedule : List (ι × C)} (hσ : Reach M policy σ₀ σ)
    (hpolicy : ∀ s ∈ schedule, ∀ w o, policy w s.1 o s.2)
    (h : run M σ schedule = some τ) : Reach M policy σ₀ τ := by
  induction schedule generalizing σ with
  | nil => cases h; exact hσ
  | cons s schedule ih =>
    obtain ⟨σ', hs, hrun⟩ := Option.bind_eq_some_iff.mp h
    have hσ' := reach_of_step hσ (fun o _ _ => hpolicy s (by simp) _ o) hs
    exact ih hσ' (fun t ht => hpolicy t (by simp [ht])) hrun

/-- A schedule that is followed as long as its choices follow a policy. -/
def runUnder (M : Machine ι W C O A) (policy : W → ι → O → C → Prop)
    [∀ w i o c, Decidable (policy w i o c)] (σ : Conf ι W O A α) :
    List (ι × C) → Option (Conf ι W O A α)
  | [] => some σ
  | s :: schedule =>
    match σ.prog s.1 with
    | .ret _ => none
    | .op o _ =>
      if policy σ.world s.1 o s.2 then
        (step M σ s.1 s.2).bind fun τ => runUnder M policy τ schedule
      else none

lemma reach_of_runUnder {M : Machine ι W C O A} {policy : W → ι → O → C → Prop}
    [∀ w i o c, Decidable (policy w i o c)] {σ₀ σ τ : Conf ι W O A α}
    {schedule : List (ι × C)} (hσ : Reach M policy σ₀ σ)
    (h : runUnder M policy σ schedule = some τ) : Reach M policy σ₀ τ := by
  induction schedule generalizing σ with
  | nil => cases h; exact hσ
  | cons s schedule ih =>
    unfold runUnder at h
    cases hi : σ.prog s.1 with
    | ret a => simp [hi] at h
    | op o k =>
      simp only [hi] at h
      split_ifs at h with hc
      obtain ⟨σ', hs, hrun⟩ := Option.bind_eq_some_iff.mp h
      refine ih (reach_of_step hσ (fun o' k' ho => ?_) hs) hrun
      obtain ⟨rfl, -⟩ := Prog.op.inj (hi.symm.trans ho)
      exact hc

/-- What every operation keeps holds in every world a run comes to. -/
lemma Reach.invariant {M : Machine ι W C O A} {policy : W → ι → O → C → Prop}
    {σ₀ σ : Conf ι W O A α} {I : W → Prop} (h : Reach M policy σ₀ σ) (h₀ : I σ₀.world)
    (hstep : ∀ w i o c r v, I w → policy w i o c → M.perform o i c w = some (r, v) → I v) :
    I σ.world := by
  induction h with
  | refl => exact h₀
  | step _ _ hc hp ih => exact hstep _ _ _ _ _ _ ih hc hp

lemma Reach.trans {M : Machine ι W C O A} {policy : W → ι → O → C → Prop}
    {σ₀ σ τ : Conf ι W O A α} (h : Reach M policy σ₀ σ) (h' : Reach M policy σ τ) :
    Reach M policy σ₀ τ := by
  induction h' with
  | refl => exact h
  | step _ hi hc hp ih => exact .step ih hi hc hp

/-- A run under a policy is a run under every weaker one. -/
lemma Reach.mono {M : Machine ι W C O A} {policy policy' : W → ι → O → C → Prop}
    {σ₀ σ : Conf ι W O A α} (h : Reach M policy σ₀ σ)
    (hle : ∀ w i o c, policy w i o c → policy' w i o c) : Reach M policy' σ₀ σ := by
  induction h with
  | refl => exact .refl
  | step _ hi hc hp ih => exact .step ih hi (hle _ _ _ _ hc) hp

/-- A run keeps to a narrower policy, or there is a first call that breaks it. -/
lemma Reach.kept_or_broken {M : Machine ι W C O A} {policy : W → ι → O → C → Prop}
    {σ₀ σ : Conf ι W O A α} (extra : W → ι → O → Prop) (h : Reach M policy σ₀ σ) :
    Reach M (fun w i o c => policy w i o c ∧ extra w i o) σ₀ σ ∨
    ∃ σ' i o k, Reach M policy σ₀ σ' ∧ Reach M policy σ' σ ∧ σ'.prog i = .op o k ∧
      ¬ extra σ'.world i o := by
  induction h with
  | refl => exact .inl .refl
  | @step σ i o k c r w hσ hi hc hp ih =>
    rcases ih with hkept | ⟨σ', j, o', k', h₀, h', hj, hno⟩
    · by_cases he : extra σ.world i o
      · exact .inl (.step hkept hi ⟨hc, he⟩ hp)
      · exact .inr ⟨σ, i, o, k, hσ, .step .refl hi hc hp, hi, he⟩
    · exact .inr ⟨σ', j, o', k', h₀, .step h' hi hc hp, hj, hno⟩

end Runs

end WhaleMas.Program
