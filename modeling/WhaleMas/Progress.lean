import WhaleMas.Program

/-!
Runs that come to an end.

Every step leaves one agent with less to do, so no run of finitely many agents goes on
forever; and a run that is never stuck before all agents have returned can be completed. What
the agents may need along the way is counted by budgets: how many calls of a kind a program
can still make.
-/

namespace WhaleMas.Progress

open WhaleMas.Program

variable {ι W C O : Type} {A : O → Type} {α β ε : Type}

/-! ### Machines that wait more -/

section Waiting

variable {M : Machine ι W C O A} {blocked : W → ι → O → C → Prop}
  [∀ w i o c, Decidable (blocked w i o c)]

/-- The machine whose calls also wait while they are blocked. -/
def waiting (M : Machine ι W C O A) (blocked : W → ι → O → C → Prop)
    [∀ w i o c, Decidable (blocked w i o c)] : Machine ι W C O A where
  perform o i c w := if blocked w i o c then none else M.perform o i c w

lemma waiting_perform {o : O} {i : ι} {c : C} {w : W} (h : ¬ blocked w i o c) :
    (waiting M blocked).perform o i c w = M.perform o i c w := if_neg h

/-- A run of a machine that waits more is a run of the machine. -/
lemma reach_of_waiting [DecidableEq ι] {policy : W → ι → O → C → Prop} {σ τ : Conf ι W O A α}
    (h : Reach (waiting M blocked) policy σ τ) : Reach M policy σ τ := by
  induction h with
  | refl => exact .refl
  | step _ hi hc hp ih =>
    simp only [waiting] at hp
    split_ifs at hp
    exact .step ih hi hc hp

end Waiting

/-! ### No run goes on forever -/

/-- What a program may have to do after its next call. -/
def Rest (q p : Prog O A α) : Prop := ∃ o k r, p = .op o k ∧ q = k r

lemma rest_wellFounded : WellFounded (@Rest O A α) := by
  refine ⟨fun p => ?_⟩
  induction p with
  | ret a =>
    refine ⟨_, ?_⟩
    rintro q ⟨o, k, r, h, -⟩
    cases h
  | op o k ih =>
    refine ⟨_, ?_⟩
    rintro q ⟨o', k', r, h, rfl⟩
    cases h
    exact ih r

/-- Some agent has still something to do. -/
def Open (σ : Conf ι W O A α) : Prop := ∃ i o k, σ.prog i = .op o k

lemma not_open {σ : Conf ι W O A α} : ¬ Open σ ↔ ∀ i, ∃ a, σ.prog i = .ret a := by
  constructor
  · intro h i
    cases hi : σ.prog i with
    | ret a => exact ⟨a, rfl⟩
    | op o k => exact absurd ⟨i, o, k, hi⟩ h
  · rintro h ⟨i, o, k, hi⟩
    obtain ⟨a, ha⟩ := h i
    rw [hi] at ha
    cases ha

section Steps

variable [DecidableEq ι] {M : Machine ι W C O A} {policy : W → ι → O → C → Prop}
  {σ τ : Conf ι W O A α}

/-- Some agent takes a step from `σ` to `τ`. -/
def Next (M : Machine ι W C O A) (τ σ : Conf ι W O A α) : Prop :=
  ∃ i c, step M σ i c = some τ

/-- **Every run ends**: a step leaves one of finitely many agents with less to do, and the
others with what they had. -/
theorem next_wellFounded [Finite ι] (M : Machine ι W C O A) :
    WellFounded (@Next ι W C O A α _ M) := by
  have hlex : WellFounded (Pi.Lex (@WellOrderingRel ι) fun {_} => @Rest O A α) :=
    Pi.Lex.wellFounded _ fun _ => rest_wellFounded
  refine (InvImage.wf Conf.prog hlex).mono ?_
  rintro τ σ ⟨i, c, h⟩
  obtain ⟨o, k, r, w, hi, -, rfl⟩ := step_cases h
  refine ⟨i, fun j hj => ?_, o, k, r, hi, Function.update_self ..⟩
  have hne : j ≠ i := by
    rintro rfl
    exact irrefl_of WellOrderingRel _ hj
  exact Function.update_of_ne hne ..

/-- Some agent can go on with a choice that the policy allows. -/
def CanGo (M : Machine ι W C O A) (policy : W → ι → O → C → Prop) (σ : Conf ι W O A α) : Prop :=
  ∃ i o k c r w, σ.prog i = .op o k ∧ policy σ.world i o c ∧ M.perform o i c σ.world = some (r, w)

/-- **Completion**: a run that can go on whenever somebody has something to do can be
completed. -/
theorem completes [Finite ι]
    (hgo : ∀ τ, Reach M policy σ τ → Open τ → CanGo M policy τ) :
    ∃ τ, Reach M policy σ τ ∧ ∀ i, ∃ a, τ.prog i = .ret a := by
  suffices h : ∀ τ, Reach M policy σ τ → ∃ ρ, Reach M policy σ ρ ∧ ¬ Open ρ by
    obtain ⟨ρ, hρ, hclosed⟩ := h σ .refl
    exact ⟨ρ, hρ, not_open.mp hclosed⟩
  intro τ
  induction τ using (next_wellFounded M).induction with
  | _ τ ih =>
    intro hτ
    by_cases ho : Open τ
    · obtain ⟨i, o, k, c, r, w, hi, hc, hp⟩ := hgo τ hτ ho
      refine ih ⟨w, Function.update τ.prog i (k r)⟩ ⟨i, c, ?_⟩ (.step hτ hi hc hp)
      simp [step, hi, hp]
    · exact ⟨τ, hτ, ho⟩

end Steps

/-! ### Budgets -/

/-- On no way through the program are there more than `n` calls of a kind. A call may be
charged without being of the kind. -/
inductive AtMost (kind : O → Prop) : ℕ → Prog O A α → Prop
  | ret (n : ℕ) (a : α) : AtMost kind n (.ret a)
  | charge {n : ℕ} {o : O} {k : A o → Prog O A α} (h : ∀ r, AtMost kind n (k r)) :
      AtMost kind (n + 1) (.op o k)
  | free {n : ℕ} {o : O} {k : A o → Prog O A α} (ho : ¬ kind o) (h : ∀ r, AtMost kind n (k r)) :
      AtMost kind n (.op o k)

namespace AtMost

variable {kind : O → Prop} {m n : ℕ}

lemma mono {p : Prog O A α} (h : AtMost kind m p) (hmn : m ≤ n) : AtMost kind n p := by
  induction h generalizing n with
  | ret m a => exact .ret n a
  | @charge m o k _ ih =>
    obtain ⟨n, rfl⟩ : ∃ l, n = l + 1 := ⟨n - 1, by omega⟩
    exact .charge fun r => ih r (by omega)
  | free ho _ ih => exact .free ho fun r => ih r hmn

lemma bind {p : Prog O A α} {f : α → Prog O A β} (hp : AtMost kind m p)
    (hf : ∀ a, AtMost kind n (f a)) : AtMost kind (m + n) (p >>= f) := by
  induction hp with
  | ret m a => exact (hf a).mono (by omega)
  | @charge m o k _ ih =>
    rw [Prog.op_bind, Nat.add_right_comm]
    exact .charge ih
  | free ho _ ih =>
    rw [Prog.op_bind]
    exact .free ho ih

lemma call {o : O} (ho : ¬ kind o) : AtMost kind 0 (Prog.call o : Prog O A (A o)) :=
  .free ho fun _ => .ret _ _

lemma call_one (o : O) : AtMost kind 1 (Prog.call o : Prog O A (A o)) := .charge fun _ => .ret _ _

/-! Programs that may raise. -/

lemma ebind {p : ExceptT ε (Prog O A) α} {f : α → ExceptT ε (Prog O A) β}
    (hp : AtMost kind m p.run) (hf : ∀ a, AtMost kind n (f a).run) :
    AtMost kind (m + n) (p >>= f).run := by
  refine bind hp fun r => ?_
  cases r with
  | ok a => exact hf a
  | error e => exact .ret _ _

lemma emap {p : ExceptT ε (Prog O A) α} {f : α → β} (hp : AtMost kind m p.run) :
    AtMost kind m (f <$> p).run := by
  refine bind (n := 0) hp fun r => ?_
  cases r with
  | ok a => exact .ret _ _
  | error e => exact .ret _ _

lemma tryCatch {p : ExceptT ε (Prog O A) α} {h : ε → ExceptT ε (Prog O A) α}
    (hp : AtMost kind m p.run) (hh : ∀ e, AtMost kind n (h e).run) :
    AtMost kind (m + n) (tryCatch p h).run := by
  refine bind hp fun r => ?_
  cases r with
  | ok a => exact .ret _ _
  | error e => exact hh e

lemma lift {p : Prog O A α} (hp : AtMost kind m p) :
    AtMost kind m (ExceptT.lift p : ExceptT ε (Prog O A) α).run :=
  bind (n := 0) hp fun _ => .ret _ _

end AtMost

/-- Agents that start within their budgets stay within what is left of them, and the world has
enough for all: a call takes at most one, and only calls of the kind take anything. -/
theorem budget_reach [DecidableEq ι] [Fintype ι] {M : Machine ι W C O A}
    {policy : W → ι → O → C → Prop} {kind : O → Prop} {Enough : ℕ → W → Prop}
    (hspend : ∀ w i o c r v n, M.perform o i c w = some (r, v) → Enough (n + 1) w → Enough n v)
    (hkeep : ∀ w i o c r v n, M.perform o i c w = some (r, v) → ¬ kind o → Enough n w → Enough n v)
    {σ₀ σ : Conf ι W O A α} {b : ι → ℕ} (hb : ∀ i, AtMost kind (b i) (σ₀.prog i))
    (h₀ : Enough (∑ i, b i) σ₀.world) (h : Reach M policy σ₀ σ) :
    ∃ b' : ι → ℕ, (∀ i, AtMost kind (b' i) (σ.prog i)) ∧ Enough (∑ i, b' i) σ.world := by
  induction h with
  | refl => exact ⟨b, hb, h₀⟩
  | @step σ i o k c r w _ hi _ hp ih =>
    obtain ⟨b', hb', henough⟩ := ih
    have hbi := hb' i
    rw [hi] at hbi
    generalize hm : b' i = m at hbi
    cases hbi with
    | @charge n _ _ hk =>
      -- one call is charged to agent `i`
      refine ⟨Function.update b' i n, ?_, hspend _ _ _ _ _ _ _ hp ?_⟩
      · intro j
        by_cases hj : j = i
        · subst hj
          simpa using hk r
        · simpa [Function.update_of_ne hj] using hb' j
      · rwa [Finset.sum_update_of_mem (Finset.mem_univ i), Nat.add_right_comm, ← hm,
          ← Finset.sum_eq_add_sum_sdiff_singleton_of_mem (Finset.mem_univ i)]
    | free ho hk =>
      refine ⟨b', fun j => ?_, hkeep _ _ _ _ _ _ _ hp ho henough⟩
      by_cases hj : j = i
      · subst hj
        simpa [hm] using hk r
      · simpa [Function.update_of_ne hj] using hb' j

end WhaleMas.Progress
