import WhaleMas.RelyGuarantee

/-!
What a program does whatever the answers to its calls are.

A play is a list of calls with their answers that the program goes along with. Every agent of
a run plays its program, so what holds of all plays holds of an agent among any others, on any
machine. The rules for programs apply to plays: the world is the play so far, and it answers
anything.
-/

namespace WhaleMas.Plays

open WhaleMas.Program WhaleMas.RelyGuarantee

variable {ι W C O : Type} {A : O → Type} {α : Type}

/-- Calls with their answers. -/
abbrev Exchange (O : Type) (A : O → Type) := List (Σ o : O, A o)

/-- Program `p` goes along with the exchange, and then `q` is still to do. -/
inductive Play : Prog O A α → Exchange O A → Prog O A α → Prop
  | refl (p : Prog O A α) : Play p [] p
  | op {o : O} {k : A o → Prog O A α} {r : A o} {t : Exchange O A} {q : Prog O A α}
      (h : Play (k r) t q) : Play (.op o k) (⟨o, r⟩ :: t) q

lemma Play.snoc {p q : Prog O A α} {t : Exchange O A} {o : O} {k : A o → Prog O A α} {r : A o}
    (h : Play p t q) (hq : q = .op o k) : Play p (t ++ [⟨o, r⟩]) (k r) := by
  induction h with
  | refl p =>
    subst hq
    exact .op (.refl _)
  | op _ ih => exact .op (ih hq)

/-- The play against someone who gives each call an answer of its own. -/
def against (answer : (o : O) → A o) : Prog O A α → Exchange O A × α
  | .ret a => ([], a)
  | .op o k =>
    let rest := against answer (k (answer o))
    (⟨o, answer o⟩ :: rest.1, rest.2)

lemma play_against (answer : (o : O) → A o) (p : Prog O A α) :
    Play p (against answer p).1 (.ret (against answer p).2) := by
  induction p with
  | ret a => exact .refl _
  | op o k ih => exact .op (ih (answer o))

/-- A moment of a run at which agent `i` calls `o`. -/
structure Calling [DecidableEq ι] (M : Machine ι W C O A) (policy : W → ι → O → C → Prop)
    (σ₀ σ ρ : Conf ι W O A α) (i : ι) (o : O) : Prop where
  before : Reach M policy σ₀ ρ
  after : Reach M policy ρ σ
  next : ∃ k, ρ.prog i = .op o k

/-- A call of agent `i` that the machine answered at a moment of the run. -/
def Answered [DecidableEq ι] (M : Machine ι W C O A) (policy : W → ι → O → C → Prop)
    (σ₀ σ : Conf ι W O A α) (i : ι) (e : Σ o : O, A o) : Prop :=
  ∃ ρ, Calling M policy σ₀ σ ρ i e.1 ∧ ∃ c v, M.perform e.1 i c ρ.world = some (e.2, v)

/-- Every agent of a run plays its program, and each of its calls was answered in the run. -/
theorem plays_of_reach [DecidableEq ι] {M : Machine ι W C O A}
    {policy : W → ι → O → C → Prop} {σ₀ σ : Conf ι W O A α} (h : Reach M policy σ₀ σ) (i : ι) :
    ∃ t, Play (σ₀.prog i) t (σ.prog i) ∧ ∀ e ∈ t, Answered M policy σ₀ σ i e := by
  induction h with
  | refl => exact ⟨[], .refl _, by simp⟩
  | @step σ j o k c r w hσ hj hc hp ih =>
    obtain ⟨t, ht, hanswered⟩ := ih
    have hlater : ∀ e ∈ t,
        Answered M policy σ₀ ⟨w, Function.update σ.prog j (k r)⟩ i e := by
      intro e he
      obtain ⟨ρ, ⟨hbefore, hafter, hnext⟩, hgiven⟩ := hanswered e he
      exact ⟨ρ, ⟨hbefore, hafter.step hj hc hp, hnext⟩, hgiven⟩
    by_cases hij : i = j
    · subst hij
      refine ⟨t ++ [⟨o, r⟩], ?_, ?_⟩
      · simp only [Function.update_self]
        exact ht.snoc hj
      · intro e he
        rcases List.mem_append.mp he with he | he
        · exact hlater e he
        · rw [List.mem_singleton.mp he]
          exact ⟨σ, ⟨hσ, .step .refl hj hc hp, k, hj⟩, c, w, hp⟩
    · simp only [Function.update_of_ne hij]
      exact ⟨t, ht, hlater⟩

/-! ### Rules -/

/-- The world is the play so far, and the choice is what to answer to which call. -/
def anything : Machine Unit (Exchange O A) ((o : O) → Option (A o)) O A where
  perform o _ c t := (c o).map fun r => (r, t ++ [⟨o, r⟩])

/-- Plays that keep an invariant. -/
def keeping (I : Exchange O A → Prop) :
    Rules Unit (Exchange O A) ((o : O) → Option (A o)) O where
  inv := I
  rely := fun _ s t => s = t
  demand := fun _ _ _ => True
  policy := fun _ _ _ _ => True
  refl := fun _ _ => rfl
  trans := fun _ _ _ _ h h' => h.trans h'

variable {I : Exchange O A → Prop}

lemma stable_keeping {P : Exchange O A → Prop} : Stable (keeping I) () P :=
  fun _ _ h _ hr _ => hr ▸ h

/-- One call, answered in some way. -/
lemma triple_play {P : Exchange O A → Prop} {o : O} {Q : A o → Exchange O A → Prop}
    (h : ∀ t r, I t → P t → I (t ++ [⟨o, r⟩]) ∧ Q r (t ++ [⟨o, r⟩])) :
    Triple anything (keeping I) () P (.call o) Q := by
  refine triple_call stable_keeping (fun _ _ _ => trivial) ?_
  intro t c r u hI hP _ hp
  obtain ⟨r', -, heq⟩ := Option.map_eq_some_iff.mp hp
  obtain ⟨rfl, rfl⟩ := Prod.mk.inj heq
  obtain ⟨hI', hQ⟩ := h t r' hI hP
  exact ⟨hI', fun j hj => absurd (Subsingleton.elim j ()) hj, hQ⟩

/-- A program that is asked to keep nothing may be played in any way. -/
lemma triple_free (p : Prog O A α) {P : Exchange O A → Prop} :
    Triple anything (keeping fun _ => True) () P p fun _ _ => True := by
  suffices h : ∀ t, Safe anything (keeping fun _ => True) () (fun _ _ => True) p t from
    fun t _ _ => h t
  intro t
  induction p generalizing t with
  | ret a => trivial
  | op o k ih =>
    intro u _ _
    exact ⟨trivial, fun c r v _ _ =>
      ⟨trivial, fun j hj => absurd (Subsingleton.elim j ()) hj, ih r v⟩⟩

lemma safe_plays {p q : Prog O A α} {Q : α → Exchange O A → Prop} {s t : Exchange O A}
    (h : Play p t q) (hI : I s) (hs : Safe anything (keeping I) () Q p s) :
    I (s ++ t) ∧ Safe anything (keeping I) () Q q (s ++ t) := by
  classical
  induction h generalizing s with
  | refl p => simpa using ⟨hI, hs⟩
  | @op o k r t q _ ih =>
    obtain ⟨-, hstep⟩ := hs s rfl hI
    let c : (o' : O) → Option (A o') := fun o' => if h : o' = o then some (h ▸ r) else none
    have hp : anything.perform o () c s = some (r, s ++ [⟨o, r⟩]) := by simp [anything, c]
    obtain ⟨hI', -, hk⟩ := hstep c r _ trivial hp
    simpa using ih hI' hk

/-- **Soundness**: a play keeps the invariant, and where the program has returned it ended as
the rules say. -/
theorem plays_post {p q : Prog O A α} {P : Exchange O A → Prop} {Q : α → Exchange O A → Prop}
    {t : Exchange O A} (hp : Triple anything (keeping I) () P p Q) (h : Play p t q) (hI : I [])
    (hP : P []) : I t ∧ ∀ a, q = .ret a → Q a t := by
  obtain ⟨hIt, hs⟩ := safe_plays h hI (hp [] hI hP)
  refine ⟨hIt, ?_⟩
  rintro a rfl
  exact hs

end WhaleMas.Plays
