import Mathlib

/-!
Graphs of nodes over a shared state, with checkpoints and interrupts.

A node reads the state and gives an update, pauses with a value for whoever resumes it, or
raises. An invocation runs node after node; after every node the state and the node to run
next are saved. A pause leaves the last checkpoint in place with the value pending. Resuming
runs the pending node again, and hands the resume value to the first interrupt of that node
only. What an invocation leaves that ends with an exception is up to the library: a parameter,
of which little is asked.
-/

namespace WhaleMas.StateGraph

/-! ### Computations of a node -/

/-- What a computation inside a node comes to. -/
inductive Outcome (V E α : Type)
  | done (a : α)
  | interrupted (v : V)
  | raised (e : E)

namespace Outcome

variable {V E α β : Type}

def bind : Outcome V E α → (α → Outcome V E β) → Outcome V E β
  | done a, f => f a
  | interrupted v, _ => interrupted v
  | raised e, _ => raised e

instance : Monad (Outcome V E) where
  pure := done
  bind := bind

@[simp] lemma pure_eq (a : α) : (pure a : Outcome V E α) = done a := rfl
@[simp] lemma done_bind (a : α) (f : α → Outcome V E β) : (done a >>= f) = f a := rfl
@[simp] lemma interrupted_bind (v : V) (f : α → Outcome V E β) :
    (interrupted v >>= f) = interrupted v := rfl
@[simp] lemma raised_bind (e : E) (f : α → Outcome V E β) : (raised e >>= f) = raised e := rfl

end Outcome

/-- The resume value when there is one, and a pause with `v` otherwise. -/
def interrupt {V E R : Type} (resume : Option R) (v : V) : Outcome V E R :=
  match resume with
  | some r => .done r
  | none => .interrupted v

@[simp] lemma interrupt_some {V E R : Type} (r : R) (v : V) :
    (interrupt (some r) v : Outcome V E R) = .done r := rfl
@[simp] lemma interrupt_none {V E R : Type} (v : V) :
    (interrupt none v : Outcome V E R) = .interrupted v := rfl

/-! ### Graphs -/

/-- Nodes `N` over states `S` with partial updates `U`, interrupt values `V`, resume values
`R` and exceptions `E`. -/
structure Graph (N S U V R E : Type) where
  entry : N
  node : N → Option R → S → Outcome V E U
  /-- The update merged into the state. -/
  merge : S → U → S
  /-- The edge taken after a node, `none` for the end. -/
  goto : N → S → Except E (Option N)

/-- A node to run on a state, with the resume value for it. -/
structure Task (N S R : Type) where
  node : N
  values : S
  resume : Option R

/-- The saved state of a thread. -/
structure Checkpoint (N S V R : Type) where
  values : S
  next : Option N
  interrupt : Option V
  /-- The task that ended with an exception and is run again. -/
  failed : Option (Task N S R)

/-- The exceptions an invocation ends with. It may run no more nodes when its limit is reached,
or when it is broken off. -/
inductive Failure (E : Type)
  | node (e : E)
  | recursion

/-- The end of an invocation with an exception: the task it was at, the interrupt pending
there, and the update of the node if it had given one. -/
structure Abort (N S U V R E : Type) where
  error : Failure E
  task : Task N S R
  pending : Option V
  update : Option U

/-- What the library leaves of a thread. -/
abbrev Leave (N S U V R E : Type) := Abort N S U V R E → Checkpoint N S V R

variable {N S U V R E : Type} (G : Graph N S U V R E) (leave : Leave N S U V R E)

/-- Run from node `n` on a checkpoint with `pending` interrupt, for at most `fuel` nodes. -/
def run : ℕ → Option R → Option V → S → N → Checkpoint N S V R × Option (Failure E)
  | 0, resume, pending, s, n =>
    (leave ⟨.recursion, ⟨n, s, resume⟩, pending, none⟩, some .recursion)
  | fuel + 1, resume, pending, s, n =>
    match G.node n resume s with
    | .raised e => (leave ⟨.node e, ⟨n, s, resume⟩, pending, none⟩, some (.node e))
    | .interrupted v => (⟨s, some n, some v, none⟩, none)
    | .done u =>
      match G.goto n (G.merge s u) with
      | .error e => (leave ⟨.node e, ⟨n, s, resume⟩, pending, some u⟩, some (.node e))
      | .ok none => (⟨G.merge s u, none, none, none⟩, none)
      -- the next node starts from a new checkpoint, without the resume value
      | .ok (some m) => run fuel none none (G.merge s u) m

/-- `ainvoke` with an initial state. -/
def invoke (limit : ℕ) (s : S) : Checkpoint N S V R × Option (Failure E) :=
  run G leave limit none none s G.entry

/-- The task that a resume value is handed to: the one that failed, with the value that was kept
for it if there is one, or the next. -/
def Checkpoint.resumed (c : Checkpoint N S V R) (r : R) : Option (Task N S R) :=
  match c.failed with
  | some t => some ⟨t.node, t.values, some (t.resume.getD r)⟩
  | none => c.next.map fun n => ⟨n, c.values, some r⟩

/-- `ainvoke` with `Command(resume=r)`. -/
def resumeWith (limit : ℕ) (c : Checkpoint N S V R) (r : R) :
    Checkpoint N S V R × Option (Failure E) :=
  match c.resumed r with
  | none => (c, none)
  | some t => run G leave limit t.resume c.interrupt t.values t.node

/-- What is asked of the library: what it leaves of a thread is the state the task began with,
or that with its update; a task that is run again begins with that state too; and where nothing
was pending, nothing is. -/
structure Orderly : Prop where
  values : ∀ a, (leave a).values = a.task.values ∨
    ∃ u, a.update = some u ∧ (leave a).values = G.merge a.task.values u
  failed : ∀ a t, (leave a).failed = some t → t.values = a.task.values
  quiet : ∀ a, a.pending = none → (leave a).interrupt = none

/-- A library that keeps what a failed task has written: its update shows in the state, and
where there was a resume value, the task is run again with it. -/
def keepWrites : Leave N S U V R E := fun a => {
  values := (a.update.map (G.merge a.task.values)).getD a.task.values
  next := if a.update.isSome ∨ a.task.resume.isSome then none else some a.task.node
  interrupt := a.pending
  failed := if a.update.isSome ∨ a.task.resume.isSome then some a.task else none }

lemma orderly_keepWrites : Orderly G (keepWrites G) where
  values := fun a => by
    cases h : a.update with
    | none => exact .inl (by simp [keepWrites, h])
    | some u => exact .inr ⟨u, rfl, by simp [keepWrites, h]⟩
  failed := fun a t ht => by
    simp only [keepWrites] at ht
    split_ifs at ht
    rw [← Option.some.inj ht]
  quiet := fun _ h => h

/-- The states that are saved while running from node `n`: one for each node whose edge is
taken. -/
def saved : ℕ → Option R → S → N → List S
  | 0, _, _, _ => []
  | fuel + 1, resume, s, n =>
    match G.node n resume s with
    | .raised _ => []
    | .interrupted _ => []
    | .done u =>
      match G.goto n (G.merge s u) with
      | .error _ => []
      | .ok none => [G.merge s u]
      | .ok (some m) => G.merge s u :: saved fuel none (G.merge s u) m

variable {G leave} {fuel : ℕ} {r : Option R} {pending : Option V} {s : S} {n : N}

lemma run_succ : run G leave (fuel + 1) r pending s n =
    match G.node n r s with
    | .raised e => (leave ⟨.node e, ⟨n, s, r⟩, pending, none⟩, some (.node e))
    | .interrupted v => (⟨s, some n, some v, none⟩, none)
    | .done u =>
      match G.goto n (G.merge s u) with
      | .error e => (leave ⟨.node e, ⟨n, s, r⟩, pending, some u⟩, some (.node e))
      | .ok none => (⟨G.merge s u, none, none, none⟩, none)
      | .ok (some m) => run G leave fuel none none (G.merge s u) m :=
  rfl

lemma run_interrupted {v : V} (h : G.node n r s = .interrupted v) :
    run G leave (fuel + 1) r pending s n = (⟨s, some n, some v, none⟩, none) := by
  simp [run_succ, h]

lemma run_raised {e : E} (h : G.node n r s = .raised e) :
    run G leave (fuel + 1) r pending s n =
      (leave ⟨.node e, ⟨n, s, r⟩, pending, none⟩, some (.node e)) := by
  simp [run_succ, h]

lemma run_end {u : U} {t : S} (h : G.node n r s = .done u) (hs : G.merge s u = t)
    (hg : G.goto n t = .ok none) :
    run G leave (fuel + 1) r pending s n = (⟨t, none, none, none⟩, none) := by
  simp [run_succ, h, hs, hg]

lemma run_stuck {u : U} {e : E} {t : S} (h : G.node n r s = .done u) (hs : G.merge s u = t)
    (hg : G.goto n t = .error e) :
    run G leave (fuel + 1) r pending s n =
      (leave ⟨.node e, ⟨n, s, r⟩, pending, some u⟩, some (.node e)) := by
  simp [run_succ, h, hs, hg]

lemma run_goto {u : U} {m : N} {t : S} (h : G.node n r s = .done u) (hs : G.merge s u = t)
    (hg : G.goto n t = .ok (some m)) :
    run G leave (fuel + 1) r pending s n = run G leave fuel none none t m := by
  simp [run_succ, h, hs, hg]

/-- What was pending before is of no account once a node has run. -/
lemma run_pending {pending' : Option V} (h : (run G leave fuel r pending s n).2 = none) :
    run G leave fuel r pending' s n = run G leave fuel r pending s n := by
  cases fuel with
  | zero => simp [run] at h
  | succ fuel =>
    rw [run_succ] at h ⊢
    rw [run_succ]
    cases hn : G.node n r s with
    | raised e => simp [hn] at h
    | interrupted v => rfl
    | done u =>
      cases hg : G.goto n (G.merge s u) with
      | error e => simp [hn, hg] at h
      | ok next => cases next <;> simp [hg]

lemma saved_succ : saved G (fuel + 1) r s n =
    match G.node n r s with
    | .raised _ => []
    | .interrupted _ => []
    | .done u =>
      match G.goto n (G.merge s u) with
      | .error _ => []
      | .ok none => [G.merge s u]
      | .ok (some m) => G.merge s u :: saved G fuel none (G.merge s u) m :=
  rfl

lemma saved_interrupted {v : V} (h : G.node n r s = .interrupted v) :
    saved G (fuel + 1) r s n = [] := by
  simp [saved_succ, h]

lemma saved_end {u : U} {t : S} (h : G.node n r s = .done u) (hs : G.merge s u = t)
    (hg : G.goto n t = .ok none) : saved G (fuel + 1) r s n = [t] := by
  simp [saved_succ, h, hs, hg]

lemma saved_goto {u : U} {m : N} {t : S} (h : G.node n r s = .done u) (hs : G.merge s u = t)
    (hg : G.goto n t = .ok (some m)) :
    saved G (fuel + 1) r s n = t :: saved G fuel none t m := by
  simp [saved_succ, h, hs, hg]

lemma resumeWith_paused {c : Checkpoint N S V R} (hn : c.next = some n) (hf : c.failed = none)
    (limit : ℕ) (d : R) :
    resumeWith G leave limit c d = run G leave limit (some d) c.interrupt c.values n := by
  simp [resumeWith, Checkpoint.resumed, hn, hf]

lemma resumeWith_pending {limit : ℕ} {next : Option N} {pending' : Option V} {d : R}
    (hn : next ≠ none) (h : (resumeWith G leave limit ⟨s, next, pending, none⟩ d).2 = none) :
    resumeWith G leave limit ⟨s, next, pending', none⟩ d =
      resumeWith G leave limit ⟨s, next, pending, none⟩ d := by
  obtain ⟨n, rfl⟩ := Option.ne_none_iff_exists'.mp hn
  exact run_pending h

/-! ### What nodes keep -/

/-- The state has a property, and so has the state that a failed task begins with. -/
structure Held (P : S → Prop) (c : Checkpoint N S V R) : Prop where
  values : P c.values
  failed : ∀ t, c.failed = some t → P t.values

/-- The updates of the nodes keep a property of states. -/
def Keeps (G : Graph N S U V R E) (P : S → Prop) : Prop :=
  ∀ n r s u, P s → G.node n r s = .done u → P (G.merge s u)

variable {P : S → Prop}

lemma Orderly.held (hleave : Orderly G leave) {a : Abort N S U V R E} (hs : P a.task.values)
    (hu : ∀ u, a.update = some u → P (G.merge a.task.values u)) : Held P (leave a) where
  values := by
    obtain h | ⟨u, hau, h⟩ := hleave.values a
    · rwa [h]
    · rw [h]
      exact hu u hau
  failed := fun t ht => by rwa [hleave.failed a t ht]

/-- **Runs keep what nodes keep**, wherever they break off. -/
theorem held_run (hleave : Orderly G leave) (hP : Keeps G P) (hs : P s) :
    Held P (run G leave fuel r pending s n).1 := by
  induction fuel generalizing r pending s n with
  | zero => exact hleave.held hs fun u hu => by cases hu
  | succ fuel ih =>
    cases hn : G.node n r s with
    | raised e =>
      rw [run_raised hn]
      exact hleave.held hs fun u hu => by cases hu
    | interrupted v =>
      rw [run_interrupted hn]
      exact ⟨hs, fun t ht => by cases ht⟩
    | done u =>
      have hu : P (G.merge s u) := hP n r s u hs hn
      cases hg : G.goto n (G.merge s u) with
      | error e =>
        rw [run_stuck hn rfl hg]
        refine hleave.held hs fun u' hu' => ?_
        rwa [← Option.some.inj hu']
      | ok next =>
        cases next with
        | none =>
          rw [run_end hn rfl hg]
          exact ⟨hu, fun t ht => by cases ht⟩
        | some m =>
          rw [run_goto hn rfl hg]
          exact ih hu

theorem held_resumeWith (hleave : Orderly G leave) (hP : Keeps G P) {c : Checkpoint N S V R}
    (hc : Held P c) (limit : ℕ) (d : R) : Held P (resumeWith G leave limit c d).1 := by
  unfold resumeWith Checkpoint.resumed
  cases hf : c.failed with
  | some t => exact held_run hleave hP (hc.failed t hf)
  | none =>
    cases hn : c.next with
    | none => exact hc
    | some n => exact held_run hleave hP hc.values

variable (fuel n) in
/-- Where nothing was pending, nothing is, or a node has paused. -/
theorem paused_or_quiet (hleave : Orderly G leave) (hP : Keeps G P) (hs : P s) :
    (run G leave fuel none none s n).1.interrupt = none ∨
    ∃ m v t, P t ∧ G.node m none t = .interrupted v ∧
      (run G leave fuel none none s n).1 = ⟨t, some m, some v, none⟩ := by
  induction fuel generalizing s n with
  | zero => exact .inl (hleave.quiet _ rfl)
  | succ fuel ih =>
    cases hn : G.node n none s with
    | raised e =>
      rw [run_raised hn]
      exact .inl (hleave.quiet _ rfl)
    | interrupted v =>
      rw [run_interrupted hn]
      exact .inr ⟨n, v, s, hs, hn, rfl⟩
    | done u =>
      cases hg : G.goto n (G.merge s u) with
      | error e =>
        rw [run_stuck hn rfl hg]
        exact .inl (hleave.quiet _ rfl)
      | ok next =>
        cases next with
        | none =>
          rw [run_end hn rfl hg]
          exact .inl rfl
        | some m =>
          rw [run_goto hn rfl hg]
          exact ih m (hP n none s u hs hn)

end WhaleMas.StateGraph
