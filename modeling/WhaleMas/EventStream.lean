import WhaleMas.WorkflowService

/-!
The event stream of a thread: its snapshot is polled every second and sent when it differs
from the one sent last.

One turn of the loop asks whether the client is still there, sends at most one frame, sleeps
and fetches the next snapshot. What a turn sends depends on the last payload and on the
seconds since the last frame, so everything that is said about the frames is an induction
over the turns with these two as parameters.
-/

namespace WhaleMas.EventStream

open WhaleMas.Models WhaleMas.WorkflowService

/-! ### The loop -/

inductive Frame
  | workflowSnapshot (payload : String)
  | keepAlive
  deriving DecidableEq

def Frame.text : Frame → String
  | .workflowSnapshot payload => "event: workflow_snapshot\ndata: " ++ payload ++ "\n\n"
  | .keepAlive => ": keep-alive\n\n"

def Frame.payload : Frame → Option String
  | .workflowSnapshot payload => some payload
  | .keepAlive => none

/-- What one turn of the loop is told: whether the client is gone, and what the service
answers after the sleep. -/
structure Turn where
  isDisconnected : Bool
  get : Except ServiceError WorkflowResponse

/-- The variables of the loop. -/
structure Vars where
  snapshot : WorkflowResponse
  previous : Option String
  heartbeatTicks : ℕ

/-- A turn that found the client connected: the payload it saw and the frame it sent. -/
structure Poll where
  payload : String
  frame : Option Frame

variable (modelDumpJson : WorkflowResponse → String)

/-- The turn up to its sleep. -/
def emit (v : Vars) : Option Frame × Vars :=
  let payload := modelDumpJson v.snapshot
  if some payload ≠ v.previous then
    (some (.workflowSnapshot payload), { v with previous := some payload, heartbeatTicks := 0 })
  else if v.heartbeatTicks ≥ 14 then (some .keepAlive, { v with heartbeatTicks := 0 })
  else (none, v)

/-- The generator, poll by poll. It ends with the client or with an error of the service. -/
def eventStream : Vars → List Turn → List Poll
  | _, [] => []
  | v, turn :: turns =>
    if turn.isDisconnected then []
    else
      let sent := emit modelDumpJson v
      ⟨modelDumpJson v.snapshot, sent.1⟩ ::
        match turn.get with
        | .error _ => []
        | .ok s => eventStream
            ⟨s, sent.2.previous, sent.2.heartbeatTicks + 1⟩ turns

def start (initial : WorkflowResponse) : Vars := ⟨initial, none, 0⟩

/-- The frames of some polls, in order. -/
def frames (polls : List Poll) : List Frame := polls.filterMap Poll.frame

def snapshots (polls : List Poll) : List String := (frames polls).filterMap Frame.payload

def streamWorkflowEvents (initial : Except ServiceError WorkflowResponse) (turns : List Turn) :
    Except ServiceError (List String) := do
  let initial ← initial
  return (frames (eventStream modelDumpJson (start initial) turns)).map Frame.text

/-- The snapshots the service gave to the turns that found the client connected. -/
def polled (snapshot : WorkflowResponse) : List Turn → List WorkflowResponse
  | [] => []
  | turn :: turns =>
    if turn.isDisconnected then []
    else snapshot :: match turn.get with
      | .error _ => []
      | .ok s => polled s turns

lemma text_workflowSnapshot (p : String) : (Frame.workflowSnapshot p).text =
    "event: workflow_snapshot\ndata: " ++ p ++ "\n\n" := rfl

lemma text_ne (p : String) : (Frame.workflowSnapshot p).text ≠ Frame.keepAlive.text := by
  have hsnap : "event: workflow_snapshot\ndata: ".toList.head? = some 'e' := by decide
  have halive : Frame.keepAlive.text.toList.head? = some ':' := by decide
  intro h
  rw [← h, text_workflowSnapshot, String.toList_append, String.toList_append, List.head?_append,
    List.head?_append, hsnap] at halive
  simp at halive

/-- A reader of the texts can tell the frames. -/
lemma Frame.text_injective : Function.Injective Frame.text := by
  intro a b h
  cases a with
  | workflowSnapshot p =>
    cases b with
    | workflowSnapshot q =>
      rw [text_workflowSnapshot, text_workflowSnapshot, String.append_left_inj,
        String.append_right_inj] at h
      rw [h]
    | keepAlive => exact absurd h (text_ne p)
  | keepAlive =>
    cases b with
    | workflowSnapshot q => exact absurd h.symm (text_ne q)
    | keepAlive => rfl

/-! ### One turn -/

section Turns

variable {modelDumpJson}

/-- What a turn sends, and what it remembers. -/
lemma emit_cases (v : Vars) :
    (v.previous ≠ some (modelDumpJson v.snapshot) ∧
      emit modelDumpJson v = (some (.workflowSnapshot (modelDumpJson v.snapshot)),
        ⟨v.snapshot, some (modelDumpJson v.snapshot), 0⟩)) ∨
    (v.previous = some (modelDumpJson v.snapshot) ∧ 14 ≤ v.heartbeatTicks ∧
      emit modelDumpJson v = (some .keepAlive, ⟨v.snapshot, v.previous, 0⟩)) ∨
    (v.previous = some (modelDumpJson v.snapshot) ∧ v.heartbeatTicks < 14 ∧
      emit modelDumpJson v = (none, v)) := by
  by_cases hp : v.previous = some (modelDumpJson v.snapshot)
  · rcases Nat.lt_or_ge v.heartbeatTicks 14 with ht | ht
    · exact .inr (.inr ⟨hp, ht, by simp [emit, hp, Nat.not_le.mpr ht]⟩)
    · exact .inr (.inl ⟨hp, ht, by simp [emit, hp, ht]⟩)
  · exact .inl ⟨hp, by simp [emit, Ne.symm hp]⟩

/-- After every turn the payload it saw is the one remembered. -/
lemma emit_previous (v : Vars) :
    (emit modelDumpJson v).2.previous = some (modelDumpJson v.snapshot) := by
  rcases emit_cases v with ⟨-, h⟩ | ⟨hp, -, h⟩ | ⟨hp, -, h⟩
  · rw [h]
  · rw [h, ← hp]
  · rw [h, ← hp]

/-- A property of streams that holds of the empty one and is kept by a poll put before the
stream that goes on from it. -/
theorem eventStream_rec {P : Vars → List Poll → Prop} (nil : ∀ v, P v [])
    (poll : ∀ v s polls, P ⟨s, some (modelDumpJson v.snapshot),
        (emit modelDumpJson v).2.heartbeatTicks + 1⟩ polls →
      P v (⟨modelDumpJson v.snapshot, (emit modelDumpJson v).1⟩ :: polls))
    (v : Vars) (turns : List Turn) : P v (eventStream modelDumpJson v turns) := by
  induction turns generalizing v with
  | nil => exact nil v
  | cons turn turns ih =>
    by_cases hd : turn.isDisconnected
    · rw [eventStream, if_pos hd]
      exact nil v
    · rw [eventStream, if_neg hd]
      cases turn.get with
      | error e => exact poll v v.snapshot [] (nil _)
      | ok s =>
        refine poll v s _ ?_
        rw [← emit_previous]
        exact ih _

lemma eventStream_payloads (v : Vars) (turns : List Turn) :
    (eventStream modelDumpJson v turns).map Poll.payload =
      (polled v.snapshot turns).map modelDumpJson := by
  induction turns generalizing v with
  | nil => rfl
  | cons turn turns ih =>
    by_cases hd : turn.isDisconnected
    · rw [eventStream, polled, if_pos hd, if_pos hd]
      rfl
    · rw [eventStream, polled, if_neg hd, if_neg hd]
      cases turn.get with
      | error e => rfl
      | ok s =>
        rw [List.map_cons, List.map_cons]
        exact congrArg _ (ih _)

/-! ### The frames -/

lemma snapshots_cons (p : Poll) (polls : List Poll) :
    snapshots (p :: polls) = (p.frame.bind Frame.payload).toList ++ snapshots polls := by
  obtain ⟨payload, _ | frame⟩ := p
  · simp [snapshots, frames]
  · cases hf : frame.payload <;> simp [snapshots, frames, hf]

/-- The snapshots sent, after the one sent last before, are the payloads without their
repetitions. -/
lemma eventStream_snapshots (v : Vars) (turns : List Turn) :
    v.previous.toList ++ snapshots (eventStream modelDumpJson v turns) =
      (v.previous.toList ++ (eventStream modelDumpJson v turns).map Poll.payload).destutter
        (· ≠ ·) := by
  refine eventStream_rec (P := fun v polls => v.previous.toList ++ snapshots polls =
    (v.previous.toList ++ polls.map Poll.payload).destutter (· ≠ ·)) (fun v => ?_)
    (fun v s polls ih => ?_) v turns
  · cases v.previous <;> simp [snapshots, frames]
  · rw [snapshots_cons, List.map_cons]
    simp only [Option.toList_some, List.singleton_append] at ih
    rcases emit_cases v with ⟨hp, h⟩ | ⟨hp, -, h⟩ | ⟨hp, -, h⟩
    · -- a new payload
      rw [h]
      simp only [Option.bind_some, Frame.payload, Option.toList_some, List.singleton_append, ih]
      cases hq : v.previous with
      | none => rfl
      | some q =>
        have hne : q ≠ modelDumpJson v.snapshot := fun hc => hp (hq.trans (congrArg some hc))
        simp [List.destutter_cons', List.destutter'_cons_pos _ hne]
    · rw [h, hp]
      simp [Frame.payload, ih, List.destutter_cons']
    · rw [h, hp]
      simp [ih, List.destutter_cons']

/-- At the end of every poll the snapshot sent last is the one the poll saw. -/
lemma eventStream_last (v : Vars) (turns : List Turn) :
    ∀ i (h : i < (eventStream modelDumpJson v turns).length),
      (snapshots ((eventStream modelDumpJson v turns).take (i + 1))).getLast?.or v.previous =
        some (eventStream modelDumpJson v turns)[i].payload := by
  refine eventStream_rec (P := fun v polls => ∀ i (h : i < polls.length),
    (snapshots (polls.take (i + 1))).getLast?.or v.previous = some polls[i].payload)
    (fun v i h => by simp at h) (fun v s polls ih i h => ?_) v turns
  have hfirst : ((emit modelDumpJson v).1.bind Frame.payload).or v.previous =
      some (modelDumpJson v.snapshot) := by
    rcases emit_cases v with ⟨-, h⟩ | ⟨hp, -, h⟩ | ⟨hp, -, h⟩
    · rw [h]
      rfl
    · rw [h, ← hp]
      rfl
    · rw [h, ← hp]
      rfl
  have hlast : ∀ (o : Option String) (l : List String),
      (o.toList ++ l).getLast?.or v.previous = l.getLast?.or (o.or v.previous) := by
    intro o l
    cases o with
    | none => rfl
    | some a =>
      rw [Option.toList_some, List.singleton_append, List.getLast?_cons]
      cases l.getLast? <;> rfl
  rw [List.take_succ_cons, snapshots_cons, hlast, hfirst]
  cases i with
  | zero => simp [snapshots, frames]
  | succ i =>
    have hi : i < polls.length := by simpa using h
    rw [List.getElem_cons_succ]
    exact ih i hi

/-- A keep-alive is sent only when the payload is the one remembered. -/
lemma eventStream_keepAlive (v : Vars) (turns : List Turn) :
    ∀ i (h : i < (eventStream modelDumpJson v turns).length),
      (eventStream modelDumpJson v turns)[i].frame = some .keepAlive →
        (v.previous :: (eventStream modelDumpJson v turns).map fun p => some p.payload)[i]? =
          some (some (eventStream modelDumpJson v turns)[i].payload) := by
  refine eventStream_rec (P := fun v polls => ∀ i (h : i < polls.length),
    polls[i].frame = some .keepAlive →
      (v.previous :: polls.map fun p => some p.payload)[i]? = some (some polls[i].payload))
    (fun v i h => by simp at h) (fun v s polls ih i h => ?_) v turns
  cases i with
  | zero =>
    intro hk
    rcases emit_cases v with ⟨-, he⟩ | ⟨hp, -, -⟩ | ⟨hp, -, -⟩
    · rw [List.getElem_cons_zero, he] at hk
      cases hk
    · exact congrArg some hp
    · exact congrArg some hp
  | succ i =>
    have hi : i < polls.length := by simpa using h
    rw [List.getElem_cons_succ, List.getElem?_cons_succ]
    exact ih i hi

/-- A poll within reach of the fourteenth tick sends a frame, and after a frame the next
comes within fourteen polls. -/
lemma eventStream_not_silent (v : Vars) (turns : List Turn) :
    (∀ n, 14 ≤ v.heartbeatTicks + n → n < (eventStream modelDumpJson v turns).length →
      ∃ p ∈ (eventStream modelDumpJson v turns).take (n + 1), p.frame.isSome) ∧
    ∀ i (h : i + 14 < (eventStream modelDumpJson v turns).length),
      (eventStream modelDumpJson v turns)[i].frame.isSome →
        ∃ p ∈ ((eventStream modelDumpJson v turns).drop (i + 1)).take 14, p.frame.isSome := by
  refine eventStream_rec (P := fun v polls =>
    (∀ n, 14 ≤ v.heartbeatTicks + n → n < polls.length →
      ∃ p ∈ polls.take (n + 1), p.frame.isSome) ∧
    ∀ i (h : i + 14 < polls.length), polls[i].frame.isSome →
      ∃ p ∈ (polls.drop (i + 1)).take 14, p.frame.isSome)
    (fun v => ?_) (fun v s polls ih => ?_) v turns
  · exact ⟨fun n _ h => by simp at h, fun i h => by simp at h⟩
  · obtain ⟨hwithin, hgap⟩ := ih
    constructor
    · intro n hn hlen
      rw [List.take_succ_cons]
      rcases emit_cases v with ⟨-, he⟩ | ⟨-, -, he⟩ | ⟨-, ht, he⟩
      · exact ⟨_, List.mem_cons_self, by rw [he]; rfl⟩
      · exact ⟨_, List.mem_cons_self, by rw [he]; rfl⟩
      · -- nothing is sent, and one more second has passed
        have hticks : (emit modelDumpJson v).2.heartbeatTicks = v.heartbeatTicks := by rw [he]
        obtain ⟨m, rfl⟩ : ∃ m, n = m + 1 := ⟨n - 1, by omega⟩
        have hlen' : m < polls.length := by simpa using hlen
        obtain ⟨p, hp, hsome⟩ := hwithin m (by simp only [hticks]; omega) hlen'
        exact ⟨p, List.mem_cons_of_mem _ hp, hsome⟩
    · intro i hlen hsome
      rw [List.length_cons] at hlen
      cases i with
      | zero =>
        -- the frame has set the ticks back, and one second has passed since
        have hticks : (emit modelDumpJson v).2.heartbeatTicks = 0 := by
          rw [List.getElem_cons_zero] at hsome
          rcases emit_cases v with ⟨-, he⟩ | ⟨-, -, he⟩ | ⟨-, -, he⟩
          · rw [he]
          · rw [he]
          · rw [he] at hsome
            cases hsome
        exact hwithin 13 (by simp only [hticks]; omega) (by omega)
      | succ i => exact hgap i (by omega) hsome

end Turns

/-- **The event stream is the sequence of polls without repetitions, and never silent.** The
texts sent can be read as frames in one way only. The payloads are those of the snapshots
polled; the snapshots sent are these without consecutive repetitions, the last of them up to
date at the end of every poll; no keep-alive goes out when the payload has changed, and after
a frame the next is at most fourteen polls away. -/
theorem stream_follows (initial : WorkflowResponse) (turns : List Turn) :
    let polls := eventStream modelDumpJson (start initial) turns
    streamWorkflowEvents modelDumpJson (.ok initial) turns =
        .ok ((frames polls).map Frame.text) ∧
      (∀ sent : List Frame, streamWorkflowEvents modelDumpJson (.ok initial) turns =
        .ok (sent.map Frame.text) → sent = frames polls) ∧
      polls.map Poll.payload = (polled initial turns).map modelDumpJson ∧
      snapshots polls = (polls.map Poll.payload).destutter (· ≠ ·) ∧
      (∀ i (h : i < polls.length),
        (snapshots (polls.take (i + 1))).getLast? = some polls[i].payload) ∧
      (∀ i (h : i < polls.length),
        (∀ j, ∀ hj : j + 1 = i, polls[j].payload ≠ polls[i].payload) →
          polls[i].frame ≠ some .keepAlive) ∧
      ∀ i (h : i + 14 < polls.length), polls[i].frame.isSome →
        ∃ j, ∃ hj : i < j ∧ j ≤ i + 14, polls[j].frame.isSome := by
  intro polls
  refine ⟨rfl, ?_, eventStream_payloads _ _, eventStream_snapshots (start initial) turns, ?_, ?_,
    ?_⟩
  · intro sent hsent
    exact Frame.text_injective.list_map (Except.ok.inj hsent).symm
  · intro i h
    rw [← eventStream_last (start initial) turns i h]
    exact Option.or_none.symm
  · intro i h hchanged hk
    have hsame := eventStream_keepAlive (start initial) turns i h hk
    cases i with
    | zero => cases hsame
    | succ j =>
      refine hchanged j rfl ?_
      have hj : j < polls.length := by omega
      simpa [polls, hj] using hsame
  · intro i h hsome
    obtain ⟨p, hp, hframe⟩ := (eventStream_not_silent (start initial) turns).2 i h hsome
    obtain ⟨k, hk, rfl⟩ := List.mem_iff_getElem.mp hp
    rw [List.length_take, List.length_drop] at hk
    refine ⟨i + 1 + k, by omega, ?_⟩
    simpa using hframe

end WhaleMas.EventStream
