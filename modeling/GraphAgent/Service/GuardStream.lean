import GraphAgent.Library.Transition
import GraphAgent.Library.Relay
import Mathlib.Logic.Function.Basic

/-!
# Barge-in: the streams of concurrent runs

`AgentService._guard_stream` for any number of `run()` and `resume()` calls. A
step is what happens between two suspension points. A call creates at most one
produce task, which therefore goes by the number of the call. Cancelling a task
that has not taken its first step ends it without its body ever being entered.
-/

namespace GraphAgent.GuardStream

/-- How a task ended. -/
inductive Outcome where
  | finished
  | cancelled
  | failed
  deriving DecidableEq

/-- A task before its first step, during its body and afterwards. -/
inductive Status where
  | created
  | running
  | done (outcome : Outcome)
  deriving DecidableEq

/-- A produce task with its queue. `emitted` are the events of the graph stream
so far, and `marked` says that the terminating None has been put. -/
structure ProduceTask (ε : Type) where
  status : Status
  cancelling : Bool
  queue : List (Option ε)
  emitted : List ε
  marked : Bool

/-- How the stream of a call ended for its consumer. -/
inductive End where
  | normal
  | cancelledEvent
  | raised
  | closed
  deriving DecidableEq

/-- Where a call stands: not entered, awaiting an older task in
`_cancel_active`, relaying events, awaiting its own task in the `finally`
block, or over. -/
inductive Phase where
  | idle
  | waiting (task : Nat)
  | relaying
  | closing
  | over (how : End)
  deriving DecidableEq

/-- The calls of a service, their tasks, and `_active`. -/
structure State (ε : Type) where
  phase : Nat → Phase
  task : Nat → Option (ProduceTask ε)
  received : Nat → List ε
  active : String → Option Nat

/-- The steps of calls, of produce tasks, and cancellations from outside. -/
inductive Action (ε : Type) where
  | enter (call : Nat)
  | wake (call : Nat)
  | start (call : Nat)
  | emit (call : Nat) (event : ε)
  | finish (call : Nat) (outcome : Outcome)
  | take (call : Nat)
  | close (call : Nat)
  | release (call : Nat)
  | cancelTask (call : Nat)
  | cancelCaller (call : Nat)

variable {ε : Type}

namespace ProduceTask

/-- `asyncio.create_task(produce())` with a new queue. -/
def fresh : ProduceTask ε := ⟨.created, false, [], [], false⟩

/-- `task.done()`. -/
def isDone (t : ProduceTask ε) : Bool :=
  match t.status with
  | .done _ => true
  | _ => false

/-- `_cancel_task` up to its await: a task that is done is left alone. -/
def cancel (t : ProduceTask ε) : ProduceTask ε :=
  if t.isDone then t else { t with cancelling := true }

/-- The first step: the body is entered unless the task has been cancelled. -/
def start (t : ProduceTask ε) : Option (ProduceTask ε) :=
  match t.status with
  | .created =>
      some (if t.cancelling then { t with status := .done .cancelled }
        else { t with status := .running })
  | _ => none

/-- `queue.put_nowait(event)`. -/
def emit (t : ProduceTask ε) (event : ε) : Option (ProduceTask ε) :=
  match t.status with
  | .running =>
      some { t with queue := t.queue ++ [some event], emitted := t.emitted ++ [event] }
  | _ => none

/-- The end of the body, with the None of its `finally` block. -/
def finish (t : ProduceTask ε) (outcome : Outcome) : Option (ProduceTask ε) :=
  match t.status with
  | .running =>
      some { t with status := .done outcome, queue := t.queue ++ [none], marked := true }
  | _ => none

/-- What the consumer does with the end of a task. -/
def ending (t : ProduceTask ε) : Option End :=
  match t.status with
  | .done .cancelled => some .cancelledEvent
  | .done .failed => some .raised
  | .done .finished => some .normal
  | _ => none

end ProduceTask

namespace State

/-- The task of a call exists and is not done. -/
def Unfinished (s : State ε) (call : Nat) : Prop :=
  ∃ t, s.task call = some t ∧ t.isDone = false

/-- `task.done()` for the task of a call. -/
def taskDone (s : State ε) (call : Nat) : Bool := (s.task call).any ProduceTask.isDone

def setPhase (s : State ε) (call : Nat) (phase : Phase) : State ε :=
  { s with phase := Function.update s.phase call phase }

def setTask (s : State ε) (call : Nat) (t : ProduceTask ε) : State ε :=
  { s with task := Function.update s.task call (some t) }

/-- Cancel the task of a call, if it has one. -/
def cancel (s : State ε) (call : Nat) : State ε :=
  match s.task call with
  | some t => s.setTask call t.cancel
  | none => s

end State

section Updates

variable (s : State ε) (call other : Nat) (phase : Phase) (t : ProduceTask ε)

namespace State

@[simp] theorem phase_setPhase :
    (s.setPhase call phase).phase = Function.update s.phase call phase := rfl

@[simp] theorem task_setPhase : (s.setPhase call phase).task = s.task := rfl

@[simp] theorem received_setPhase : (s.setPhase call phase).received = s.received := rfl

@[simp] theorem active_setPhase : (s.setPhase call phase).active = s.active := rfl

@[simp] theorem phase_setTask : (s.setTask call t).phase = s.phase := rfl

@[simp] theorem task_setTask :
    (s.setTask call t).task = Function.update s.task call (some t) := rfl

@[simp] theorem received_setTask : (s.setTask call t).received = s.received := rfl

@[simp] theorem active_setTask : (s.setTask call t).active = s.active := rfl

theorem cancel_eq : s.cancel call = { s with
    task := Function.update s.task call ((s.task call).map ProduceTask.cancel) } := by
  unfold State.cancel
  cases h : s.task call with
  | none =>
      have hsame : Function.update s.task call none = s.task := by
        rw [← h, Function.update_eq_self]
      simp [hsame]
  | some t => rfl

@[simp] theorem phase_cancel : (s.cancel call).phase = s.phase := by rw [cancel_eq]

@[simp] theorem received_cancel : (s.cancel call).received = s.received := by rw [cancel_eq]

@[simp] theorem active_cancel : (s.cancel call).active = s.active := by rw [cancel_eq]

@[simp] theorem task_cancel : (s.cancel call).task =
    Function.update s.task call ((s.task call).map ProduceTask.cancel) := by rw [cancel_eq]

end State

@[simp] theorem isDone_cancel : t.cancel.isDone = t.isDone := by
  unfold ProduceTask.cancel
  split <;> rfl

@[simp] theorem isDone_fresh : (ProduceTask.fresh : ProduceTask ε).isDone = false := rfl

theorem isDone_iff : t.isDone = true ↔ ∃ outcome, t.status = .done outcome := by
  unfold ProduceTask.isDone
  cases t.status <;> simp

theorem isDone_of_ending {t : ProduceTask ε} {how : End} (h : t.ending = some how) :
    t.isDone = true := by
  unfold ProduceTask.ending at h
  unfold ProduceTask.isDone
  cases hstatus : t.status <;> simp_all

/-- A task is unfinished as long as it is there and not done. -/
theorem unfinished_iff : s.Unfinished call ↔ (s.task call).any (fun t => !t.isDone) = true := by
  cases h : s.task call <;> simp [State.Unfinished, h]

theorem not_unfinished_of_taskDone {s : State ε} {call : Nat} (h : s.taskDone call = true) :
    ¬ s.Unfinished call := by
  rintro ⟨t, ht, hopen⟩
  simp [State.taskDone, ht, hopen] at h

@[simp] theorem unfinished_setPhase :
    (s.setPhase call phase).Unfinished other ↔ s.Unfinished other := Iff.rfl

@[simp] theorem unfinished_cancel : (s.cancel call).Unfinished other ↔ s.Unfinished other := by
  rw [unfinished_iff, unfinished_iff, State.task_cancel]
  by_cases heq : other = call
  · subst other
    cases s.task call <;> simp
  · rw [Function.update_of_ne heq]

/-- Replacing a task by one that is done, or as little done, finishes nothing else. -/
theorem unfinished_setTask {s : State ε} {call other : Nat} {t t' : ProduceTask ε}
    (ht : s.task call = some t) (hdone : t.isDone = true → t'.isDone = true)
    (h : (s.setTask call t').Unfinished other) : s.Unfinished other := by
  obtain ⟨u, hu, hopen⟩ := h
  rw [State.task_setTask] at hu
  by_cases heq : other = call
  · subst other
    obtain rfl : t' = u := by simpa using hu
    exact ⟨t, ht, by cases h : t.isDone <;> simp_all⟩
  · exact ⟨u, by rwa [Function.update_of_ne heq] at hu, hopen⟩

end Updates

section Steps

variable (session : Nat → String)

/-- Create the produce task of a call and store it in `_active`. -/
def spawn (s : State ε) (call : Nat) : State ε :=
  { (s.setTask call ProduceTask.fresh).setPhase call .relaying with
    active := Function.update s.active (session call) (some call) }

/-- `if _active.get(session_id) is task: del _active[session_id]`. -/
def forget (s : State ε) (call : Nat) : State ε :=
  if s.active (session call) = some call then
    { s with active := Function.update s.active (session call) none }
  else s

@[simp] theorem phase_forget (s : State ε) (call : Nat) :
    (forget session s call).phase = s.phase := by
  unfold forget
  split <;> rfl

@[simp] theorem task_forget (s : State ε) (call : Nat) :
    (forget session s call).task = s.task := by
  unfold forget
  split <;> rfl

@[simp] theorem received_forget (s : State ε) (call : Nat) :
    (forget session s call).received = s.received := by
  unfold forget
  split <;> rfl

def enterStep (s : State ε) (call : Nat) : Option (State ε) :=
  if s.phase call = .idle then
    match s.active (session call) with
    | none => some (spawn session s call)
    | some old =>
        if s.taskDone old then some (spawn session s call)
        else some ((s.cancel old).setPhase call (.waiting old))
  else none

def wakeStep (s : State ε) (call : Nat) : Option (State ε) :=
  match s.phase call with
  | .waiting old => if s.taskDone old then some (spawn session s call) else none
  | _ => none

/-- A step of the produce task of a call. -/
def taskStep (s : State ε) (call : Nat)
    (act : ProduceTask ε → Option (ProduceTask ε)) : Option (State ε) :=
  (s.task call).bind fun t => (act t).map (s.setTask call)

def takeStep (s : State ε) (call : Nat) : Option (State ε) :=
  match s.phase call, s.task call with
  | .relaying, some t =>
      match t.queue with
      | [] => none
      | some event :: rest =>
          some { s.setTask call { t with queue := rest } with
            received := Function.update s.received call (s.received call ++ [event]) }
      | none :: rest =>
          t.ending.map fun how =>
            (forget session (s.setTask call { t with queue := rest }) call).setPhase call
              (.over how)
  | _, _ => none

/-- The consumer stops reading: the `finally` block is entered from the loop. -/
def closeStep (s : State ε) (call : Nat) : Option (State ε) :=
  if s.phase call = .relaying then
    if s.taskDone call then some ((forget session s call).setPhase call (.over .closed))
    else some ((s.cancel call).setPhase call .closing)
  else none

def releaseStep (s : State ε) (call : Nat) : Option (State ε) :=
  if s.phase call = .closing ∧ s.taskDone call then
    some ((forget session s call).setPhase call (.over .closed))
  else none

/-- Cancelling the task that runs a call: it is over if it has not begun, and
the cancellation goes to the task it awaits otherwise. -/
def cancelCallerStep (s : State ε) (call : Nat) : Option (State ε) :=
  match s.phase call with
  | .idle => some (s.setPhase call (.over .closed))
  | .waiting old => some (s.cancel old)
  | .closing => some (s.cancel call)
  | _ => none

def step (s : State ε) : Action ε → Option (State ε)
  | .enter call => enterStep session s call
  | .wake call => wakeStep session s call
  | .start call => taskStep s call ProduceTask.start
  | .emit call event => taskStep s call (·.emit event)
  | .finish call outcome => taskStep s call (·.finish outcome)
  | .take call => takeStep session s call
  | .close call => closeStep session s call
  | .release call => releaseStep session s call
  | .cancelTask call => if (s.task call).isSome then some (s.cancel call) else none
  | .cancelCaller call => cancelCallerStep s call

/-- No call has been entered yet. -/
def initial : State ε := ⟨fun _ => .idle, fun _ => none, fun _ => [], fun _ => none⟩

/-- The streams of a service whose calls are on the given sessions. -/
def system : Transition.System (State ε) (Action ε) where
  init s := s = initial
  step := step session

end Steps

end GraphAgent.GuardStream
