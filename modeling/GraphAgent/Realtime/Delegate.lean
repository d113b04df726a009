import GraphAgent.Core.Messages
import GraphAgent.Library.Transition
import GraphAgent.Tools.Policy
import GraphAgent.Transports.Consumers
import Mathlib.Logic.Function.Basic

/-!
# The delegation supervisor of a realtime connection

`DelegationSupervisor` with its `SessionContext` as a machine: one call is handled
at a time, each delegated call has a task of its own, and recorded turns, newer
calls and the tasks come in any order. A step is what happens between two
suspension points; a task goes by the id of its call. An output counts as sent
when it is handed to the backend.
-/

namespace GraphAgent.Realtime

/-- `bool(value)`, where an absent key is None. -/
def truthy : Option Value → Bool
  | none => false
  | some .null => false
  | some (.bool b) => b
  | some (.int n) => n ≠ 0
  | some (.float repr) => repr ≠ "0.0" && repr ≠ "-0.0"
  | some (.str s) => s ≠ ""
  | some (.arr items) => !items.isEmpty
  | some (.obj fields) => !fields.isEmpty

/-- `a or b`. -/
def orElse (a b : Option Value) : Option Value := if truthy a then a else b

/-- `json.loads`, Python's text functions and `normalize_for_speech`. -/
structure Environment where
  py : Python
  loads : String → Option Value
  normalize : String → String

/-- `_parse_prompt`. -/
def parsePrompt (env : Environment) (arguments : String) : String :=
  match env.loads (if arguments = "" then "\x7b\x7d" else arguments) with
  | some (.obj args) =>
      let prompt := orElse (Args.get? args "prompt") (Args.get? args "task")
      Text.strip (env.py.str (if truthy prompt then prompt.getD .null else .str ""))
  | _ => ""

/-- `DELEGATE_REQUEST_SUFFIX`. -/
def delegateRequestSuffix : String :=
  "\n\n[Reply in plain spoken language for a voice assistant: short conversational " ++
    "prose. No markdown, no lists, no code blocks, no emojis, no asterisks.]"

/-- `_EMPTY_PROMPT_ERROR`. -/
def emptyPromptError : String :=
  "delegate_to_brain requires a non-empty 'prompt' argument describing the task for the main agent."

/-- `_MAX_CONTEXT_MESSAGES`. -/
def maxContextMessages : Nat := 40

section Transcript

/-- `_text_from_item`. -/
def textFromItem (item : Args) : String :=
  match item.get? "content" with
  | some (.arr parts) =>
      " ".intercalate (parts.filterMap fun part =>
        match part with
        | .obj part =>
            match orElse (orElse (Args.get? part "text") (Args.get? part "input_text"))
              (Args.get? part "transcript") with
            | some (.str text) => if Text.strip text = "" then none else some (Text.strip text)
            | _ => none
        | _ => none)
  | _ => ""

/-- What `_append` adds to the buffer. -/
def appended (message : String → Message) : Option Value → Option Message
  | some (.str text) => if Text.strip text = "" then none else some (message (Text.strip text))
  | _ => none

def humanTurn (text : String) : Message := .human (.str text)

def aiTurn (text : String) : Message := .ai text []

/-- The message that `record_event` adds for an event of the backend. -/
def recordedMessage (event : Args) : Option Message :=
  match event.get? "type" with
  | some (.str etype) =>
      if etype = "conversation.item.input_audio_transcription.completed" then
        appended humanTurn (event.get? "transcript")
      else if etype ∈ ["response.output_audio_transcript.done", "response.audio_transcript.done",
          "response.output_text.done"] then
        appended aiTurn (orElse (event.get? "transcript") (event.get? "text"))
      else if etype = "conversation.item.created" then
        match event.get? "item" with
        | some (.obj item) =>
            match Args.get? item "role" with
            | some (.str role) =>
                if role = "user" then appended humanTurn (some (.str (textFromItem item)))
                else if role = "assistant" then appended aiTurn (some (.str (textFromItem item)))
                else none
            | _ => none
        | _ => none
      else none
  | _ => none

end Transcript

/-- A recorded turn with its number in recording order. -/
structure RecordedTurn where
  index : Nat
  message : Message

/-- How a delegation task ended: with its output sent, cancelled, on a failed
brain run, or with an output that is dropped as stale. -/
inductive DelegationEnd where
  | finished
  | cancelled
  | failed
  | stale
  deriving DecidableEq

/-- Where a task stands: before its first step, in a run that waits for another
transport's run to be cancelled, in its own run, or after its output was sent. -/
inductive DelegationPhase where
  | created
  | waiting
  | running
  | replying
  | done (how : DelegationEnd)
  deriving DecidableEq

/-- The task of `_finish` for a call. `cancelling` says that a `CancelledError` is
on its way to it, `cancelRequested` that it has ever been cancelled. -/
structure Delegation where
  revision : Nat
  prompt : String
  context : List RecordedTurn
  phase : DelegationPhase
  cancelling : Bool
  cancelRequested : Bool

/-- Where `handle_call` stands: awaiting the task it has cancelled, or the filler. -/
inductive Handling where
  | idle
  | awaiting (old callId prompt : String)
  | greeting (callId prompt : String) (revision : Nat) (context : List RecordedTurn)

/-- A function_call_output with the calls that had been handled when it was sent,
the newest first, and whether each of them had a prompt. -/
structure SentOutput where
  callId : String
  output : String
  handled : List (String × Bool)

/-- A call of `service.run`. -/
structure BrainRun where
  context : List RecordedTurn
  request : String

/-- What `service.run` is given. -/
def BrainRun.messages (run : BrainRun) : List Message :=
  run.context.map RecordedTurn.message ++ [.human (.str run.request)]

/-- A supervisor with its context. `calls` are the handled calls as in `SentOutput`,
`recorded` counts the recorded turns, `pushedOut` are those that the cap dropped. -/
structure Supervisor where
  calls : List (String × Bool)
  revision : Nat
  active : Option String
  buffer : List RecordedTurn
  handling : Handling
  tasks : String → Option Delegation
  recorded : Nat
  pushedOut : List Nat
  runs : List BrainRun
  outputs : List SentOutput

/-- What happens to a supervisor. -/
inductive Step where
  | call (callId arguments : String)
  | wake
  | dispatch
  | start (callId : String) (blocked : Bool)
  | release (callId : String)
  | finish (callId : String) (events : List Event)
  | fail (callId : String)
  | abort (callId : String)
  | replied (callId : String)
  | record (event : Args)
  | close

namespace Delegation

/-- `task.done()`. -/
def isDone (t : Delegation) : Bool :=
  match t.phase with
  | .done _ => true
  | _ => false

/-- `task.cancel()`. -/
def cancel (t : Delegation) : Delegation :=
  if t.isDone then t else { t with cancelling := true, cancelRequested := true }

end Delegation

namespace Supervisor

variable (s : Supervisor)

def setTask (callId : String) (t : Delegation) : Supervisor :=
  { s with tasks := Function.update s.tasks callId (some t) }

/-- A task exists and is done. -/
def taskDone (callId : String) : Bool := (s.tasks callId).any Delegation.isDone

/-- `_cancel_active` up to its await. -/
def cancelActive : Supervisor :=
  match s.active with
  | none => s
  | some old =>
      { s with active := none, tasks := Function.update s.tasks old ((s.tasks old).map .cancel) }

/-- `_send_output`. -/
def sendOutput (callId output : String) : Supervisor :=
  { s with outputs := s.outputs ++ [⟨callId, output, s.calls⟩] }

/-- `handle_call` from the next revision to the filler. -/
def greet (callId prompt : String) : Supervisor :=
  { s with
    revision := s.revision + 1
    buffer := []
    handling := .greeting callId prompt (s.revision + 1) s.buffer }

/-- A call enters the set of handled calls. -/
def accept (callId : String) (hasPrompt : Bool) : Supervisor :=
  { s with calls := (callId, hasPrompt) :: s.calls }

/-- `handle_call` for a new call with a prompt, up to its first suspension point. -/
def supersede (callId prompt : String) : Supervisor :=
  match s.active with
  | none => s.greet callId prompt
  | some old =>
      if s.taskDone old then s.cancelActive.greet callId prompt
      else { s.cancelActive with handling := .awaiting old callId prompt }

/-- `SessionContext._append`. -/
def append (message : Message) : Supervisor :=
  let buffer := s.buffer ++ [⟨s.recorded, message⟩]
  let excess := buffer.length - maxContextMessages
  { s with
    buffer := buffer.drop excess
    recorded := s.recorded + 1
    pushedOut := s.pushedOut ++ (buffer.take excess).map RecordedTurn.index }

end Supervisor

section Steps

variable (env : Environment) (s : Supervisor)

def callStep (callId arguments : String) : Option Supervisor :=
  match s.handling with
  | .idle =>
      if callId ∈ s.calls.map Prod.fst then some s
      else if parsePrompt env arguments = "" then
        some ((s.accept callId false).sendOutput callId emptyPromptError)
      else some ((s.accept callId true).supersede callId (parsePrompt env arguments))
  | _ => none

/-- `handle_call` when the task it awaits is done. -/
def wakeStep : Option Supervisor :=
  match s.handling with
  | .awaiting old callId prompt => if s.taskDone old then some (s.greet callId prompt) else none
  | _ => none

/-- `handle_call` after the filler: the task is created. -/
def dispatchStep : Option Supervisor :=
  match s.handling with
  | .greeting callId prompt revision context =>
      some { s.setTask callId ⟨revision, prompt, context, .created, false, false⟩ with
        active := some callId
        handling := .idle }
  | _ => none

/-- The first step of a task calls `service.run`, unless it was cancelled before. -/
def startStep (callId : String) (blocked : Bool) : Option Supervisor :=
  (s.tasks callId).bind fun t =>
    if t.phase = .created then
      if t.cancelling then some (s.setTask callId { t with phase := .done .cancelled })
      else
        some { s.setTask callId { t with phase := if blocked then .waiting else .running } with
          runs := s.runs ++ [⟨t.context, t.prompt ++ delegateRequestSuffix⟩] }
    else none

/-- The other transport's run has ended. A cancellation that came meanwhile was
suppressed together with the end of that run. -/
def releaseStep (callId : String) : Option Supervisor :=
  (s.tasks callId).bind fun t =>
    if t.phase = .waiting then
      some (s.setTask callId { t with phase := .running, cancelling := false })
    else none

/-- The brain run returns: its output is sent if the revision is current. -/
def finishStep (callId : String) (events : List Event) : Option Supervisor :=
  (s.tasks callId).bind fun t =>
    if t.phase = .running ∧ t.cancelling = false then
      if t.revision = s.revision then
        some ((s.setTask callId { t with phase := .replying }).sendOutput callId
          (runBrain env.normalize events))
      else some (s.setTask callId { t with phase := .done .stale })
    else none

/-- The brain run raises: `_finish` logs it and returns. -/
def failStep (callId : String) : Option Supervisor :=
  (s.tasks callId).bind fun t =>
    if t.phase = .running ∧ t.cancelling = false then
      some (s.setTask callId { t with phase := .done .failed })
    else none

/-- A `CancelledError` ends the task. -/
def abortStep (callId : String) : Option Supervisor :=
  (s.tasks callId).bind fun t =>
    if (t.phase = .running ∨ t.phase = .replying) ∧ t.cancelling = true then
      some (s.setTask callId { t with phase := .done .cancelled })
    else none

/-- The backend has taken the `response.create` that follows an output. -/
def repliedStep (callId : String) : Option Supervisor :=
  (s.tasks callId).bind fun t =>
    if t.phase = .replying ∧ t.cancelling = false then
      some (s.setTask callId { t with phase := .done .finished })
    else none

def step : Step → Option Supervisor
  | .call callId arguments => callStep env s callId arguments
  | .wake => wakeStep s
  | .dispatch => dispatchStep s
  | .start callId blocked => startStep s callId blocked
  | .release callId => releaseStep s callId
  | .finish callId events => finishStep env s callId events
  | .fail callId => failStep s callId
  | .abort callId => abortStep s callId
  | .replied callId => repliedStep s callId
  | .record event =>
      match recordedMessage event with
      | some message => some (s.append message)
      | none => some s
  | .close =>
      match s.handling with
      | .idle => some s.cancelActive
      | _ => none

/-- A supervisor that has seen nothing yet. -/
def initial : Supervisor := ⟨[], 0, none, [], .idle, fun _ => none, 0, [], [], []⟩

/-- The supervisor of a connection. -/
def system : Transition.System Supervisor Step where
  init s := s = initial
  step := step env

end Steps

section Inversions

variable {env : Environment} {s s' : Supervisor} {callId : String}

theorem callStep_cases {arguments : String} (h : callStep env s callId arguments = some s') :
    s.handling = .idle ∧ (s' = s ∨ callId ∉ s.calls.map Prod.fst ∧
      (s' = (s.accept callId false).sendOutput callId emptyPromptError ∨
        parsePrompt env arguments ≠ "" ∧
          s' = (s.accept callId true).supersede callId (parsePrompt env arguments))) := by
  unfold callStep at h
  split at h
  case h_2 => exact nomatch h
  case h_1 hidle =>
    refine ⟨hidle, ?_⟩
    split at h
    case isTrue => exact Or.inl (Option.some.inj h).symm
    case isFalse hnew =>
      split at h
      case isTrue => exact Or.inr ⟨hnew, Or.inl (Option.some.inj h).symm⟩
      case isFalse hprompt => exact Or.inr ⟨hnew, Or.inr ⟨hprompt, (Option.some.inj h).symm⟩⟩

theorem wakeStep_cases (h : wakeStep s = some s') :
    ∃ old callId prompt, s.handling = .awaiting old callId prompt ∧ s' = s.greet callId prompt := by
  unfold wakeStep at h
  split at h
  case h_2 => exact nomatch h
  case h_1 old callId prompt hawaiting =>
    simp only [Option.ite_none_right_eq_some, Option.some.injEq] at h
    exact ⟨old, callId, prompt, hawaiting, h.2.symm⟩

theorem dispatchStep_cases (h : dispatchStep s = some s') :
    ∃ callId prompt revision context, s.handling = .greeting callId prompt revision context ∧
      s' = { s.setTask callId ⟨revision, prompt, context, .created, false, false⟩ with
        active := some callId
        handling := .idle } := by
  unfold dispatchStep at h
  split at h
  case h_2 => exact nomatch h
  case h_1 callId prompt revision context hgreeting =>
    exact ⟨callId, prompt, revision, context, hgreeting, (Option.some.inj h).symm⟩

theorem startStep_cases {blocked : Bool} (h : startStep s callId blocked = some s') :
    ∃ t, s.tasks callId = some t ∧ t.phase = .created ∧
      (t.cancelling = true ∧ s' = s.setTask callId { t with phase := .done .cancelled } ∨
        t.cancelling = false ∧
          s' = { s.setTask callId { t with phase := if blocked then .waiting else .running } with
            runs := s.runs ++ [⟨t.context, t.prompt ++ delegateRequestSuffix⟩] }) := by
  obtain ⟨t, ht, h⟩ := Option.bind_eq_some_iff.mp h
  simp only [Option.ite_none_right_eq_some] at h
  refine ⟨t, ht, h.1, ?_⟩
  obtain ⟨-, h⟩ := h
  split at h
  case isTrue hcancelling => exact Or.inl ⟨hcancelling, (Option.some.inj h).symm⟩
  case isFalse hfree => exact Or.inr ⟨Bool.eq_false_iff.mpr hfree, (Option.some.inj h).symm⟩

theorem releaseStep_cases (h : releaseStep s callId = some s') :
    ∃ t, s.tasks callId = some t ∧ t.phase = .waiting ∧
      s' = s.setTask callId { t with phase := .running, cancelling := false } := by
  obtain ⟨t, ht, h⟩ := Option.bind_eq_some_iff.mp h
  simp only [Option.ite_none_right_eq_some, Option.some.injEq] at h
  exact ⟨t, ht, h.1, h.2.symm⟩

theorem finishStep_cases {events : List Event} (h : finishStep env s callId events = some s') :
    ∃ t, s.tasks callId = some t ∧ t.phase = .running ∧ t.cancelling = false ∧
      (t.revision = s.revision ∧
          s' = (s.setTask callId { t with phase := .replying }).sendOutput callId
            (runBrain env.normalize events) ∨
        t.revision ≠ s.revision ∧ s' = s.setTask callId { t with phase := .done .stale }) := by
  obtain ⟨t, ht, h⟩ := Option.bind_eq_some_iff.mp h
  simp only [Option.ite_none_right_eq_some] at h
  refine ⟨t, ht, h.1.1, h.1.2, ?_⟩
  obtain ⟨-, h⟩ := h
  split at h
  case isTrue hcurrent => exact Or.inl ⟨hcurrent, (Option.some.inj h).symm⟩
  case isFalse hstale => exact Or.inr ⟨hstale, (Option.some.inj h).symm⟩

theorem failStep_cases (h : failStep s callId = some s') :
    ∃ t, s.tasks callId = some t ∧ t.phase = .running ∧
      s' = s.setTask callId { t with phase := .done .failed } := by
  obtain ⟨t, ht, h⟩ := Option.bind_eq_some_iff.mp h
  simp only [Option.ite_none_right_eq_some, Option.some.injEq] at h
  exact ⟨t, ht, h.1.1, h.2.symm⟩

theorem abortStep_cases (h : abortStep s callId = some s') :
    ∃ t, s.tasks callId = some t ∧ (t.phase = .running ∨ t.phase = .replying) ∧
      t.cancelling = true ∧ s' = s.setTask callId { t with phase := .done .cancelled } := by
  obtain ⟨t, ht, h⟩ := Option.bind_eq_some_iff.mp h
  simp only [Option.ite_none_right_eq_some, Option.some.injEq] at h
  exact ⟨t, ht, h.1.1, h.1.2, h.2.symm⟩

theorem repliedStep_cases (h : repliedStep s callId = some s') :
    ∃ t, s.tasks callId = some t ∧ t.phase = .replying ∧
      s' = s.setTask callId { t with phase := .done .finished } := by
  obtain ⟨t, ht, h⟩ := Option.bind_eq_some_iff.mp h
  simp only [Option.ite_none_right_eq_some, Option.some.injEq] at h
  exact ⟨t, ht, h.1.1, h.2.symm⟩

theorem step_record {event : Args} (h : step env s (.record event) = some s') :
    s' = s ∨ ∃ message, s' = s.append message := by
  simp only [step] at h
  split at h
  case h_1 message _ => exact Or.inr ⟨message, (Option.some.inj h).symm⟩
  case h_2 => exact Or.inl (Option.some.inj h).symm

theorem step_close (h : step env s .close = some s') : s.handling = .idle ∧ s' = s.cancelActive := by
  simp only [step] at h
  split at h
  case h_1 hidle => exact ⟨hidle, (Option.some.inj h).symm⟩
  case h_2 => exact nomatch h

end Inversions

end GraphAgent.Realtime
