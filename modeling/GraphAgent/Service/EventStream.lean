import GraphAgent.Core.Termination

/-!
# The events of a run

What `_stream_graph` yields of a run: the events that its nodes stream while they
work, and at the end the request for an approval or the final text, with the metrics in
front of it if the configuration asks for them. A run that is cancelled ends with a
`CancelledEvent`, wherever it was, and a compaction that fails raises out of the stream.
-/

namespace GraphAgent

/-- `_approval_event`. An interrupt that has an empty approval id goes by its own id. -/
def ApprovalPayload.event (payload : ApprovalPayload) (interruptId : String) : Event :=
  .approvalRequest (if payload.approvalId = "" then interruptId else payload.approvalId)
    payload.toolCallId payload.name payload.args

/-- `_last_assistant_text`. -/
def lastAssistantText (messages : List Message) : Option String :=
  messages.reverse.findSome? fun message =>
    match message.body with
    | .ai content _ => some content
    | _ => none

/-- `n or None` -/
def orNone (n : Nat) : Option Nat := if n = 0 then none else some n

/-- The durations of a run in milliseconds, as its clock has measured them. -/
structure Durations where
  llmMs : Nat
  toolMs : Nat
  totalMs : Nat

/-- `_metrics_event`. -/
def metricsEvent (metrics : RunMetrics) (state : AgentState) (durations : Durations) : Event :=
  .metrics (if state.iterations = 0 then metrics.llmCalls else state.iterations) metrics.llmCalls
    metrics.toolCalls durations.llmMs durations.toolMs durations.totalMs
    (orNone metrics.promptTokens) (orNone metrics.completionTokens)

variable (g : Graph)

/-- What is yielded in front of the `DoneEvent`. -/
def Run.report (r : Run) (durations : Durations) : List Event :=
  if g.config.latencyMetrics then [metricsEvent r.metrics r.state durations] else []

/-- The last events of the calls whose tools were started. -/
def settledEvents : List ToolCall → List Admission → (Nat → ToolOutcome) → List Event
  | call :: calls, .started _ :: admissions, outcomes =>
      (settle g call (outcomes 0)).2 ++ settledEvents calls admissions fun i => outcomes (i + 1)
  | _ :: calls, _ :: admissions, outcomes =>
      settledEvents calls admissions fun i => outcomes (i + 1)
  | _, _, _ => []

/-- The events of the tools node. -/
def Run.toolEvents (r : Run) (outcomes : Nat → ToolOutcome) : List Event :=
  (r.pass g).2.events ++ settledEvents g (lastToolCalls r.state.messages) (r.pass g).1 outcomes

/-- What a node streams until it returns. The tools work at the same time, so that their
events come in any order; an interrupt leaves those behind that have not come so far. -/
inductive Run.Streams (r : Run) : Act → List Event → Prop
  | compact (summary : Except String String) : Streams r (.compact summary) []
  | reply (chunks : List StreamChunk) (error : Option String) :
      Streams r (.reply chunks error) (agentNode r.state r.metrics chunks error).events
  | interrupted {outcomes : Nat → ToolOutcome} {payload : ApprovalPayload} {events : List Event}
      (interrupt : firstInterrupt (r.pass g).1 = some payload)
      (order : events.Subperm (r.toolEvents g outcomes)) : Streams r (.tools outcomes) events
  | tools {outcomes : Nat → ToolOutcome} {events : List Event}
      (uninterrupted : firstInterrupt (r.pass g).1 = none)
      (order : events.Perm (r.toolEvents g outcomes)) : Streams r (.tools outcomes) events
  | limit : Streams r .limit (limitNode g r.state r.metrics).events

/-- `_guard_stream` from a position of the graph on: the events, and the exception where it
raises behind them. -/
inductive Run.Yields (sessionId : String) : Run → List Event → Option String → Prop
  | node {r next : Run} {act : Act} {events later : List Event} {raised : Option String}
      (taken : r.step g act = some next) (streams : r.Streams g act events)
      (rest : Yields sessionId next later raised) : Yields sessionId r (events ++ later) raised
  | waiting {r : Run} {payload : ApprovalPayload} (interrupt : r.waiting = some payload)
      (interruptId : String) : Yields sessionId r [payload.event interruptId] none
  | done {r : Run} (ended : r.node = .done) (durations : Durations) :
      Yields sessionId r (r.report g durations ++
        [.done sessionId (lastAssistantText r.state.messages)]) none
  | cancelled {r next : Run} {act : Act} {events front : List Event}
      (taken : r.step g act = some next) (streams : r.Streams g act events)
      (before : front <+: events) : Yields sessionId r (front ++ [.cancelled sessionId]) none
  | raised {r next : Run} {exc : String} (taken : r.step g (.compact (.error exc)) = some next)
      (failed : next.node = .failed) : Yields sessionId r [] (some exc)

/-- The event asks for an approval. -/
def Event.asks : Event → Bool
  | .approvalRequest .. => true
  | _ => false

/-- None of the events asks for an approval. -/
def AsksNothing (events : List Event) : Prop := ∀ event ∈ events, event.asks = false

section Unattended

variable {g} {events later : List Event} {r next : Run} {act : Act}

theorem asksNothing_nil : AsksNothing [] := nofun

theorem asksNothing_report (r : Run) (durations : Durations) :
    AsksNothing (r.report g durations) := by
  unfold Run.report
  split_ifs
  · exact List.forall_mem_singleton.mpr rfl
  · exact asksNothing_nil

theorem asksNothing_append :
    AsksNothing (events ++ later) ↔ AsksNothing events ∧ AsksNothing later :=
  List.forall_mem_append

theorem AsksNothing.concat {event : Event} (h : AsksNothing events) (hevent : event.asks = false) :
    AsksNothing (events ++ [event]) :=
  asksNothing_append.mpr ⟨h, List.forall_mem_singleton.mpr hevent⟩

/-- A reply streams tokens, and an error where it breaks off. -/
theorem asksNothing_agentNode (state : AgentState) (metrics : RunMetrics)
    (chunks : List StreamChunk) (error : Option String) :
    AsksNothing (agentNode state metrics chunks error).events := by
  have hchunks : ∀ reply : Reply, AsksNothing reply.events →
      AsksNothing (chunks.foldl Reply.read reply).events := by
    induction chunks with
    | nil => exact fun _ h => h
    | cons chunk rest ih =>
        intro reply h
        apply ih
        unfold Reply.read
        dsimp only
        split
        · exact h
        · exact h.concat rfl
  have hreply := hchunks ⟨[], [], metrics, []⟩ asksNothing_nil
  cases error with
  | none => exact hreply
  | some exc => exact hreply.concat rfl

theorem asksNothing_admitGuarded {callId name : String} {args : Args} {pass : Pass}
    (h : AsksNothing pass.events) :
    AsksNothing (admitGuarded g callId name args pass).2.events := by
  have hcounted : (pass.counted g (name, args.signature)).events = pass.events := by
    unfold Pass.counted
    split <;> rfl
  unfold admitGuarded
  dsimp only
  split <;> exact AsksNothing.concat (hcounted ▸ h) rfl

theorem asksNothing_admitCall {manualMode : Bool} {call : ToolCall} {pass : Pass}
    (h : AsksNothing pass.events) : AsksNothing (admitCall g manualMode call pass).2.events := by
  unfold admitCall
  dsimp only
  split
  case h_1 => exact (h.concat rfl).concat rfl
  case h_2 spec _ =>
    have hpolicies : AsksNothing (afterPolicies g call pass).events := h
    split
    case h_1 => exact (hpolicies.concat rfl).concat rfl
    case h_2 =>
      split
      case isTrue =>
        split
        case h_1 => exact hpolicies
        case h_2 => exact asksNothing_admitGuarded hpolicies
        case h_3 => exact hpolicies.concat rfl
      case isFalse => exact asksNothing_admitGuarded hpolicies

theorem asksNothing_admitAll {manualMode : Bool} {calls : List ToolCall} {pass : Pass}
    (h : AsksNothing pass.events) : AsksNothing (admitAll g manualMode calls pass).2.events := by
  induction calls generalizing pass with
  | nil => exact h
  | cons call rest ih => exact ih (asksNothing_admitCall h)

theorem asksNothing_settledEvents (calls : List ToolCall) (admissions : List Admission)
    (outcomes : Nat → ToolOutcome) : AsksNothing (settledEvents g calls admissions outcomes) := by
  have hsettle : ∀ call outcome, AsksNothing (settle g call outcome).2 := by
    intro call outcome
    cases outcome <;> exact List.forall_mem_singleton.mpr rfl
  induction calls generalizing admissions outcomes with
  | nil => exact asksNothing_nil
  | cons call rest ih =>
      cases admissions with
      | nil => exact asksNothing_nil
      | cons admission admissions =>
          cases admission with
          | answered content => exact ih _ _
          | interrupted payload => exact ih _ _
          | started args => exact asksNothing_append.mpr ⟨hsettle _ _, ih _ _⟩

/-- The nodes themselves ask for no approval: `_stream_graph` does, at the end of a run. -/
theorem Run.Streams.asksNothing (h : r.Streams g act events) : AsksNothing events := by
  have htools : ∀ outcomes, AsksNothing (r.toolEvents g outcomes) := fun outcomes =>
    asksNothing_append.mpr
      ⟨asksNothing_admitAll asksNothing_nil, asksNothing_settledEvents _ _ _⟩
  cases h with
  | compact => exact asksNothing_nil
  | reply chunks error => exact asksNothing_agentNode _ _ _ _
  | interrupted _ order => exact fun event hevent => htools _ event (order.subset hevent)
  | tools _ order => exact fun event hevent => htools _ event (order.subset hevent)
  | limit => exact List.forall_mem_singleton.mpr rfl

/-- The thread is in automatic mode, and no call of it waits for an approval. -/
structure Run.Unattended (r : Run) : Prop where
  auto : r.state.approvalMode = some .auto
  running : r.waiting = none

theorem Run.Unattended.step (h : r.Unattended) (streams : r.Streams g act events)
    (taken : r.step g act = some next) : next.Unattended := by
  cases streams with
  | compact summary =>
      obtain ⟨-, rfl⟩ := Run.step_compact taken
      unfold compactStep
      split
      · exact ⟨h.auto, h.running⟩
      · split <;> exact ⟨h.auto, h.running⟩
  | reply chunks error =>
      obtain ⟨-, rfl⟩ := Run.step_reply taken
      exact ⟨h.auto, h.running⟩
  | interrupted interrupt =>
      have hauto : resolveApprovalMode r.state = .auto := congrArg (Option.getD · _) h.auto
      rw [Run.pass, hauto, decide_eq_false (by decide), firstInterrupt_auto] at interrupt
      cases interrupt
  | tools uninterrupted =>
      obtain ⟨-, rfl⟩ := Run.step_tools taken
      unfold toolsStep
      rw [uninterrupted]
      exact ⟨h.auto, h.running⟩
  | limit =>
      obtain ⟨-, rfl⟩ := Run.step_limit taken
      exact ⟨h.auto, h.running⟩

/-- A run in automatic mode asks for no approval. -/
theorem Run.Yields.asksNothing {sessionId : String} {raised : Option String}
    (h : r.Yields g sessionId events raised) (hunattended : r.Unattended) : AsksNothing events := by
  induction h with
  | node taken streams _ ih =>
      exact asksNothing_append.mpr ⟨streams.asksNothing, ih (hunattended.step streams taken)⟩
  | waiting interrupt => exact nomatch hunattended.running.symm.trans interrupt
  | @done r ended durations => exact (asksNothing_report r durations).concat rfl
  | raised => exact asksNothing_nil
  | cancelled _ streams before =>
      have hfront := fun event hevent => streams.asksNothing event (before.subset hevent)
      exact AsksNothing.concat hfront rfl

end Unattended

end GraphAgent
