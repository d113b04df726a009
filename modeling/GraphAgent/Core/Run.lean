import GraphAgent.Core.Compaction
import GraphAgent.Core.ToolCalls
import GraphAgent.Library.Transition

/-!
# The graph of an agent

The nodes of `build_agent_graph` and the machine that LangGraph makes of them.
What the model, the tools and the user do are the actions of the machine. A node
writes to the thread when it returns, and an interrupted tools node is run again
from its start with the answers given so far.
-/

namespace GraphAgent

/-- One chunk of a model's reply. -/
structure StreamChunk where
  deltaText : String := ""
  toolCalls : List ToolCall := []
  promptTokens : Option Nat := none
  completionTokens : Option Nat := none

/-- The variables of the loop in `agent_node`. -/
structure Reply where
  textParts : List String
  toolCalls : List ToolCall
  metrics : RunMetrics
  events : List Event

/-- One turn of the loop over the chunks of a reply. -/
def Reply.read (reply : Reply) (chunk : StreamChunk) : Reply where
  textParts := if chunk.deltaText = "" then reply.textParts else reply.textParts ++ [chunk.deltaText]
  toolCalls := if chunk.toolCalls.isEmpty then reply.toolCalls else chunk.toolCalls
  metrics := { reply.metrics with
    promptTokens := reply.metrics.promptTokens + chunk.promptTokens.getD 0
    completionTokens := reply.metrics.completionTokens + chunk.completionTokens.getD 0 }
  events := if chunk.deltaText = "" then reply.events else reply.events ++ [.token chunk.deltaText]

/-- What `agent_node` sends to the model. -/
def agentRequest (state : AgentState) : List Message :=
  let messages := repairToolCallPairs state.messages
  match state.systemPrompt with
  | some prompt => if prompt = "" then messages else .system prompt :: messages
  | none => messages

/-- What a node returns, with the metrics and events that it leaves. -/
structure NodeResult where
  write : NodeWrite
  metrics : RunMetrics
  events : List Event

/-- `agent_node` for a reply that is streamed to its end or breaks off with an error. -/
def agentNode (state : AgentState) (metrics : RunMetrics) (chunks : List StreamChunk)
    (error : Option String) : NodeResult :=
  let reply := chunks.foldl Reply.read ⟨[], [], metrics, []⟩
  let metrics := { reply.metrics with llmCalls := reply.metrics.llmCalls + 1 }
  match error with
  | some exc =>
      { write :=
          { messages := some (.append [.ai ("LLM error: " ++ exc) []])
            iterations := some (state.iterations + 1) }
        metrics := metrics
        events := reply.events ++ [.error exc (some "llm_error")] }
  | none =>
      { write :=
          { messages := some (.append [.ai (String.join reply.textParts) reply.toolCalls])
            iterations := some (state.iterations + 1) }
        metrics := metrics
        events := reply.events }

/-- The tool calls of the last message, if it is an assistant message. -/
def lastToolCalls (messages : List Message) : List ToolCall :=
  match messages.getLast? with
  | some ⟨_, .ai _ toolCalls⟩ => toolCalls
  | _ => []

/-- The text of `limit_node`. -/
def limitMessage (maxIterations : Int) : String :=
  "I stopped after reaching the maximum of " ++ toString maxIterations ++ " iterations " ++
    "without producing a final answer: the last requested tool calls were not executed. " ++
    "Refine the request, or raise agent.max_iterations."

/-- `limit_node`. -/
def limitNode (g : Graph) (state : AgentState) (metrics : RunMetrics) : NodeResult where
  write :=
    { messages := some (.append ((lastToolCalls state.messages).map (fun call =>
        interrupted call.callId) ++ [.ai (limitMessage g.config.maxIterations) []])) }
  metrics := metrics
  events := [.token (limitMessage g.config.maxIterations)]

/-- The node that a run is about to execute, or how it came to its end. -/
inductive Node where
  | compact
  | agent
  | tools
  | limit
  | done
  | failed
  deriving DecidableEq

/-- `should_continue`. -/
def shouldContinue (g : Graph) (state : AgentState) : Node :=
  if (lastToolCalls state.messages).isEmpty then .done
  else if g.config.maxIterations ≤ state.iterations then .limit
  else .tools

/-- The messages of a tools node in call order. -/
def toolMessages (g : Graph) : List ToolCall → List Admission → (Nat → ToolOutcome) → List Message
  | call :: calls, .answered content :: admissions, outcomes =>
      .tool content call.callId :: toolMessages g calls admissions fun i => outcomes (i + 1)
  | call :: calls, .started _ :: admissions, outcomes =>
      (settle g call (outcomes 0)).1 :: toolMessages g calls admissions fun i => outcomes (i + 1)
  | _ :: calls, .interrupted _ :: admissions, outcomes =>
      toolMessages g calls admissions fun i => outcomes (i + 1)
  | _, _, _ => []

/-- The interrupt that a pass over the calls reports. -/
def firstInterrupt (admissions : List Admission) : Option ApprovalPayload :=
  admissions.findSome? fun admission =>
    match admission with
    | .interrupted payload => some payload
    | _ => none

/-- A thread with the position of its graph: the next node, the answers that the
interrupts of the tools node have been given, and the interrupt that waits. -/
structure Run where
  node : Node
  state : AgentState
  metrics : RunMetrics
  answers : List Bool
  waiting : Option ApprovalPayload

/-- What happens to a thread: its nodes return with what the model and the tools
have done, `resume()` hands over an answer, and `run()` starts over. -/
inductive Act where
  | compact (summary : Except String String)
  | reply (chunks : List StreamChunk) (error : Option String)
  | tools (outcomes : Nat → ToolOutcome)
  | limit
  | resume (approvalId : String) (approved : Bool)
  | message (input : RunInput)

/-- The first step of a run on the thread. -/
def Run.start (state : AgentState) : Run := ⟨.compact, state, .fresh, [], none⟩

/-- One pass of the tools node with the answers given so far. -/
def Run.pass (g : Graph) (r : Run) : List Admission × Pass :=
  admitAll g (resolveApprovalMode r.state = .manual) (lastToolCalls r.state.messages)
    ⟨r.metrics, r.answers, []⟩

/-- A node that returns. -/
def Run.returns (r : Run) (result : NodeResult) (next : AgentState → Node) : Run :=
  let state := r.state.writeNode result.write
  { r with node := next state, state := state, metrics := result.metrics }

def compactStep (g : Graph) (r : Run) (summary : Except String String) : Run :=
  match compactSplit g.countTokens g.config.contextTokenLimit g.config.compactionKeepMessages
      r.state.messages with
  | none => { r with node := .agent }
  | some split =>
      match summary with
      | .ok deltaText =>
          r.returns ⟨{ messages := some (split.replacement deltaText) }, r.metrics, []⟩
            fun _ => .agent
      | .error _ => { r with node := .failed }

def toolsStep (g : Graph) (r : Run) (outcomes : Nat → ToolOutcome) : Run :=
  match firstInterrupt (r.pass g).1 with
  | some payload => { r with metrics := (r.pass g).2.metrics, waiting := some payload }
  | none =>
      let messages := toolMessages g (lastToolCalls r.state.messages) (r.pass g).1 outcomes
      { r.returns ⟨{ messages := some (.append messages) }, (r.pass g).2.metrics,
          (r.pass g).2.events⟩ (fun _ => .compact) with answers := [] }

def Run.step (g : Graph) (r : Run) : Act → Option Run
  | .compact summary => if r.node = .compact then some (compactStep g r summary) else none
  | .reply chunks error =>
      if r.node = .agent then
        some (r.returns (agentNode r.state r.metrics chunks error) (shouldContinue g))
      else none
  | .tools outcomes =>
      if r.node = .tools ∧ r.waiting = none then some (toolsStep g r outcomes) else none
  | .limit =>
      if r.node = .limit then some (r.returns (limitNode g r.state r.metrics) fun _ => .done)
      else none
  | .resume _ approved =>
      match r.waiting with
      | some _ =>
          some { r with answers := r.answers ++ [approved], metrics := .fresh, waiting := none }
      | none => some r
  | .message input => some (.start (r.state.writeInput input))

section Steps

variable {g : Graph} {r next : Run}

theorem Run.step_compact {summary : Except String String}
    (h : r.step g (.compact summary) = some next) :
    r.node = .compact ∧ compactStep g r summary = next := by
  simpa only [Run.step, Option.ite_none_right_eq_some, Option.some.injEq] using h

theorem Run.step_reply {chunks : List StreamChunk} {error : Option String}
    (h : r.step g (.reply chunks error) = some next) :
    r.node = .agent ∧
      r.returns (agentNode r.state r.metrics chunks error) (shouldContinue g) = next := by
  simpa only [Run.step, Option.ite_none_right_eq_some, Option.some.injEq] using h

theorem Run.step_tools {outcomes : Nat → ToolOutcome}
    (h : r.step g (.tools outcomes) = some next) :
    (r.node = .tools ∧ r.waiting = none) ∧ toolsStep g r outcomes = next := by
  simpa only [Run.step, Option.ite_none_right_eq_some, Option.some.injEq] using h

theorem Run.step_limit (h : r.step g .limit = some next) :
    r.node = .limit ∧ r.returns (limitNode g r.state r.metrics) (fun _ => .done) = next := by
  simpa only [Run.step, Option.ite_none_right_eq_some, Option.some.injEq] using h

/-- An answer is handed over only where an interrupt waits. -/
theorem Run.step_resume {approvalId : String} {approved : Bool}
    (h : r.step g (.resume approvalId approved) = some next) :
    r.waiting = none ∧ r = next ∨
      ∃ payload, r.waiting = some payload ∧
        { r with answers := r.answers ++ [approved], metrics := .fresh, waiting := none } = next := by
  simp only [Run.step] at h
  split at h
  case h_1 payload hwaiting => exact Or.inr ⟨payload, hwaiting, Option.some.inj h⟩
  case h_2 hwaiting => exact Or.inl ⟨hwaiting, Option.some.inj h⟩

theorem Run.step_resume_waiting {approvalId : String} {approved : Bool} (hwaiting : r.waiting ≠ none)
    (h : r.step g (.resume approvalId approved) = some next) :
    { r with answers := r.answers ++ [approved], metrics := .fresh, waiting := none } = next := by
  rcases Run.step_resume h with ⟨hnone, -⟩ | ⟨_, -, hnext⟩
  · exact absurd hnone hwaiting
  · exact hnext

end Steps

end GraphAgent
