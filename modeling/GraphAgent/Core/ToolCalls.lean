import GraphAgent.Core.Events
import GraphAgent.Core.State
import GraphAgent.Tools.Policy

/-!
# The tools node

`execute_tool_call` in two parts, before and after it awaits the tool. The calls
of a message are admitted one after the other, since nothing suspends in the
first part; the tools themselves then run at the same time.
-/

namespace GraphAgent

/-- What the graph reads of `ToolSpec`. -/
structure ToolSpec where
  name : String
  requiresApproval : Bool

/-- `ToolRegistry`. Names are unique, and the only tool that the source registers
as `web_search` is `WebSearchTool`, which asks for no approval. -/
structure ToolRegistry where
  tools : List ToolSpec
  nodup : (tools.map ToolSpec.name).Nodup
  searchUnattended : ∀ spec ∈ tools, spec.name = "web_search" → spec.requiresApproval = false

/-- `ToolRegistry.get`. -/
def ToolRegistry.get (registry : ToolRegistry) (name : String) : Option ToolSpec :=
  registry.tools.find? fun spec => spec.name = name

theorem ToolRegistry.name_of_get {registry : ToolRegistry} {name : String} {spec : ToolSpec}
    (h : registry.get name = some spec) : spec.name = name := by
  simpa using List.find?_some h

theorem ToolRegistry.get_web_search {registry : ToolRegistry} {spec : ToolSpec}
    (h : registry.get "web_search" = some spec) : spec.requiresApproval = false :=
  registry.searchUnattended spec (List.mem_of_find?_eq_some h) (registry.name_of_get h)

/-- What the graph and its streams read of `AppConfig`. -/
structure AppConfig where
  maxIterations : Int
  contextTokenLimit : Int
  compactionKeepMessages : Int
  latencyMetrics : Bool
  maxToolOutputChars : Int
  repeatToolCallLimit : Int
  dedupeSimilarity : ℚ
  maxCallsPerRun : Int

/-- The default values of the configuration. -/
def defaultConfig : AppConfig where
  maxIterations := 25
  contextTokenLimit := 200000
  compactionKeepMessages := 20
  latencyMetrics := false
  maxToolOutputChars := 20000
  repeatToolCallLimit := 3
  dedupeSimilarity := ⟨4, 5, by decide, by decide⟩
  maxCallsPerRun := 6

/-- The tools that `setup` registers when all of them are enabled. -/
def defaultRegistry : ToolRegistry where
  tools := [⟨"filesystem", false⟩, ⟨"send_file", false⟩, ⟨"web_search", false⟩,
    ⟨"web_fetch", false⟩, ⟨"shell", true⟩]
  nodup := by decide
  searchUnattended := by simp

/-- What `build_agent_graph` closes over, with Python's text functions and the
token counter of the messages library. -/
structure Graph where
  config : AppConfig
  registry : ToolRegistry
  py : Python
  countTokens : List Message → Nat

/-- The default graph, on texts of ASCII characters and with an estimate of ten
tokens for a message. -/
def defaultGraph : Graph where
  config := defaultConfig
  registry := defaultRegistry
  py := ⟨Text.lower, fun c => c.isAlphanum || c = '_', fun _ => ""⟩
  countTokens messages := 10 * messages.length

/-- The counters of a run that its nodes read and write. -/
structure RunMetrics where
  llmCalls : Nat
  toolCalls : Nat
  promptTokens : Nat
  completionTokens : Nat
  signatures : String × String → Nat
  policyState : RunState

/-- `start_run_metrics`. -/
def RunMetrics.fresh : RunMetrics := ⟨0, 0, 0, 0, fun _ => 0, .fresh⟩

/-- `_tool_message_content`. -/
def toolMessageContent (maxChars : Int) (result : Value) : String :=
  let content :=
    match result with
    | .str text => text
    | value => Json.dumps ⟨false, false⟩ value
  if 0 < maxChars ∧ maxChars < content.length then
    String.ofList (content.toList.take maxChars.toNat) ++ "\n...[truncated " ++
      toString (content.length - maxChars) ++ " chars]"
  else content

/-- The payload of an approval interrupt. -/
structure ApprovalPayload where
  approvalId : String
  toolCallId : String
  name : String
  args : Args

/-- How a call comes out of the part before its tool runs: answered without
running it, interrupted for an approval, or started with its final arguments. -/
inductive Admission where
  | answered (content : String)
  | interrupted (payload : ApprovalPayload)
  | started (args : Args)

/-- What a tool does: return a value, send a file, or raise. -/
inductive ToolOutcome where
  | returned (result : Value)
  | file (path : String) (caption : Option String)
  | raised (error : String)

/-- One pass over the calls of a message. `answers` are the recorded resume
values that no interrupt of the pass has taken yet. -/
structure Pass where
  metrics : RunMetrics
  answers : List Bool
  events : List Event

/-- A result that stands in for running the tool. -/
def Pass.refuse (pass : Pass) (callId name : String) (result : String) (isError : Bool) : Pass :=
  { pass with events := pass.events ++ [.toolResult callId name (.str result) isError] }

def Pass.announce (pass : Pass) (callId name : String) (args : Args) : Pass :=
  { pass with events := pass.events ++ [.toolCall callId name args] }

/-- The text for a call that was repeated too often. -/
def repeatedToolCall (name : String) (count : Nat) : String :=
  "repeated tool call: " ++ name ++ " was already called " ++ toString (count - 1) ++
    " times with identical arguments. Do not repeat it; change approach or answer now."

variable (g : Graph)

/-- The repeat guard counts a signature, unless it is switched off. -/
def Pass.counted (pass : Pass) (signature : String × String) : Pass :=
  if 0 < g.config.repeatToolCallLimit then
    { pass with metrics := { pass.metrics with
      signatures := Function.update pass.metrics.signatures signature
        (pass.metrics.signatures signature + 1) } }
  else pass

/-- `metrics.tool_calls += 1`. -/
def Pass.countCall (pass : Pass) : Pass :=
  { pass with metrics := { pass.metrics with toolCalls := pass.metrics.toolCalls + 1 } }

/-- The repeat guard and the start of the tool. -/
def admitGuarded (callId name : String) (args : Args) (pass : Pass) : Admission × Pass :=
  let signature := (name, args.signature)
  let count := pass.metrics.signatures signature + 1
  let pass := pass.counted g signature
  if 0 < g.config.repeatToolCallLimit ∧ g.config.repeatToolCallLimit < count then
    (.answered (repeatedToolCall name count),
      pass.refuse callId name (repeatedToolCall name count) true)
  else (.started args, (pass.announce callId name args).countCall)

/-- What the policies of the graph say to a call, with the state they leave. -/
def policed (call : ToolCall) (pass : Pass) : PolicyDecision × RunState :=
  applyPolicies g.py (buildPolicies g.config.dedupeSimilarity g.config.maxCallsPerRun)
    ⟨call.name, call.args⟩ pass.metrics.policyState

/-- The pass after the policies have looked at a call. -/
def afterPolicies (call : ToolCall) (pass : Pass) : Pass :=
  { pass with metrics := { pass.metrics with policyState := (policed g call pass).2 } }

/-- `execute_tool_call` up to its call of the tool. -/
def admitCall (manualMode : Bool) (call : ToolCall) (pass : Pass) : Admission × Pass :=
  let callId := call.callId
  let name := call.name
  match g.registry.get name with
  | none =>
      let result := "unknown tool: " ++ name
      (.answered result, (pass.announce callId name call.args).refuse callId name result true)
  | some spec =>
      let decision := (policed g call pass).1
      let pass := afterPolicies g call pass
      let args := decision.args
      match decision.result with
      | some result =>
          (.answered (toolMessageContent g.config.maxToolOutputChars (.str result)),
            (pass.announce callId name args).refuse callId name result decision.isError)
      | none =>
          if spec.requiresApproval && manualMode then
            match pass.answers with
            | [] => (.interrupted ⟨callId, callId, name, args⟩, pass)
            | true :: later => admitGuarded g callId name args { pass with answers := later }
            | false :: later =>
                (.answered "user denied tool execution",
                  { pass with answers := later }.refuse callId name
                    "user denied tool execution" true)
          else admitGuarded g callId name args pass

/-- The part of `execute_tool_call` after its tool has run: the message for the
thread and the events. -/
def settle (call : ToolCall) : ToolOutcome → Message × List Event
  | .returned result =>
      (.tool (toolMessageContent g.config.maxToolOutputChars result) call.callId,
        [.toolResult call.callId call.name result false])
  | .raised error =>
      (.tool (toolMessageContent g.config.maxToolOutputChars (.str error)) call.callId,
        [.toolResult call.callId call.name (.str error) true])
  | .file path caption => (.tool ("file sent: " ++ path) call.callId, [.file path caption])

/-- The tools node admits the calls of a message in their order. -/
def admitAll (manualMode : Bool) : List ToolCall → Pass → List Admission × Pass
  | [], pass => ([], pass)
  | call :: rest, pass =>
      let (admission, pass) := admitCall g manualMode call pass
      let (admissions, pass) := admitAll manualMode rest pass
      (admission :: admissions, pass)

end GraphAgent
