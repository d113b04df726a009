import GraphAgent.Core.Run

/-!
# The two tools nodes

The hand-written `run_tools_node`, which runs the calls of a message one after the other,
and the tools node of the graph, where `ToolNode` lets `execute_tool_call` run for all of
them at the same time and collects their messages in call order.
-/

namespace GraphAgent

/-- A registered tool, whose result depends on its arguments only. -/
structure Tool where
  requiresApproval : Bool
  execute : Args → ToolOutcome

/-- `ToolRegistry.get`. -/
abbrev Tools := String → Option Tool

section Sequential

/-- `_tool_message_content` of the hand-written node. -/
def plainContent : Value → String
  | .str text => text
  | value => Json.dumps ⟨false, false⟩ value

/-- The end of an iteration: the message and the last event. -/
def conclude (call : ToolCall) : ToolOutcome → Message × List Event
  | .file path caption => (.tool ("file sent: " ++ path) call.callId, [.file path caption])
  | .returned result =>
      (.tool (plainContent result) call.callId,
        [.toolResult call.callId call.name result false])
  | .raised error =>
      (.tool (plainContent (.str error)) call.callId,
        [.toolResult call.callId call.name (.str error) true])

/-- An iteration that tells of the call before its result is there. -/
def announced (call : ToolCall) (outcome : ToolOutcome) : Message × List Event :=
  ((conclude call outcome).1,
    .toolCall call.callId call.name call.args :: (conclude call outcome).2)

variable (tools : Tools) (manualMode : Bool)

/-- One iteration of the loop: what it puts out and the answers that it leaves. Without an
answer it ends with the interrupt. -/
def runToolCall (call : ToolCall) (answers : List Bool) :
    Except ApprovalPayload ((Message × List Event) × List Bool) :=
  match tools call.name with
  | none => .ok (announced call (.raised ("unknown tool: " ++ call.name)), answers)
  | some tool =>
      if tool.requiresApproval && manualMode then
        match answers with
        | [] => .error ⟨call.callId, call.callId, call.name, call.args⟩
        | true :: later => .ok (announced call (tool.execute call.args), later)
        | false :: later => .ok (conclude call (.raised "user denied tool execution"), later)
      else .ok (announced call (tool.execute call.args), answers)

/-- The loop over the calls. -/
def runToolCalls : List ToolCall → List Bool → Except ApprovalPayload (List (Message × List Event))
  | [], _ => .ok []
  | call :: calls, answers => do
      let (output, answers) ← runToolCall tools manualMode call answers
      let outputs ← runToolCalls calls answers
      return output :: outputs

/-- `run_tools_node`: for each call its message and the events that it notifies of. -/
def runToolsNode (state : AgentState) (answers : List Bool) :
    Except ApprovalPayload (List (Message × List Event)) :=
  runToolCalls tools (resolveApprovalMode state = .manual) (lastToolCalls state.messages) answers

end Sequential

section Concurrent

variable (g : Graph) (tools : Tools) (manualMode : Bool)

/-- `execute_tool_call` up to its call of the tool, with the tools of any registry. -/
def startCall (call : ToolCall) (pass : Pass) : Admission × Pass :=
  let callId := call.callId
  let name := call.name
  match tools name with
  | none =>
      let result := "unknown tool: " ++ name
      (.answered result, (pass.announce callId name call.args).refuse callId name result true)
  | some tool =>
      let decision := (policed g call pass).1
      let pass := afterPolicies g call pass
      let args := decision.args
      match decision.result with
      | some result =>
          (.answered (toolMessageContent g.config.maxToolOutputChars (.str result)),
            (pass.announce callId name args).refuse callId name result decision.isError)
      | none =>
          if tool.requiresApproval && manualMode then
            match pass.answers with
            | [] => (.interrupted ⟨callId, callId, name, args⟩, pass)
            | true :: later => admitGuarded g callId name args { pass with answers := later }
            | false :: later =>
                (.answered "user denied tool execution",
                  { pass with answers := later }.refuse callId name
                    "user denied tool execution" true)
          else admitGuarded g callId name args pass

/-- With the registry of the graph, this is how its tools node admits a call. -/
theorem startCall_eq_admitCall {call : ToolCall}
    (h : (g.registry.get call.name).map ToolSpec.requiresApproval =
      (tools call.name).map Tool.requiresApproval) (pass : Pass) :
    startCall g tools manualMode call pass = admitCall g manualMode call pass := by
  unfold startCall admitCall
  dsimp only
  cases htool : tools call.name with
  | none =>
      rw [htool, Option.map_none, Option.map_eq_none_iff] at h
      rw [h]
  | some tool =>
      rw [htool, Option.map_some, Option.map_eq_some_iff] at h
      obtain ⟨spec, hspec, hrequires⟩ := h
      simp only [hspec]
      exact hrequires ▸ rfl

/-- What has become of a call that was started. -/
inductive CallPhase where
  | running (args : Args)
  | ended (message : Message)

/-- `ToolNode` at work on the calls of a message. The phases stand in call order; an event
in the log goes with the position of its call. -/
structure ToolNode where
  metrics : RunMetrics
  answers : List Bool
  phases : List CallPhase
  log : List (Nat × Event)

/-- The next call is started, or the tool of a call has ended. -/
inductive ToolNodeAct where
  | start
  | finish (position : Nat)

namespace ToolNode

/-- The tasks get their first turns in call order. -/
def startStep (calls : List ToolCall) (s : ToolNode) : Option ToolNode :=
  let position := s.phases.length
  match calls[position]? with
  | none => none
  | some call =>
      let (admission, pass) := startCall g tools manualMode call ⟨s.metrics, s.answers, []⟩
      let log := s.log ++ pass.events.map fun event => (position, event)
      match admission with
      | .answered content =>
          some ⟨pass.metrics, pass.answers,
            s.phases ++ [.ended (.tool content call.callId)], log⟩
      | .started args => some ⟨pass.metrics, pass.answers, s.phases ++ [.running args], log⟩
      | .interrupted _ => none

/-- The rest of `execute_tool_call`, once the tool has returned or raised. -/
def finishStep (calls : List ToolCall) (s : ToolNode) (position : Nat) : Option ToolNode :=
  match calls[position]?, s.phases[position]? with
  | some call, some (.running args) =>
      match tools call.name with
      | some tool =>
          let (message, events) := settle g call (tool.execute args)
          some { s with
            phases := s.phases.set position (.ended message)
            log := s.log ++ events.map fun event => (position, event) }
      | none => none
  | _, _ => none

def step (calls : List ToolCall) (s : ToolNode) : ToolNodeAct → Option ToolNode
  | .start => startStep g tools manualMode calls s
  | .finish position => finishStep g tools calls s position

/-- The messages of the calls that have ended, in call order. -/
def messages (s : ToolNode) : List Message :=
  s.phases.filterMap fun phase =>
    match phase with
    | .ended message => some message
    | .running _ => none

/-- The events of one call. -/
def eventsOf (s : ToolNode) (position : Nat) : List Event :=
  (s.log.filter fun entry => entry.1 = position).map Prod.snd

/-- Every call has ended, and the node returns. -/
def Done (calls : List ToolCall) (s : ToolNode) : Prop :=
  s.phases.length = calls.length ∧ ∀ phase ∈ s.phases, ∃ message, phase = .ended message

end ToolNode

/-- The runs of the tools node on a state of the thread. -/
def toolNodeSystem (state : AgentState) (metrics : RunMetrics) (answers : List Bool) :
    Transition.System ToolNode ToolNodeAct where
  init s := s = ⟨metrics, answers, [], []⟩
  step := ToolNode.step g tools (resolveApprovalMode state = .manual)
    (lastToolCalls state.messages)

end Concurrent

section Options

/-- No policy, no limit on repeated calls and no truncation of results. -/
structure AppConfig.Unguarded (config : AppConfig) : Prop where
  dedupeSimilarity : config.dedupeSimilarity ≤ 0
  maxCallsPerRun : config.maxCallsPerRun ≤ 0
  repeatToolCallLimit : config.repeatToolCallLimit ≤ 0
  maxToolOutputChars : config.maxToolOutputChars ≤ 0

variable {g : Graph} {call : ToolCall} {pass : Pass}

theorem buildPolicies_of_unguarded (h : g.config.Unguarded) :
    buildPolicies g.config.dedupeSimilarity g.config.maxCallsPerRun = [] := by
  unfold buildPolicies
  rw [if_neg (not_lt.2 h.dedupeSimilarity), if_neg (not_lt.2 h.maxCallsPerRun)]
  rfl

theorem policed_of_unguarded (h : g.config.Unguarded) :
    policed g call pass = ({ args := call.args }, pass.metrics.policyState) := by
  unfold policed
  rw [buildPolicies_of_unguarded h]
  rfl

theorem afterPolicies_of_unguarded (h : g.config.Unguarded) : afterPolicies g call pass = pass := by
  unfold afterPolicies
  rw [policed_of_unguarded h]

theorem admitGuarded_of_unguarded (h : g.config.Unguarded) (callId name : String) (args : Args) :
    admitGuarded g callId name args pass =
      (.started args, (pass.announce callId name args).countCall) := by
  have hoff : ¬ 0 < g.config.repeatToolCallLimit := not_lt.2 h.repeatToolCallLimit
  unfold admitGuarded
  dsimp only
  rw [if_neg fun hon => hoff hon.1]
  unfold Pass.counted
  rw [if_neg hoff]

theorem toolMessageContent_of_unguarded (h : g.config.Unguarded) (result : Value) :
    toolMessageContent g.config.maxToolOutputChars result = plainContent result := by
  have hoff : ¬ 0 < g.config.maxToolOutputChars := not_lt.2 h.maxToolOutputChars
  unfold toolMessageContent
  dsimp only
  rw [if_neg fun hon => hoff hon.1]
  cases result <;> rfl

/-- Both nodes end a call in the same way. -/
theorem settle_of_unguarded (h : g.config.Unguarded) (outcome : ToolOutcome) :
    settle g call outcome = conclude call outcome := by
  cases outcome with
  | returned result =>
      unfold settle conclude
      dsimp only
      rw [toolMessageContent_of_unguarded h]
  | file path caption => rfl
  | raised error =>
      unfold settle conclude
      dsimp only
      rw [toolMessageContent_of_unguarded h]

end Options

section Outputs

variable (tools : Tools) (manualMode : Bool)

/-- A call that asks for an approval. -/
def Tools.asks (call : ToolCall) : Bool :=
  (tools call.name).any fun tool => tool.requiresApproval && manualMode

/-- The answers that the interrupts get, one after the other, when the call at each
position is approved or denied as decided. -/
def resumeValues (decide : Nat → Bool) : Nat → List ToolCall → List Bool
  | _, [] => []
  | position, call :: calls =>
      if tools.asks manualMode call then
        decide position :: resumeValues decide (position + 1) calls
      else resumeValues decide (position + 1) calls

/-- What comes out of a call that is approved or denied, should it ask. -/
def outputOf (approved : Bool) (call : ToolCall) : Message × List Event :=
  match tools call.name with
  | none => announced call (.raised ("unknown tool: " ++ call.name))
  | some tool =>
      if tools.asks manualMode call && !approved then
        conclude call (.raised "user denied tool execution")
      else announced call (tool.execute call.args)

variable {tools manualMode} {call : ToolCall} {decide : Nat → Bool}

theorem asks_of_some {tool : Tool} (h : tools call.name = some tool) :
    tools.asks manualMode call = (tool.requiresApproval && manualMode) := by
  unfold Tools.asks
  rw [h]
  rfl

theorem asks_of_none (h : tools call.name = none) : tools.asks manualMode call = false := by
  unfold Tools.asks
  rw [h]
  rfl

theorem resumeValues_cons (position : Nat) (calls : List ToolCall) :
    resumeValues tools manualMode decide position (call :: calls) =
      if tools.asks manualMode call then
        decide position :: resumeValues tools manualMode decide (position + 1) calls
      else resumeValues tools manualMode decide (position + 1) calls := rfl

/-- An iteration takes the decision of its call, if the call asks for one. -/
theorem runToolCall_resumeValues (position : Nat) (calls : List ToolCall) :
    runToolCall tools manualMode call (resumeValues tools manualMode decide position (call :: calls))
      = .ok (outputOf tools manualMode (decide position) call,
          resumeValues tools manualMode decide (position + 1) calls) := by
  unfold runToolCall outputOf
  rw [resumeValues_cons]
  cases htool : tools call.name with
  | none => simp [asks_of_none htool]
  | some tool =>
      rw [asks_of_some htool]
      cases hasks : tool.requiresApproval && manualMode with
      | false => simp [hasks]
      | true => cases hdecide : decide position <;> simp [hasks]

/-- The loop puts out for each call what its decision leads to. -/
theorem runToolCalls_resumeValues (position : Nat) (calls : List ToolCall) :
    runToolCalls tools manualMode calls (resumeValues tools manualMode decide position calls) =
      .ok ((calls.zipIdx position).map fun entry =>
        outputOf tools manualMode (decide entry.2) entry.1) := by
  induction calls generalizing position with
  | nil => rfl
  | cons call calls ih =>
      rw [runToolCalls, runToolCall_resumeValues]
      show (do
        let outputs ← runToolCalls tools manualMode calls
          (resumeValues tools manualMode decide (position + 1) calls)
        return outputOf tools manualMode (decide position) call :: outputs) = _
      rw [ih]
      rfl

end Outputs

section FirstTurn

variable {g : Graph} {tools : Tools} {manualMode : Bool} {call : ToolCall} {decide : Nat → Bool}
  {metrics : RunMetrics}

/-- The first turn of a call: it is over with the output of its decision, or its tool runs
and the rest of the output is what the end of the tool will bring. -/
theorem startCall_resumeValues (h : g.config.Unguarded) (position : Nat) (calls : List ToolCall) :
    let answers := resumeValues tools manualMode decide position (call :: calls)
    let output := outputOf tools manualMode (decide position) call
    let started := startCall g tools manualMode call ⟨metrics, answers, []⟩
    started.2.answers = resumeValues tools manualMode decide (position + 1) calls ∧
      ((∃ content, started.1 = .answered content ∧
          output = (.tool content call.callId, started.2.events)) ∨
        ∃ tool, started.1 = .started call.args ∧ tools call.name = some tool ∧
          output = ((conclude call (tool.execute call.args)).1,
            started.2.events ++ (conclude call (tool.execute call.args)).2)) := by
  intro answers output started
  cases htool : tools call.name with
  | none =>
      have hanswers : answers = resumeValues tools manualMode decide (position + 1) calls := by
        simp [answers, resumeValues_cons, asks_of_none htool]
      refine ⟨?_, .inl ⟨"unknown tool: " ++ call.name, ?_, ?_⟩⟩
      · simp [started, startCall, htool, Pass.announce, Pass.refuse, hanswers]
      · simp [started, startCall, htool]
      · simp [output, outputOf, started, startCall, htool, announced, conclude, plainContent,
          Pass.announce, Pass.refuse]
  | some tool =>
      have hasks : tools.asks manualMode call = (tool.requiresApproval && manualMode) :=
        asks_of_some htool
      cases happroval : tool.requiresApproval && manualMode with
      | false =>
          rw [happroval] at hasks
          have hanswers : answers = resumeValues tools manualMode decide (position + 1) calls := by
            simp [answers, resumeValues_cons, hasks]
          have hstarted : started =
              (.started call.args, Pass.countCall (Pass.announce ⟨metrics, answers, []⟩
                call.callId call.name call.args)) := by
            simp only [started, startCall, htool, policed_of_unguarded h,
              afterPolicies_of_unguarded h, happroval, Bool.false_eq_true, if_false,
              admitGuarded_of_unguarded h]
          rw [hstarted]
          refine ⟨hanswers, .inr ⟨tool, rfl, rfl, ?_⟩⟩
          simp [output, outputOf, htool, hasks, announced, Pass.countCall, Pass.announce]
      | true =>
          rw [happroval] at hasks
          have hanswers : answers = decide position ::
              resumeValues tools manualMode decide (position + 1) calls := by
            simp [answers, resumeValues_cons, hasks]
          cases hdecide : decide position with
          | true =>
              rw [hdecide] at hanswers
              have hstarted : started =
                  (.started call.args, Pass.countCall (Pass.announce
                    ⟨metrics, resumeValues tools manualMode decide (position + 1) calls, []⟩
                    call.callId call.name call.args)) := by
                simp only [started, startCall, htool, policed_of_unguarded h,
                  afterPolicies_of_unguarded h, happroval, if_true, hanswers,
                  admitGuarded_of_unguarded h]
              rw [hstarted]
              refine ⟨rfl, .inr ⟨tool, rfl, rfl, ?_⟩⟩
              simp [output, outputOf, htool, hdecide, announced, Pass.countCall, Pass.announce]
          | false =>
              rw [hdecide] at hanswers
              have hstarted : started =
                  (.answered "user denied tool execution", Pass.refuse
                    ⟨metrics, resumeValues tools manualMode decide (position + 1) calls, []⟩
                    call.callId call.name "user denied tool execution" true) := by
                simp only [started, startCall, htool, policed_of_unguarded h,
                  afterPolicies_of_unguarded h, happroval, if_true, hanswers]
              rw [hstarted]
              refine ⟨rfl, .inl ⟨_, rfl, ?_⟩⟩
              simp [output, outputOf, htool, hasks, hdecide, conclude, plainContent, Pass.refuse]

end FirstTurn

section Steps

namespace ToolNode

variable {g : Graph} {tools : Tools} {manualMode : Bool} {calls : List ToolCall}
  {s s' : ToolNode}

/-- What is logged for one call is seen at this call only. -/
theorem eventsOf_append {events : List Event} {position : Nat}
    (h : s'.log = s.log ++ events.map fun event => (position, event)) (i : Nat) :
    s'.eventsOf i = s.eventsOf i ++ if i = position then events else [] := by
  unfold eventsOf
  rw [h, List.filter_append, List.map_append, List.filter_map]
  by_cases hi : i = position
  · subst hi
    simp [Function.comp_def]
  · have hother : ¬ position = i := fun heq => hi heq.symm
    simp [Function.comp_def, hi, hother]

theorem startStep_cases (h : startStep g tools manualMode calls s = some s') :
    ∃ call, calls[s.phases.length]? = some call ∧
      ∃ admission pass, startCall g tools manualMode call ⟨s.metrics, s.answers, []⟩ =
          (admission, pass) ∧
        s'.answers = pass.answers ∧
        s'.log = s.log ++ pass.events.map (fun event => (s.phases.length, event)) ∧
        ((∃ content, admission = .answered content ∧
            s'.phases = s.phases ++ [.ended (.tool content call.callId)]) ∨
          ∃ args, admission = .started args ∧ s'.phases = s.phases ++ [.running args]) := by
  unfold startStep at h
  dsimp only at h
  cases hcall : calls[s.phases.length]? with
  | none =>
      rw [hcall] at h
      cases h
  | some call =>
      simp only [hcall] at h
      rcases hstart : startCall g tools manualMode call ⟨s.metrics, s.answers, []⟩ with
        ⟨admission, pass⟩
      rw [hstart] at h
      refine ⟨call, rfl, admission, pass, hstart, ?_⟩
      cases admission with
      | answered content =>
          obtain rfl := Option.some.inj h
          exact ⟨rfl, rfl, .inl ⟨content, rfl, rfl⟩⟩
      | started args =>
          obtain rfl := Option.some.inj h
          exact ⟨rfl, rfl, .inr ⟨args, rfl, rfl⟩⟩
      | interrupted payload => cases h

theorem finishStep_cases {position : Nat} (h : finishStep g tools calls s position = some s') :
    ∃ call args tool, calls[position]? = some call ∧ s.phases[position]? = some (.running args) ∧
      tools call.name = some tool ∧
      s' = { s with
        phases := s.phases.set position (.ended (settle g call (tool.execute args)).1)
        log := s.log ++ (settle g call (tool.execute args)).2.map
          fun event => (position, event) } := by
  unfold finishStep at h
  split at h
  case h_2 => cases h
  case h_1 call args hcall hphase =>
      cases htool : tools call.name with
      | none =>
          rw [htool] at h
          cases h
      | some tool =>
          rw [htool] at h
          exact ⟨call, args, tool, hcall, hphase, htool, (Option.some.inj h).symm⟩

variable (tools manualMode calls) in
/-- What the calls that were started have put out so far is what they have to put out, and
the answers that are left are those of the calls to come. -/
structure Faithful (decide : Nat → Bool) (s : ToolNode) : Prop where
  answers : s.answers =
    resumeValues tools manualMode decide s.phases.length (calls.drop s.phases.length)
  bound : s.phases.length ≤ calls.length
  ended : ∀ i call message, calls[i]? = some call → s.phases[i]? = some (.ended message) →
    outputOf tools manualMode (decide i) call = (message, s.eventsOf i)
  running : ∀ i call args, calls[i]? = some call → s.phases[i]? = some (.running args) →
    ∃ tool, tools call.name = some tool ∧
      outputOf tools manualMode (decide i) call =
        ((conclude call (tool.execute args)).1,
          s.eventsOf i ++ (conclude call (tool.execute args)).2)
  quiet : ∀ i, s.phases.length ≤ i → s.eventsOf i = []

variable {decide : Nat → Bool}

theorem faithful_startStep (hconfig : g.config.Unguarded)
    (hs : s.Faithful tools manualMode calls decide)
    (h : startStep g tools manualMode calls s = some s') :
    s'.Faithful tools manualMode calls decide := by
  obtain ⟨call, hcall, admission, pass, hstart, hanswers, hlog, hphases⟩ := startStep_cases h
  have hlt : s.phases.length < calls.length := (List.getElem?_eq_some_iff.1 hcall).1
  have hdrop : calls.drop s.phases.length = call :: calls.drop (s.phases.length + 1) := by
    obtain ⟨-, rfl⟩ := List.getElem?_eq_some_iff.1 hcall
    exact List.drop_eq_getElem_cons hlt
  have hfirst := @startCall_resumeValues g tools manualMode call decide s.metrics hconfig
    s.phases.length (calls.drop (s.phases.length + 1))
  simp only [← hdrop, ← hs.answers, hstart] at hfirst
  obtain ⟨hlater, hout⟩ := hfirst
  have hevents := eventsOf_append hlog
  have hnew : s'.eventsOf s.phases.length = pass.events := by
    rw [hevents, hs.quiet _ le_rfl, if_pos rfl, List.nil_append]
  have hold : ∀ i, i ≠ s.phases.length → s'.eventsOf i = s.eventsOf i := fun i hi => by
    rw [hevents, if_neg hi, List.append_nil]
  obtain ⟨phase, hphase⟩ : ∃ phase, s'.phases = s.phases ++ [phase] := by
    rcases hphases with ⟨content, -, hphase⟩ | ⟨args, -, hphase⟩ <;> exact ⟨_, hphase⟩
  have hlength : s'.phases.length = s.phases.length + 1 := by
    rw [hphase, List.length_append, List.length_singleton]
  -- A phase of the new state is an old one, or the one of the call that has started.
  have hget : ∀ i p, s'.phases[i]? = some p →
      (i ≠ s.phases.length ∧ s.phases[i]? = some p) ∨ (i = s.phases.length ∧ p = phase) := by
    intro i p hp
    rw [hphase] at hp
    rcases Nat.lt_trichotomy i s.phases.length with hi | rfl | hi
    · rw [List.getElem?_append_left hi] at hp
      exact .inl ⟨by omega, hp⟩
    · rw [List.getElem?_concat_length] at hp
      exact .inr ⟨rfl, (Option.some.inj hp).symm⟩
    · rw [List.getElem?_eq_none (by simp; omega)] at hp
      cases hp
  refine ⟨?_, ?_, ?_, ?_, ?_⟩
  · rw [hanswers, hlater, hlength]
  · omega
  · intro i c message hc hp
    rcases hget i _ hp with ⟨hne, hp⟩ | ⟨rfl, rfl⟩
    · rw [hold i hne]
      exact hs.ended i c message hc hp
    · obtain rfl : call = c := Option.some.inj (hcall.symm.trans hc)
      rcases hphases with ⟨content, hadmission, hphase'⟩ | ⟨args, -, hphase'⟩
      · obtain rfl : message = .tool content call.callId := by
          simpa [hphase] using hphase'
        rw [hnew]
        rcases hout with ⟨content', hcontent, hout⟩ | ⟨tool, hcontent, -, -⟩
        · rw [hadmission] at hcontent
          obtain rfl := Admission.answered.inj hcontent
          exact hout
        · rw [hadmission] at hcontent
          cases hcontent
      · simp [hphase] at hphase'
  · intro i c args hc hp
    rcases hget i _ hp with ⟨hne, hp⟩ | ⟨rfl, rfl⟩
    · rw [hold i hne]
      exact hs.running i c args hc hp
    · obtain rfl : call = c := Option.some.inj (hcall.symm.trans hc)
      rcases hphases with ⟨content, -, hphase'⟩ | ⟨args', hadmission, hphase'⟩
      · simp [hphase] at hphase'
      · obtain rfl : args = args' := by simpa [hphase] using hphase'
        rw [hnew]
        rcases hout with ⟨content', hcontent, -⟩ | ⟨tool, hcontent, htool, hout⟩
        · rw [hadmission] at hcontent
          cases hcontent
        · rw [hadmission] at hcontent
          obtain rfl := Admission.started.inj hcontent
          exact ⟨tool, htool, hout⟩
  · intro i hi
    rw [hlength] at hi
    rw [hold i (by omega)]
    exact hs.quiet i (by omega)

theorem faithful_finishStep (hconfig : g.config.Unguarded)
    (hs : s.Faithful tools manualMode calls decide) {position : Nat}
    (h : finishStep g tools calls s position = some s') :
    s'.Faithful tools manualMode calls decide := by
  obtain ⟨call, args, tool, hcall, hphase, htool, hs'⟩ := finishStep_cases h
  rw [settle_of_unguarded hconfig] at hs'
  obtain ⟨tool', htool', hout⟩ := hs.running position call args hcall hphase
  obtain rfl : tool = tool' := Option.some.inj (htool.symm.trans htool')
  have hlt : position < s.phases.length := (List.getElem?_eq_some_iff.1 hphase).1
  have hlog : s'.log = s.log ++ (conclude call (tool.execute args)).2.map
      fun event => (position, event) := by rw [hs']
  have hevents := eventsOf_append hlog
  have hlength : s'.phases.length = s.phases.length := by rw [hs', List.length_set]
  have hold : ∀ i, i ≠ position →
      s'.phases[i]? = s.phases[i]? ∧ s'.eventsOf i = s.eventsOf i := fun i hi => by
    rw [hevents, if_neg hi, List.append_nil, hs']
    exact ⟨List.getElem?_set_ne (Ne.symm hi), rfl⟩
  have hnew : s'.phases[position]? = some (.ended (conclude call (tool.execute args)).1) := by
    rw [hs', List.getElem?_set_self hlt]
  refine ⟨?_, ?_, ?_, ?_, ?_⟩
  · rw [hlength, ← hs.answers, hs']
  · rw [hlength]
    exact hs.bound
  · intro i c message hc hp
    by_cases hi : i = position
    · subst hi
      obtain rfl : call = c := Option.some.inj (hcall.symm.trans hc)
      rw [hnew] at hp
      obtain rfl := CallPhase.ended.inj (Option.some.inj hp)
      rw [hevents, if_pos rfl]
      exact hout
    · obtain ⟨hphases, hsame⟩ := hold i hi
      rw [hphases] at hp
      rw [hsame]
      exact hs.ended i c message hc hp
  · intro i c args' hc hp
    by_cases hi : i = position
    · subst hi
      rw [hnew] at hp
      cases hp
    · obtain ⟨hphases, hsame⟩ := hold i hi
      rw [hphases] at hp
      rw [hsame]
      exact hs.running i c args' hc hp
  · intro i hi
    rw [hlength] at hi
    rw [(hold i (by omega)).2]
    exact hs.quiet i hi

/-- Every step keeps the node faithful. -/
theorem faithful_step (hconfig : g.config.Unguarded) (a : ToolNodeAct)
    (hs : s.Faithful tools manualMode calls decide)
    (h : step g tools manualMode calls s a = some s') :
    s'.Faithful tools manualMode calls decide := by
  cases a with
  | start => exact faithful_startStep hconfig hs h
  | finish position => exact faithful_finishStep hconfig hs h

theorem faithful_initial (metrics : RunMetrics) :
    Faithful tools manualMode calls decide
      ⟨metrics, resumeValues tools manualMode decide 0 calls, [], []⟩ where
  answers := rfl
  bound := Nat.zero_le _
  ended i call message _ hp := by simp at hp
  running i call args _ hp := by simp at hp
  quiet i _ := rfl

end ToolNode

end Steps

section Completion

namespace ToolNode

variable {g : Graph} {tools : Tools} {manualMode : Bool} {calls : List ToolCall}
  {decide : Nat → Bool} {s s' : ToolNode} {a : ToolNodeAct}

/-- The tool of a call has not ended. -/
def isRunning : CallPhase → Bool
  | .running _ => true
  | .ended _ => false

/-- The steps that are left: two for a call to come, one for a tool that runs. -/
def left (calls : List ToolCall) (s : ToolNode) : Nat :=
  2 * (calls.length - s.phases.length) + s.phases.countP isRunning

theorem left_step (h : step g tools manualMode calls s a = some s') :
    s'.left calls < s.left calls := by
  unfold left
  cases a with
  | start =>
      obtain ⟨call, hcall, admission, pass, -, -, -, hphases⟩ := startStep_cases h
      have hlt : s.phases.length < calls.length := (List.getElem?_eq_some_iff.1 hcall).1
      rcases hphases with ⟨content, -, hphase⟩ | ⟨args, -, hphase⟩
      · simp only [hphase, List.length_append, List.countP_append, List.length_singleton,
          List.countP_singleton, isRunning, Bool.false_eq_true, if_false]
        omega
      · simp only [hphase, List.length_append, List.countP_append, List.length_singleton,
          List.countP_singleton, isRunning, if_true]
        omega
  | finish position =>
      obtain ⟨call, args, tool, hcall, hphase, -, rfl⟩ := finishStep_cases h
      obtain ⟨hlt, hget⟩ := List.getElem?_eq_some_iff.1 hphase
      have hpos : 0 < s.phases.countP isRunning :=
        List.countP_pos_iff.2 ⟨_, List.getElem_mem hlt, by rw [hget]; rfl⟩
      simp only [List.length_set, List.countP_set hlt, hget, isRunning]
      simp only [if_true, Bool.false_eq_true, if_false]
      omega

/-- Until every call has ended, the next call can be started or a tool can end. -/
theorem exists_step (hconfig : g.config.Unguarded)
    (hs : s.Faithful tools manualMode calls decide) :
    s.Done calls ∨ ∃ a s', step g tools manualMode calls s a = some s' := by
  rcases Nat.lt_or_ge s.phases.length calls.length with hlt | hge
  · right
    have hcall := List.getElem?_eq_getElem hlt
    have hfirst := @startCall_resumeValues g tools manualMode calls[s.phases.length] decide s.metrics
      hconfig s.phases.length (calls.drop (s.phases.length + 1))
    simp only [← List.drop_eq_getElem_cons hlt, ← hs.answers] at hfirst
    rcases hfirst.2 with ⟨content, hstart, -⟩ | ⟨tool, hstart, -, -⟩
    · exact ⟨.start, _, by simp only [step, startStep, hcall, hstart]; rfl⟩
    · exact ⟨.start, _, by simp only [step, startStep, hcall, hstart]; rfl⟩
  · by_cases hended : ∀ phase ∈ s.phases, ∃ message, phase = .ended message
    · exact .inl ⟨le_antisymm hs.bound hge, hended⟩
    · right
      push Not at hended
      obtain ⟨phase, hmem, hphase⟩ := hended
      obtain ⟨i, hi, hget⟩ := List.getElem_of_mem hmem
      cases phase with
      | ended message => exact absurd rfl (hphase message)
      | running args =>
          have hrunning : s.phases[i]? = some (.running args) :=
            List.getElem?_eq_some_iff.2 ⟨hi, hget⟩
          have hcall := List.getElem?_eq_getElem (lt_of_lt_of_le hi hs.bound)
          obtain ⟨tool, htool, -⟩ := hs.running i _ args hcall hrunning
          exact ⟨.finish i, _, by simp only [step, finishStep, hcall, hrunning, htool]; rfl⟩

/-- Once every call has ended, the messages and the events are the outputs of the calls. -/
theorem outputs_of_done (hs : s.Faithful tools manualMode calls decide) (hdone : s.Done calls) :
    let outputs := calls.zipIdx.map fun entry =>
      outputOf tools manualMode (decide entry.2) entry.1
    s.messages = outputs.map Prod.fst ∧
      ∀ i, s.eventsOf i = (outputs[i]?.map Prod.snd).getD [] := by
  intro outputs
  obtain ⟨hlength, hended⟩ := hdone
  -- What has ended at a position is the output of the call there.
  have hget : ∀ i (hi : i < calls.length), ∃ message, s.phases[i]? = some (.ended message) ∧
      outputs[i]? = some (message, s.eventsOf i) := by
    intro i hi
    have hphase := List.getElem?_eq_getElem (hlength ▸ hi : i < s.phases.length)
    obtain ⟨message, hmessage⟩ := hended _ (List.getElem_mem (hlength ▸ hi : i < s.phases.length))
    rw [hmessage] at hphase
    have hcall := List.getElem?_eq_getElem hi
    refine ⟨message, hphase, ?_⟩
    rw [← hs.ended i _ message hcall hphase]
    simp [outputs, List.getElem?_map, List.getElem?_zipIdx, hcall]
  have hphases : s.phases = outputs.map fun output => .ended output.1 := by
    apply List.ext_getElem?
    intro i
    rcases Nat.lt_or_ge i calls.length with hi | hi
    · obtain ⟨message, hphase, houtput⟩ := hget i hi
      rw [hphase, List.getElem?_map, houtput]
      rfl
    · rw [List.getElem?_eq_none (by omega), List.getElem?_eq_none (by simp [outputs]; omega)]
  refine ⟨?_, fun i => ?_⟩
  · unfold messages
    rw [hphases, List.filterMap_map]
    exact congrFun List.filterMap_eq_map outputs
  · rcases Nat.lt_or_ge i calls.length with hi | hi
    · obtain ⟨message, -, houtput⟩ := hget i hi
      rw [houtput]
      rfl
    · rw [List.getElem?_eq_none (by simp [outputs]; omega)]
      exact hs.quiet i (by omega)

end ToolNode

end Completion

section Refinement

/-- A thread whose last message asks for the calls. -/
def AgentState.asked (state : AgentState) (text : String) (calls : List ToolCall) : AgentState :=
  { state with messages := state.messages ++ [.ai text calls] }

theorem lastToolCalls_asked (state : AgentState) (text : String) (calls : List ToolCall) :
    lastToolCalls (state.asked text calls).messages = calls := by
  simp [AgentState.asked, lastToolCalls, Message.ai]

variable {g : Graph}

/-- Whatever the decisions on the calls are: the tools node of the graph comes to its end,
and then it returns the messages of the hand-written one and has emitted the same events
for each call. -/
theorem toolNode_refines_runToolsNode (hconfig : g.config.Unguarded) (tools : Tools)
    (state : AgentState) (text : String) (calls : List ToolCall) (decide : Nat → Bool)
    (metrics : RunMetrics) :
    let thread := state.asked text calls
    let answers := resumeValues tools (resolveApprovalMode thread = .manual) decide 0 calls
    let node := toolNodeSystem g tools thread metrics answers
    ∃ outputs, runToolsNode tools thread answers = .ok outputs ∧
      (∀ s, node.init s → node.Inevitable (fun _ _ => True) (ToolNode.Done calls) s) ∧
      ∀ s, node.Reachable s → s.Done calls →
        s.messages = outputs.map Prod.fst ∧
          ∀ i, s.eventsOf i = (outputs[i]?.map Prod.snd).getD [] := by
  intro thread answers node
  have hcalls : lastToolCalls thread.messages = calls := lastToolCalls_asked state text calls
  have hkeep : ∀ s a t, ToolNode.Faithful tools (resolveApprovalMode thread = .manual) calls decide s →
      True → node.step s a = some t →
      ToolNode.Faithful tools (resolveApprovalMode thread = .manual) calls decide t := by
    intro s a t hs _ hstep
    simp only [node, toolNodeSystem, hcalls] at hstep
    exact ToolNode.faithful_step hconfig a hs hstep
  have hinit : ∀ s, node.init s →
      ToolNode.Faithful tools (resolveApprovalMode thread = .manual) calls decide s := by
    rintro s rfl
    exact ToolNode.faithful_initial metrics
  refine ⟨calls.zipIdx.map fun entry => outputOf tools (resolveApprovalMode thread = .manual)
    (decide entry.2) entry.1, ?_, fun s hs => ?_, fun s hs hdone => ?_⟩
  · unfold runToolsNode
    rw [hcalls]
    exact runToolCalls_resumeValues 0 calls
  · refine Transition.System.inevitable_of_rank Nat.lt_wfRel.wf (ToolNode.left calls)
      hkeep (fun s hs => ?_) (fun s a t _ _ hstep => ?_) (hinit s hs)
    · rcases ToolNode.exists_step hconfig hs with hdone | ⟨a, t, hstep⟩
      · exact .inl hdone
      · refine .inr ⟨a, t, trivial, ?_⟩
        simp only [node, toolNodeSystem, hcalls]
        exact hstep
    · simp only [node, toolNodeSystem, hcalls] at hstep
      exact ToolNode.left_step hstep
  · exact ToolNode.outputs_of_done (hs.invariant hinit hkeep) hdone

/-- The default graph without guards. -/
def unguardedGraph : Graph :=
  { defaultGraph with
    config := { defaultConfig with
      maxToolOutputChars := 0
      repeatToolCallLimit := 0
      dedupeSimilarity := 0
      maxCallsPerRun := 0 } }

/-- Two tools: one repeats its arguments, and one asks before it sends a file. -/
def twoTools : Tools
  | "echo" => some ⟨false, fun args => .returned (.obj args)⟩
  | "send_file" => some ⟨true, fun _ => .file "/ws/a.txt" none⟩
  | _ => none

/-- A call is answered with its arguments, a denied one and an unknown one with errors. -/
theorem toolNode_refines_runToolsNode_three :
    unguardedGraph.config.Unguarded ∧
    let calls : List ToolCall := [⟨some "c1", "echo", [("text", .str "hi")]⟩,
      ⟨some "c2", "send_file", []⟩, ⟨some "c3", "nope", []⟩]
    let thread := AgentState.asked {} "" calls
    ∀ s, (toolNodeSystem unguardedGraph twoTools thread .fresh [false]).Reachable s →
      s.Done calls → s.messages = [.tool "\x7b\"text\": \"hi\"\x7d" "c1",
        .tool "user denied tool execution" "c2", .tool "unknown tool: nope" "c3"] := by
  have hconfig : unguardedGraph.config.Unguarded := by
    constructor <;> decide
  refine ⟨hconfig, ?_⟩
  intro calls thread s hs hdone
  obtain ⟨outputs, houtputs, -, hall⟩ :=
    toolNode_refines_runToolsNode hconfig twoTools {} "" calls (fun _ => false) .fresh
  obtain ⟨hmessages, -⟩ := hall s hs hdone
  have hrun : (runToolsNode twoTools thread [false]).map (List.map Prod.fst) = .ok
      [.tool "\x7b\"text\": \"hi\"\x7d" "c1", .tool "user denied tool execution" "c2",
        .tool "unknown tool: nope" "c3"] := rfl
  rw [show runToolsNode twoTools thread [false] = .ok outputs from houtputs] at hrun
  rw [hmessages]
  exact Except.ok.inj hrun

end Refinement

end GraphAgent
