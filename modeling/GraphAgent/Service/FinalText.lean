import GraphAgent.Core.Approvals
import GraphAgent.Core.RunHistory
import GraphAgent.Service.EventStream
import GraphAgent.Transports.Consumers

/-!
# The final text of a run

The `DoneEvent` of a run carries the content of the last assistant message. A consumer that
has read the stream knows it already: it is what was streamed since the last event of a tool,
unless the model broke off or the run was stopped by its limit. Only the metrics of the run
stand between the two. A scheduled job delivers this text behind the files of its tools.
-/

namespace GraphAgent

/-- The text of a token. -/
def Event.delta : Event → Option String
  | .token delta => some delta
  | _ => none

def Event.isToken (event : Event) : Bool := event.delta.isSome

def Event.isError : Event → Bool
  | .error _ _ => true
  | _ => false

/-- The text that is streamed after the last event that is not a token. -/
def closingText (events : List Event) : String :=
  String.join ((events.rtakeWhile Event.isToken).filterMap Event.delta)

/-- No event tells of an error. -/
def Flawless (events : List Event) : Prop := ∀ event ∈ events, event.isError = false

/-- How the events of a run and its final text belong together: the text closes the stream, or
it is the notice of the limit, or it tells of the error that ends the stream. -/
inductive Closes (g : Graph) : List Event → String → Prop
  | reply {events : List Event} (flawless : Flawless events) :
      Closes g events (closingText events)
  | limit {events : List Event} (flawless : Flawless events) :
      Closes g (events ++ [.token (limitMessage g.config.maxIterations)])
        (limitMessage g.config.maxIterations)
  | failed {events : List Event} {exc : String} (flawless : Flawless events) :
      Closes g (events ++ [.error exc (some "llm_error")]) ("LLM error: " ++ exc)

section Streams

variable {events later : List Event}

theorem flawless_append : Flawless (events ++ later) ↔ Flawless events ∧ Flawless later :=
  List.forall_mem_append

theorem flawless_of_isToken (h : ∀ event ∈ events, event.isToken = true) : Flawless events := by
  intro event hevent
  have htoken := h event hevent
  cases event <;> first | rfl | cases htoken

theorem closingText_of_isToken (h : ∀ event ∈ events, event.isToken = true) :
    closingText events = String.join (events.filterMap Event.delta) := by
  unfold closingText
  rw [List.rtakeWhile_eq_self_iff.2 h]

/-- An event that is not a token cuts the closing text off. -/
theorem closingText_append_cons {event : Event} (h : event.isToken = false) :
    closingText (events ++ event :: later) = closingText later := by
  have hcut : (events ++ event :: later).rtakeWhile Event.isToken =
      later.rtakeWhile Event.isToken := by
    induction later using List.reverseRecOn with
    | nil => exact List.rtakeWhile_concat_neg _ _ event (by simp [h])
    | append_singleton front last ih =>
        have hassoc : events ++ event :: (front ++ [last]) =
            (events ++ event :: front) ++ [last] := by simp
        rw [hassoc, List.rtakeWhile_concat, List.rtakeWhile_concat, ih]
  unfold closingText
  rw [hcut]

theorem closingText_append (h : ∃ event ∈ later, event.isToken = false) :
    closingText (events ++ later) = closingText later := by
  obtain ⟨event, hevent, htoken⟩ := h
  obtain ⟨front, back, rfl⟩ := List.append_of_mem hevent
  rw [← List.append_assoc, closingText_append_cons htoken, closingText_append_cons htoken]

/-- Events that the closing text does not depend on may stand in front. -/
theorem Closes.append {g : Graph} {text : String} (h : Closes g later text)
    (hflawless : Flawless events) (hcut : closingText (events ++ later) = closingText later) :
    Closes g (events ++ later) text := by
  cases h with
  | reply flawless =>
      rw [← hcut]
      exact .reply (flawless_append.2 ⟨hflawless, flawless⟩)
  | limit flawless =>
      rw [← List.append_assoc]
      exact .limit (flawless_append.2 ⟨hflawless, flawless⟩)
  | failed flawless =>
      rw [← List.append_assoc]
      exact .failed (flawless_append.2 ⟨hflawless, flawless⟩)

end Streams

section Tools

variable {g : Graph}

/-- The event tells of a tool. -/
def Event.ofTool : Event → Bool
  | .toolCall .. => true
  | .toolResult .. => true
  | .file .. => true
  | _ => false

theorem not_isToken_of_ofTool {event : Event} (h : event.ofTool = true) :
    event.isToken = false := by
  cases event <;> first | rfl | cases h

theorem flawless_of_ofTool {events : List Event} (h : ∀ event ∈ events, event.ofTool = true) :
    Flawless events := by
  intro event hevent
  have htool := h event hevent
  cases event <;> first | rfl | cases htool

/-- What a call adds to the events of a pass: events of tools, and one at least unless it waits
for an approval. -/
structure Adds (before after : Pass) (waits : Bool) (new : List Event) : Prop where
  events : after.events = before.events ++ new
  tools : ∀ event ∈ new, event.ofTool = true
  some : waits = false → new ≠ []

theorem events_counted (pass : Pass) (signature : String × String) :
    (pass.counted g signature).events = pass.events := by
  unfold Pass.counted
  split <;> rfl

theorem adds_admitGuarded (callId name : String) (args : Args) (pass : Pass) :
    ∃ new, Adds pass (admitGuarded g callId name args pass).2
      (admitGuarded g callId name args pass).1.isInterrupted new := by
  unfold admitGuarded
  dsimp only
  split
  · refine ⟨[_], congrArg (· ++ [_]) (events_counted pass _), ?_, fun _ => List.cons_ne_nil _ _⟩
    exact List.forall_mem_singleton.2 rfl
  · refine ⟨[_], congrArg (· ++ [_]) (events_counted pass _), ?_, fun _ => List.cons_ne_nil _ _⟩
    exact List.forall_mem_singleton.2 rfl

theorem adds_admitCall (manualMode : Bool) (call : ToolCall) (pass : Pass) :
    ∃ new, Adds pass (admitCall g manualMode call pass).2
      (admitCall g manualMode call pass).1.isInterrupted new := by
  have htwo : ∀ first second : Event, first.ofTool = true → second.ofTool = true →
      ∀ event ∈ [first, second], event.ofTool = true := by
    intro first second hfirst hsecond
    exact List.forall_mem_cons.2 ⟨hfirst, List.forall_mem_singleton.2 hsecond⟩
  unfold admitCall
  dsimp only
  split
  case h_1 =>
    exact ⟨[_, _], List.append_assoc _ _ _, htwo _ _ rfl rfl, fun _ => List.cons_ne_nil _ _⟩
  case h_2 spec _ =>
    split
    case h_1 =>
      exact ⟨[_, _], List.append_assoc _ _ _, htwo _ _ rfl rfl, fun _ => List.cons_ne_nil _ _⟩
    case h_2 =>
      split
      case isTrue =>
        split
        case h_1 => exact ⟨[], (List.append_nil _).symm, by simp, fun h => by cases h⟩
        case h_2 =>
          obtain ⟨new, hnew⟩ := adds_admitGuarded (g := g) call.callId call.name _ _
          exact ⟨new, hnew.events, hnew.tools, hnew.some⟩
        case h_3 =>
          exact ⟨[_], rfl, List.forall_mem_singleton.2 rfl, fun _ => List.cons_ne_nil _ _⟩
      case isFalse =>
        obtain ⟨new, hnew⟩ := adds_admitGuarded (g := g) call.callId call.name _ _
        exact ⟨new, hnew.events, hnew.tools, hnew.some⟩

/-- A pass that nothing interrupts tells of every call. -/
theorem adds_admitAll (manualMode : Bool) (calls : List ToolCall) (pass : Pass) :
    ∃ new, (admitAll g manualMode calls pass).2.events = pass.events ++ new ∧
      (∀ event ∈ new, event.ofTool = true) ∧
      (firstInterrupt (admitAll g manualMode calls pass).1 = none → calls ≠ [] → new ≠ []) := by
  induction calls generalizing pass with
  | nil => exact ⟨[], (List.append_nil _).symm, by simp, fun _ hne => absurd rfl hne⟩
  | cons call rest ih =>
      obtain ⟨first, hfirst⟩ := adds_admitCall (g := g) manualMode call pass
      obtain ⟨later, hevents, htools, -⟩ := ih (admitCall g manualMode call pass).2
      refine ⟨first ++ later, ?_, List.forall_mem_append.2 ⟨hfirst.tools, htools⟩, ?_⟩
      · rw [← List.append_assoc, ← hfirst.events]
        exact hevents
      · intro hnone _
        have hcall : (admitCall g manualMode call pass).1.isInterrupted = false := by
          rw [← Bool.not_eq_true]
          intro hinterrupted
          obtain ⟨payload, hpayload⟩ := exists_payload hinterrupted
          simp [admitAll, firstInterrupt, hpayload] at hnone
        exact List.append_ne_nil_of_left_ne_nil (hfirst.some hcall) _

theorem ofTool_settledEvents (calls : List ToolCall) (admissions : List Admission)
    (outcomes : Nat → ToolOutcome) :
    ∀ event ∈ settledEvents g calls admissions outcomes, event.ofTool = true := by
  have hsettle : ∀ call outcome, ∀ event ∈ (settle g call outcome).2, event.ofTool = true := by
    intro call outcome
    cases outcome <;> exact List.forall_mem_singleton.2 rfl
  induction calls generalizing admissions outcomes with
  | nil => simp [settledEvents]
  | cons call rest ih =>
      cases admissions with
      | nil => simp [settledEvents]
      | cons admission admissions =>
          cases admission with
          | answered content => exact ih _ _
          | interrupted payload => exact ih _ _
          | started args => exact List.forall_mem_append.2 ⟨hsettle _ _, ih _ _⟩

/-- The tools node streams events of tools, and some unless it waits for an approval. -/
theorem toolEvents_spec (r : Run) (outcomes : Nat → ToolOutcome) :
    (∀ event ∈ r.toolEvents g outcomes, event.ofTool = true) ∧
      (firstInterrupt (r.pass g).1 = none → lastToolCalls r.state.messages ≠ [] →
        r.toolEvents g outcomes ≠ []) := by
  obtain ⟨new, hevents, htools, hsome⟩ := adds_admitAll (g := g)
    (resolveApprovalMode r.state = .manual) (lastToolCalls r.state.messages)
    ⟨r.metrics, r.answers, []⟩
  rw [List.nil_append] at hevents
  unfold Run.toolEvents Run.pass
  rw [hevents]
  refine ⟨List.forall_mem_append.2 ⟨htools, ofTool_settledEvents _ _ _⟩, fun hnone hcalls => ?_⟩
  exact List.append_ne_nil_of_left_ne_nil (hsome hnone hcalls) _

end Tools

section Replies

/-- What a reply streams: its pieces of text, which make up its content. -/
theorem foldl_replyRead (chunks : List StreamChunk) (reply : Reply) :
    ∃ deltas, (chunks.foldl Reply.read reply).events = reply.events ++ deltas.map Event.token ∧
      (chunks.foldl Reply.read reply).textParts = reply.textParts ++ deltas := by
  induction chunks generalizing reply with
  | nil => exact ⟨[], by simp, by simp⟩
  | cons chunk rest ih =>
      obtain ⟨deltas, hevents, hparts⟩ := ih (reply.read chunk)
      by_cases hempty : chunk.deltaText = ""
      · refine ⟨deltas, ?_, ?_⟩
        · rw [List.foldl_cons, hevents]
          simp [Reply.read, hempty]
        · rw [List.foldl_cons, hparts]
          simp [Reply.read, hempty]
      · refine ⟨chunk.deltaText :: deltas, ?_, ?_⟩
        · rw [List.foldl_cons, hevents]
          simp [Reply.read, hempty]
        · rw [List.foldl_cons, hparts]
          simp [Reply.read, hempty]

theorem isToken_map (deltas : List String) :
    ∀ event ∈ deltas.map Event.token, event.isToken = true := by
  intro event hevent
  obtain ⟨delta, -, rfl⟩ := List.mem_map.1 hevent
  rfl

theorem closingText_map (deltas : List String) :
    closingText (deltas.map Event.token) = String.join deltas := by
  rw [closingText_of_isToken (isToken_map deltas), List.filterMap_map]
  exact congrArg String.join List.filterMap_some

/-- The last assistant message is the one that has just been written. -/
theorem lastAssistantText_append_ai (messages : List Message) (content : String)
    (calls : List ToolCall) :
    lastAssistantText (messages ++ [.ai content calls]) = some content := by
  simp [lastAssistantText, Message.ai]

/-- A reply either breaks off and calls nothing, or writes what it has streamed. -/
theorem agentNode_cases (state : AgentState) (metrics : RunMetrics) (chunks : List StreamChunk)
    (error : Option String) : ∃ deltas : List String,
      (∃ exc, (agentNode state metrics chunks error).events =
          deltas.map Event.token ++ [.error exc (some "llm_error")] ∧
        (agentNode state metrics chunks error).write.messages =
          some (.append [.ai ("LLM error: " ++ exc) []])) ∨
      (∃ calls, (agentNode state metrics chunks error).events = deltas.map Event.token ∧
        (agentNode state metrics chunks error).write.messages =
          some (.append [.ai (String.join deltas) calls])) := by
  obtain ⟨deltas, hevents, hparts⟩ := foldl_replyRead chunks ⟨[], [], metrics, []⟩
  refine ⟨deltas, ?_⟩
  cases error with
  | some exc => exact Or.inl ⟨exc, congrArg (· ++ [_]) hevents, rfl⟩
  | none =>
      have hcontent : String.join (chunks.foldl Reply.read ⟨[], [], metrics, []⟩).textParts =
          String.join deltas := congrArg String.join hparts
      refine Or.inr ⟨(chunks.foldl Reply.read ⟨[], [], metrics, []⟩).toolCalls, hevents, ?_⟩
      rw [← hcontent]
      rfl

end Replies

section Runs

variable {g : Graph} {r next : Run} {sessionId : String} {events later front : List Event}
  {finalText raised : Option String}

/-- The tools node has calls to execute. -/
def Run.Asking (r : Run) : Prop := r.node = .tools → lastToolCalls r.state.messages ≠ []

theorem Run.Asking.step {act : Act} (h : r.Asking) (taken : r.step g act = some next) :
    next.Asking := by
  intro hnode
  cases act with
  | compact summary =>
      obtain ⟨-, rfl⟩ := Run.step_compact taken
      rcases (compactStep_spec (g := g) r summary).2.2 with hagent | hfailed
      · rw [hagent] at hnode
        cases hnode
      · rw [hfailed] at hnode
        cases hnode
  | reply chunks error =>
      obtain ⟨-, rfl⟩ := Run.step_reply taken
      unfold Run.returns shouldContinue at hnode
      dsimp only at hnode
      split at hnode
      · cases hnode
      · next hcalls => exact fun hnil => hcalls (List.isEmpty_iff.2 hnil)
  | tools outcomes =>
      obtain ⟨⟨htools, -⟩, rfl⟩ := Run.step_tools taken
      rcases (toolsStep_cases (g := g) r outcomes).2 with ⟨-, hstate, -⟩ | ⟨hcompact, -⟩
      · rw [hstate]
        exact h htools
      · rw [hcompact] at hnode
        cases hnode
  | limit =>
      obtain ⟨-, rfl⟩ := Run.step_limit taken
      cases hnode
  | resume approvalId approved =>
      rcases Run.step_resume taken with ⟨-, rfl⟩ | ⟨_, -, rfl⟩
      · exact h hnode
      · exact h hnode
  | message input =>
      obtain rfl := Option.some.inj taken
      cases hnode

/-- What is still to come of a run, by the node that it is about to execute. -/
def Ending (g : Graph) (r : Run) (front : List Event) (finalText : Option String) : Prop :=
  match r.node with
  | .compact | .agent => ∃ text, finalText = some text ∧ Closes g front text
  | .tools => r.waiting = none ∧ (∃ event ∈ front, event.isToken = false) ∧
      ∃ text, finalText = some text ∧ Closes g front text
  | .limit => front = [.token (limitMessage g.config.maxIterations)] ∧
      finalText = some (limitMessage g.config.maxIterations)
  | .done => front = [] ∧ finalText = lastAssistantText r.state.messages
  | .failed => False

/-- A stream that does not raise ends with an event. -/
theorem Run.Yields.ne_nil (h : r.Yields g sessionId events raised) :
    raised = none → events ≠ [] := by
  induction h with
  | node _ _ _ ih => exact fun hnone => List.append_ne_nil_of_right_ne_nil _ (ih hnone)
  | waiting => exact fun _ => List.cons_ne_nil _ _
  | done => exact fun _ => List.append_ne_nil_of_right_ne_nil _ (List.cons_ne_nil _ _)
  | cancelled => exact fun _ => List.append_ne_nil_of_right_ne_nil _ (List.cons_ne_nil _ _)
  | raised => exact fun hnone => absurd hnone (Option.some_ne_none _)

theorem split_concat {last : Event} (hlater : later ≠ []) (h : events ++ later = front ++ [last]) :
    ∃ rest, later = rest ++ [last] ∧ front = events ++ rest := by
  obtain rfl | ⟨rest, other, rfl⟩ := List.eq_nil_or_concat later
  · exact absurd rfl hlater
  · rw [List.concat_eq_append, ← List.append_assoc] at h
    obtain ⟨hfront, hlast⟩ := List.append_inj' h rfl
    exact ⟨rest, by rw [List.concat_eq_append, hlast], hfront.symm⟩

/-- After its compaction a run goes on as before it. -/
theorem Ending.compact {summary : Except String String}
    (taken : r.step g (.compact summary) = some next) (h : Ending g next front finalText) :
    Ending g r front finalText := by
  obtain ⟨hnode, rfl⟩ := Run.step_compact taken
  unfold Ending at h ⊢
  rw [hnode]
  rcases (compactStep_spec (g := g) r summary).2.2 with hagent | hfailed
  · rw [hagent] at h
    exact h
  · rw [hfailed] at h
    exact h.elim

/-- A reply ends the run with its text, or it comes before the tools or the limit. -/
theorem Ending.reply {chunks : List StreamChunk} {error : Option String}
    (taken : r.step g (.reply chunks error) = some next) (h : Ending g next front finalText) :
    Ending g r ((agentNode r.state r.metrics chunks error).events ++ front) finalText := by
  obtain ⟨hnode, rfl⟩ := Run.step_reply taken
  unfold Ending
  rw [hnode]
  have hmessages : ∀ added, (agentNode r.state r.metrics chunks error).write.messages =
      some (.append added) → (r.state.writeNode
        (agentNode r.state r.metrics chunks error).write).messages = r.state.messages ++ added := by
    intro added hwrite
    unfold AgentState.writeNode
    rw [hwrite]
    rfl
  unfold Ending Run.returns at h
  dsimp only at h
  obtain ⟨deltas, ⟨exc, hevents, hwrite⟩ | ⟨calls, hevents, hwrite⟩⟩ :=
    agentNode_cases r.state r.metrics chunks error
  · rw [shouldContinue, hmessages _ hwrite, lastToolCalls_append_ai,
      lastAssistantText_append_ai] at h
    obtain ⟨rfl, rfl⟩ := h
    rw [hevents, List.append_nil]
    exact ⟨_, rfl, .failed (flawless_of_isToken (isToken_map deltas))⟩
  · rw [hevents]
    have hflawless := flawless_of_isToken (isToken_map deltas)
    rw [shouldContinue, hmessages _ hwrite, lastToolCalls_append_ai,
      lastAssistantText_append_ai] at h
    split_ifs at h with hnil hlimit
    · obtain ⟨rfl, rfl⟩ := h
      rw [List.append_nil, ← closingText_map deltas]
      exact ⟨_, rfl, .reply hflawless⟩
    · obtain ⟨rfl, rfl⟩ := h
      exact ⟨_, rfl, .limit hflawless⟩
    · obtain ⟨-, hcut, text, rfl, hcloses⟩ := h
      exact ⟨text, rfl, hcloses.append hflawless (closingText_append hcut)⟩

/-- The tools node streams something that is not a token before the run goes on. -/
theorem Ending.tools {outcomes : Nat → ToolOutcome}
    (hasking : r.Asking) (taken : r.step g (.tools outcomes) = some next)
    (streams : r.Streams g (.tools outcomes) events) (h : Ending g next front finalText) :
    Ending g r (events ++ front) finalText := by
  obtain ⟨⟨hnode, hwaiting⟩, rfl⟩ := Run.step_tools taken
  obtain ⟨htools, hsome⟩ := toolEvents_spec (g := g) r outcomes
  cases streams with
  | interrupted interrupt order =>
      unfold Ending toolsStep at h
      rw [interrupt] at h
      dsimp only at h
      rw [hnode] at h
      exact absurd h.1 (Option.some_ne_none _)
  | tools uninterrupted order =>
      unfold Ending toolsStep at h
      rw [uninterrupted] at h
      obtain ⟨text, rfl, hcloses⟩ := h
      have hevents : ∀ event ∈ events, event.ofTool = true :=
        fun event hevent => htools event (order.subset hevent)
      obtain ⟨front', event, rfl⟩ : ∃ front' event, events = front' ++ [event] := by
        have hne := hsome uninterrupted (hasking hnode)
        obtain rfl | ⟨front', event, hconcat⟩ := List.eq_nil_or_concat events
        · exact absurd order.nil_eq.symm hne
        · exact ⟨front', event, hconcat.trans List.concat_eq_append⟩
      have hevent := not_isToken_of_ofTool (hevents event (by simp))
      unfold Ending
      rw [hnode]
      refine ⟨hwaiting, ⟨event, by simp, hevent⟩, text, rfl, ?_⟩
      apply hcloses.append (flawless_of_ofTool hevents)
      rw [List.append_assoc]
      exact closingText_append_cons hevent

/-- The limit node streams its notice. -/
theorem Ending.limit (taken : r.step g .limit = some next) (h : Ending g next front finalText) :
    Ending g r ((limitNode g r.state r.metrics).events ++ front) finalText := by
  obtain ⟨hnode, rfl⟩ := Run.step_limit taken
  obtain ⟨rfl, rfl⟩ := h
  unfold Ending
  rw [hnode]
  refine ⟨rfl, ?_⟩
  have hmessages : (r.returns (limitNode g r.state r.metrics) fun _ => .done).state.messages =
      r.state.messages ++ ((lastToolCalls r.state.messages).map (fun call =>
        interrupted call.callId) ++ [.ai (limitMessage g.config.maxIterations) []]) := rfl
  rw [hmessages, ← List.append_assoc, lastAssistantText_append_ai]

/-- A stream that ends with a `DoneEvent`, without the metrics in front of it. -/
theorem Run.Yields.ending (h : r.Yields g sessionId events raised) (hraised : raised = none)
    (hasking : r.Asking) (hlast : events = front ++ [.done sessionId finalText]) :
    ∃ streamed, ∃ last : Run, ∃ durations, front = streamed ++ last.report g durations ∧
      Ending g r streamed finalText := by
  induction h generalizing front with
  | node taken streams rest ih =>
      obtain ⟨tail, hlater, rfl⟩ := split_concat (rest.ne_nil hraised) hlast
      obtain ⟨streamed, last, durations, rfl, hnext⟩ := ih hraised (hasking.step taken) hlater
      refine ⟨_ ++ streamed, last, durations, (List.append_assoc _ _ _).symm, ?_⟩
      cases streams with
      | compact summary => exact hnext.compact taken
      | reply chunks error => exact hnext.reply taken
      | interrupted interrupt order =>
          exact hnext.tools hasking taken (.interrupted interrupt order)
      | tools uninterrupted order => exact hnext.tools hasking taken (.tools uninterrupted order)
      | limit => exact hnext.limit taken
  | waiting interrupt =>
      obtain ⟨-, hevent⟩ := List.append_inj' ((List.nil_append _).trans hlast) rfl
      cases hevent
  | @done r ended durations =>
      obtain ⟨rfl, hevent⟩ := List.append_inj' hlast rfl
      refine ⟨[], r, durations, rfl, ?_⟩
      unfold Ending
      rw [ended]
      exact ⟨rfl, (Event.done.inj (List.cons.inj hevent).1).2.symm⟩
  | cancelled taken streams before =>
      obtain ⟨-, hevent⟩ := List.append_inj' hlast rfl
      cases hevent
  | raised => exact absurd hraised (Option.some_ne_none _)

theorem asking_of_reachable {s : Conversation} (h : (conversationSystem g).Reachable s) :
    s.run.Asking := by
  apply h.invariant
  · rintro s ⟨state, rfl⟩ hnode
    cases hnode
  · intro s act s' hs _ hstep
    obtain ⟨run, hrun, rfl⟩ := Option.map_eq_some_iff.1 hstep
    exact hs.step hrun

/-- A call that reads a file. -/
def lookUp : ToolCall := ⟨some "c1", "filesystem", []⟩

/-- A configuration that asks for metrics. -/
def measuredGraph : Graph :=
  { defaultGraph with config := { defaultConfig with latencyMetrics := true } }

/-- The run of a message that reads a file and then answers. -/
def lookedUp : Run := Run.start (AgentState.writeInput {} (textInput "read it"))

/-- What this run streams before its metrics. -/
def lookedUpEvents : List Event :=
  [.token "I look.", .toolCall "c1" "filesystem" [],
    .toolResult "c1" "filesystem" (.str "notes") false, .token "All ", .token "good."]

/-- Two replies and one call, and no tokens counted. -/
def lookedUpMetrics : Event := .metrics 2 2 1 700 20 730 none none

theorem lookedUp_yields : lookedUp.Yields measuredGraph "s1"
    ((lookedUpEvents ++ [lookedUpMetrics]) ++ [.done "s1" (some "All good.")]) none := by
  refine @Run.Yields.node _ _ _ _ _ [] _ _ rfl (.compact (.ok "")) ?_
  refine .node rfl (.reply [{ deltaText := "I look.", toolCalls := [lookUp] }] none) ?_
  refine @Run.Yields.node _ _ _ _ _ [.toolCall "c1" "filesystem" [],
    .toolResult "c1" "filesystem" (.str "notes") false] _ _ rfl
    (@Run.Streams.tools _ _ (fun _ => .returned (.str "notes")) _ rfl (.refl _)) ?_
  refine @Run.Yields.node _ _ _ _ _ [] _ _ rfl (.compact (.ok "")) ?_
  refine .node rfl (.reply [{ deltaText := "All " }, { deltaText := "good." }] none) ?_
  exact .done rfl ⟨700, 20, 730⟩

end Runs

section Jobs

variable {g : Graph} {r : Run} {sessionId channel : String} {sinks : List String}
  {events front : List Event} {raised : Option String}

/-- The files that were sent, in their order. -/
def sentFiles (events : List Event) : List (String × Option String) :=
  events.filterMap fun
    | .file path caption => some (path, caption)
    | _ => none

/-- What the loop of a job has read. -/
theorem foldl_jobRead (events : List Event) (job : JobRun) :
    (events.foldl JobRun.read job).files = job.files ++ sentFiles events ∧
      (events.foldl JobRun.read job).hadError = (job.hadError || events.any Event.isError) := by
  induction events generalizing job with
  | nil => simp [sentFiles]
  | cons event rest ih =>
      obtain ⟨hfiles, herror⟩ := ih (job.read event)
      rw [List.foldl_cons, hfiles, herror]
      cases event <;> simp [JobRun.read, sentFiles, Event.isError]

/-- What a job sends for a run with the given files and final text. -/
def jobOutput (files : List (String × Option String)) (text : String) : List SinkCall :=
  files.map (fun file => .sendFile file.1 file.2) ++
    if text ≠ "" then [.send text] else if files.isEmpty then [.send "(no output)"] else []

/-- `CronScheduler.execute_job` on a stream that may raise: the exception leaves the loop over
the events, and nothing is sent. -/
def executeJobOn (outputChannel : Option String) (sinks : List String) (events : List Event) :
    Option String → List SinkCall
  | none => executeJob outputChannel sinks events
  | some _ => []

theorem executeJob_done (hchannel : channel ∈ sinks) (text : String) :
    executeJob (some channel) sinks (front ++ [.done sessionId (some text)]) =
      if front.any Event.isError then [] else jobOutput (sentFiles front) text := by
  obtain ⟨hfiles, herror⟩ := foldl_jobRead front ⟨none, [], false⟩
  unfold executeJob
  dsimp only
  rw [List.foldl_append, if_neg (not_not_intro hchannel)]
  simp only [List.foldl_cons, List.foldl_nil, JobRun.read, hfiles, herror]
  rfl

/-- The metrics are neither a file nor an error. -/
theorem jobRead_report (last : Run) (durations : Durations) :
    sentFiles (front ++ last.report g durations) = sentFiles front ∧
      (front ++ last.report g durations).any Event.isError = front.any Event.isError := by
  unfold Run.report
  split_ifs
  · constructor
    · unfold sentFiles
      rw [List.filterMap_append]
      exact List.append_nil _
    · rw [List.any_append]
      exact Bool.or_false _
  · rw [List.append_nil]
    exact ⟨rfl, rfl⟩

/-- A run that waits for nothing, is not cancelled and does not raise ends with its final text. -/
theorem Run.Yields.exists_done (h : r.Yields g sessionId events raised) (hraised : raised = none)
    (hunattended : r.Unattended) (hfinished : ∀ id, .cancelled id ∉ events) :
    ∃ front finalText, events = front ++ [.done sessionId finalText] := by
  induction h with
  | @node r next act events later raised taken streams _ ih =>
      obtain ⟨front, finalText, rfl⟩ := ih hraised (hunattended.step streams taken)
        fun id hmem => hfinished id (List.mem_append_right _ hmem)
      exact ⟨events ++ front, finalText, (List.append_assoc _ _ _).symm⟩
  | waiting interrupt =>
      rw [hunattended.running] at interrupt
      cases interrupt
  | done => exact ⟨_, _, rfl⟩
  | cancelled => exact absurd (List.mem_append_right _ List.mem_cons_self) (hfinished sessionId)
  | raised => exact absurd hraised (Option.some_ne_none _)

/-- Somewhere in the run the model raises in place of a summary. -/
def SummaryRaises (g : Graph) (r : Run) (exc : String) : Prop :=
  ∃ acts, ∃ last next : Run, (runSystem g).exec r acts = some last ∧
    last.step g (.compact (.error exc)) = some next ∧ next.node = .failed

/-- Nothing else makes a stream raise. -/
theorem Run.Yields.summaryRaises {exc : String} (h : r.Yields g sessionId events raised)
    (hraised : raised = some exc) : SummaryRaises g r exc := by
  induction h with
  | @node r next act events later raised taken streams _ ih =>
      obtain ⟨acts, last, failing, hexec, hfails⟩ := ih hraised
      have htaken : (runSystem g).step r act = some next := taken
      refine ⟨act :: acts, last, failing, ?_, hfails⟩
      rw [Transition.System.exec_cons htaken, hexec]
  | waiting => cases hraised
  | done => cases hraised
  | cancelled => cases hraised
  | @raised r next exc' taken failed =>
      obtain rfl := Option.some.inj hraised
      exact ⟨[], r, next, rfl, taken, failed⟩

/-- What a job streams that sends a report. -/
def reportEvents : List Event :=
  [.toolCall "c1" "send_file" [], .file "report.pdf" none, .token "Here it is.",
    .done "cron" (some "Here it is.")]

/-- The input of the job. -/
def reportInput : RunInput := ⟨toMessages (.text "report"), "cron", some .auto, none⟩

theorem report_yields : (Run.start (AgentState.writeInput {} reportInput)).Yields defaultGraph
    "cron" reportEvents none := by
  refine @Run.Yields.node _ _ _ _ _ [] _ _ rfl (.compact (.ok "")) ?_
  refine @Run.Yields.node _ _ _ _ _ [] _ _ rfl
    (.reply [{ toolCalls := [⟨some "c1", "send_file", []⟩] }] none) ?_
  refine @Run.Yields.node _ _ _ _ _ [.toolCall "c1" "send_file" [], .file "report.pdf" none] _ _
    rfl (@Run.Streams.tools _ _ (fun _ => .file "report.pdf" none) _ rfl (.refl _)) ?_
  refine @Run.Yields.node _ _ _ _ _ [] _ _ rfl (.compact (.ok "")) ?_
  exact .node rfl (.reply [{ deltaText := "Here it is." }] none) (.done rfl ⟨600, 10, 640⟩)

end Jobs

end GraphAgent
