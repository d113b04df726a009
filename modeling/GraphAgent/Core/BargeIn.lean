import GraphAgent.Core.RunHistory
import GraphAgent.Core.ToolPass

/-!
# A barge-in during a round of tool calls

The tools of a round run at the same time and end in any order, and the tools
node writes their results when the last of them has ended. A run that is
cancelled before leaves the thread with the calls alone, and the next run
presents every one of them as not executed.
-/

namespace GraphAgent

variable {g : Graph}

/-- A round: the history before it and the assistant message with its calls. -/
structure RoundStart where
  before : List Message
  content : String
  calls : List ToolCall
  calls_ne : calls ≠ []

def RoundStart.ask (start : RoundStart) : Message := .ai start.content start.calls

/-- The history that the tools node finds. -/
def RoundStart.messages (start : RoundStart) : List Message := start.before ++ [start.ask]

/-- A thread during a round, the passes over its calls that have begun, and the
tools that have returned or raised, with their pass and position. -/
structure ToolRound where
  run : Run
  passes : List (List Admission)
  ended : List (Nat × Nat × ToolOutcome)

/-- A pass begins, a tool ends, the node returns, an interrupt is answered. -/
inductive RoundAct where
  | begin
  | finish (pass position : Nat) (outcome : ToolOutcome)
  | commit
  | resume (approvalId : String) (approved : Bool)

namespace ToolRound

/-- The tool of a call was started in a pass. -/
def startedIn (s : ToolRound) (pass position : Nat) : Bool :=
  (s.passes[pass]?.bind fun admissions => admissions[position]?).any Admission.isStarted

/-- How the tool of a call ended in a pass. -/
def outcome? (s : ToolRound) (pass position : Nat) : Option ToolOutcome :=
  (s.ended.find? fun entry => entry.1 = pass && entry.2.1 = position).map fun entry => entry.2.2

/-- The node is interrupted as soon as a call waits for its approval. -/
def begun (g : Graph) (run : Run) : Run :=
  match firstInterrupt (run.pass g).1 with
  | some payload => { run with metrics := (run.pass g).2.metrics, waiting := some payload }
  | none => run

/-- Nothing waits for an approval, and every started tool of the pass has ended. -/
def complete (g : Graph) (s : ToolRound) : Bool :=
  (firstInterrupt (s.run.pass g).1).isNone &&
    (s.run.pass g).1.zipIdx.all fun entry =>
      !entry.1.isStarted || (s.outcome? s.run.answers.length entry.2).isSome

def step (g : Graph) (s : ToolRound) : RoundAct → Option ToolRound
  | .begin =>
      if s.run.node = .tools ∧ s.run.waiting = none ∧ s.passes.length = s.run.answers.length then
        some { s with run := begun g s.run, passes := s.passes ++ [(s.run.pass g).1] }
      else none
  | .finish pass position outcome =>
      if s.startedIn pass position = true ∧ (s.outcome? pass position).isNone then
        some { s with ended := s.ended ++ [(pass, position, outcome)] }
      else none
  | .commit =>
      if s.run.node = .tools ∧ s.run.waiting = none ∧
          s.passes.length = s.run.answers.length + 1 ∧ s.complete g = true then
        some { s with run := toolsStep g s.run fun position =>
          (s.outcome? s.run.answers.length position).getD (.returned .null) }
      else none
  | .resume approvalId approved =>
      (s.run.step g (.resume approvalId approved)).map fun run => { s with run := run }

end ToolRound

/-- The rounds that start with the given assistant message. -/
def roundSystem (g : Graph) (start : RoundStart) : Transition.System ToolRound RoundAct where
  init s := s.run.node = .tools ∧ s.run.waiting = none ∧ s.run.answers = [] ∧
    s.run.state.messages = start.messages ∧ s.passes = [] ∧ s.ended = []
  step := ToolRound.step g

/-- What a later run presents to the model as the result of the call at a
position, when messages have been added to the thread since. -/
def presented (start : RoundStart) (s : ToolRound) (added : List Message) (position : Nat) :
    Option Message :=
  (repairToolCallPairs (s.run.state.messages ++ added))[
    (repairToolCallPairs start.before).length + 1 + position]?

/-- The tool of a call has returned or raised, with a text of its own. -/
def Finished (g : Graph) (s : ToolRound) (position : Nat) (call : ToolCall) : Prop :=
  (∃ pass outcome, (pass, position, outcome) ∈ s.ended) ∧
    ∀ pass outcome, (pass, position, outcome) ∈ s.ended →
      (settle g call outcome).1 ≠ interrupted call.callId

/-- No call whose tool has ended is presented as not executed. -/
def NoneDenied (g : Graph) (start : RoundStart) (s : ToolRound) (added : List Message) : Prop :=
  ∀ position call, start.calls[position]? = some call → Finished g s position call →
    presented start s added position ≠ some (interrupted call.callId)

section Texts

theorem head_append {text : String} {c : Char} (h : text.toList.head? = some c) (rest : String) :
    (text ++ rest).toList.head? = some c := by
  rw [String.toList_append, List.head?_append, h]
  rfl

/-- Truncation keeps the first character of a text. -/
theorem head_toolMessageContent {text : String} {c : Char} (h : text.toList.head? = some c)
    (maxChars : Int) : (toolMessageContent maxChars (.str text)).toList.head? = some c := by
  unfold toolMessageContent
  dsimp only
  split
  case isFalse => exact h
  case isTrue hlong =>
    apply head_append
    apply head_append
    apply head_append
    rw [String.toList_ofList, List.head?_take, if_neg (by omega)]
    exact h

theorem head_interruptedToolResult : interruptedToolResult.toList.head? = some 'T' := by
  apply head_append
  rfl

theorem ne_interruptedToolResult {text : String} {c : Char} (h : text.toList.head? = some c)
    (hc : c ≠ 'T') : text ≠ interruptedToolResult := by
  rintro rfl
  rw [head_interruptedToolResult] at h
  exact hc (Option.some.inj h).symm

theorem head_searchBudgetPolicy {maxCalls : Int} {call : ToolCallInfo} {state : RunState}
    {result : String} (h : (searchBudgetPolicy maxCalls call state).1.result = some result) :
    result.toList.head? = some 'w' := by
  unfold searchBudgetPolicy at h
  dsimp only at h
  split at h
  case isFalse => exact nomatch h
  case isTrue =>
    obtain rfl := Option.some.inj h
    repeat apply head_append
    rfl

theorem head_searchDedupPolicy {py : Python} {similarity : ℚ} {call : ToolCallInfo}
    {state : RunState} {result : String}
    (h : (searchDedupPolicy py similarity call state).1.result = some result) :
    result.toList.head? = some 'A' := by
  unfold searchDedupPolicy at h
  split at h
  case h_1 => exact nomatch h
  case h_2 =>
    dsimp only at h
    split at h
    case isFalse => exact nomatch h
    case isTrue =>
      obtain rfl := Option.some.inj h
      repeat apply head_append
      rfl

/-- The texts with which the policies block a call. -/
theorem head_applyPolicies {py : Python} {policies : List ToolPolicy} {call : ToolCallInfo}
    {state : RunState} {result : String}
    (h : (applyPolicies py policies call state).1.result = some result) :
    result.toList.head? = some 'A' ∨ result.toList.head? = some 'w' := by
  induction policies generalizing call state with
  | nil => exact nomatch h
  | cons policy rest ih =>
      simp only [applyPolicies] at h
      split at h
      case isFalse => exact ih h
      case isTrue =>
        split at h
        case isFalse => exact ih h
        case isTrue =>
          cases policy with
          | searchDedup similarity => exact Or.inl (head_searchDedupPolicy h)
          | searchBudget maxCalls => exact Or.inr (head_searchBudgetPolicy h)

theorem answered_admitGuarded {callId name content : String} {args : Args} {pass : Pass}
    (h : (admitGuarded g callId name args pass).1 = .answered content) :
    content ≠ interruptedToolResult := by
  unfold admitGuarded at h
  dsimp only at h
  split at h
  case isFalse => exact nomatch h
  case isTrue =>
    obtain rfl := Admission.answered.inj h
    apply ne_interruptedToolResult (c := 'r')
    · repeat apply head_append
      rfl
    · decide

/-- A call that is answered without its tool is not said to be interrupted. -/
theorem answered_admitCall {m : Bool} {call : ToolCall} {pass : Pass} {content : String}
    (hanswered : (admitCall g m call pass).1 = .answered content) :
    content ≠ interruptedToolResult := by
  have h := admitted g m call pass
  generalize admitCall g m call pass = result at h hanswered
  cases h with
  | unknown =>
      obtain rfl := Admission.answered.inj hanswered
      apply ne_interruptedToolResult (c := 'u')
      · apply head_append
        rfl
      · decide
  | blocked _ result hresult =>
      obtain rfl := Admission.answered.inj hanswered
      rcases head_applyPolicies hresult with hhead | hhead
      · exact ne_interruptedToolResult (head_toolMessageContent hhead _) (by decide)
      · exact ne_interruptedToolResult (head_toolMessageContent hhead _) (by decide)
  | unattended => exact answered_admitGuarded hanswered
  | waits => exact nomatch hanswered
  | approved => exact answered_admitGuarded hanswered
  | denied =>
      obtain rfl := Admission.answered.inj hanswered
      exact ne_interruptedToolResult (c := 'u') rfl (by decide)

end Texts

section Messages

/-- The message of a call in a pass that nothing interrupts. -/
theorem getElem?_toolMessages {calls : List ToolCall} {admissions : List Admission}
    {outcomes : Nat → ToolOutcome} {position : Nat} {call : ToolCall}
    (hlength : admissions.length = calls.length) (hnone : firstInterrupt admissions = none)
    (hcall : calls[position]? = some call) :
    (∃ content, admissions[position]? = some (.answered content) ∧
      (toolMessages g calls admissions outcomes)[position]? = some (.tool content call.callId)) ∨
    ∃ args, admissions[position]? = some (.started args) ∧
      (toolMessages g calls admissions outcomes)[position]? =
        some (settle g call (outcomes position)).1 := by
  induction calls generalizing admissions outcomes position with
  | nil => exact nomatch hcall
  | cons first rest ih =>
      cases admissions with
      | nil => exact nomatch hlength
      | cons admission admissions =>
          have hlater := Nat.succ.inj hlength
          cases position with
          | zero =>
              obtain rfl := Option.some.inj hcall
              cases admission with
              | answered content => exact Or.inl ⟨content, rfl, rfl⟩
              | interrupted payload => exact nomatch hnone
              | started args => exact Or.inr ⟨args, rfl, rfl⟩
          | succ position =>
              cases admission with
              | answered content => exact ih hlater hnone hcall
              | interrupted payload => exact nomatch hnone
              | started args => exact ih hlater hnone hcall

end Messages

section Rounds

variable {start : RoundStart} {s s' : ToolRound} {added : List Message}

theorem RoundStart.kind_ask (start : RoundStart) :
    start.ask.kind = .asks (start.calls.map ToolCall.callId) :=
  Message.kind_ai start.content start.calls_ne

/-- The tools node has written one message for each call: the text with which
the call was answered, or what its tool has returned or raised. -/
def Committed (g : Graph) (start : RoundStart) (s : ToolRound) : Prop :=
  ∃ results, s.run.state.messages = start.messages ++ results ∧
    results.map Message.kind = (start.calls.map ToolCall.callId).map .answers ∧
    ∀ position call, start.calls[position]? = some call →
      (∃ content, content ≠ interruptedToolResult ∧
        results[position]? = some (.tool content call.callId)) ∨
      ∃ pass outcome, (pass, position, outcome) ∈ s.ended ∧
        results[position]? = some (settle g call outcome).1

/-- The thread of a round before and after its tools node has returned. -/
structure InRound (g : Graph) (start : RoundStart) (s : ToolRound) : Prop where
  open_ : s.run.node = .tools → s.run.state.messages = start.messages
  closed : s.run.node ≠ .tools → Committed g start s

theorem mem_of_outcome? {pass position : Nat} {outcome : ToolOutcome}
    (h : s.outcome? pass position = some outcome) : (pass, position, outcome) ∈ s.ended := by
  obtain ⟨⟨pass', position', outcome'⟩, hfind, rfl⟩ := Option.map_eq_some_iff.mp h
  have hentry := List.find?_some hfind
  simp only [Bool.and_eq_true, decide_eq_true_eq] at hentry
  obtain ⟨rfl, rfl⟩ := hentry
  exact List.mem_of_find?_eq_some hfind

theorem InRound.begin (h : InRound g start s) (hstep : s.step g .begin = some s') :
    InRound g start s' := by
  simp only [ToolRound.step, Option.ite_none_right_eq_some, Option.some.injEq] at hstep
  obtain ⟨⟨hnode, -⟩, rfl⟩ := hstep
  have hsame : (ToolRound.begun g s.run).state = s.run.state ∧
      (ToolRound.begun g s.run).node = s.run.node := by
    unfold ToolRound.begun
    split
    · exact ⟨rfl, rfl⟩
    · exact ⟨rfl, rfl⟩
  refine ⟨fun _ => ?_, fun hne => absurd (hsame.2.trans hnode) hne⟩
  dsimp only
  rw [hsame.1]
  exact h.open_ hnode

theorem InRound.finish (h : InRound g start s) {pass position : Nat} {outcome : ToolOutcome}
    (hstep : s.step g (.finish pass position outcome) = some s') : InRound g start s' := by
  simp only [ToolRound.step, Option.ite_none_right_eq_some, Option.some.injEq] at hstep
  obtain ⟨-, rfl⟩ := hstep
  refine ⟨h.open_, fun hne => ?_⟩
  obtain ⟨results, hmessages, hkinds, hresults⟩ := h.closed hne
  refine ⟨results, hmessages, hkinds, fun other call hcall => ?_⟩
  rcases hresults other call hcall with hanswered | ⟨pass', outcome', hmem, hresult⟩
  · exact Or.inl hanswered
  · exact Or.inr ⟨pass', outcome', List.mem_append_left _ hmem, hresult⟩

/-- In a complete pass every started tool has a recorded end. -/
theorem ended_of_complete (hcomplete : s.complete g = true) {position : Nat} {args : Args}
    (hstarted : (s.run.pass g).1[position]? = some (.started args)) :
    ∃ outcome, s.outcome? s.run.answers.length position = some outcome := by
  unfold ToolRound.complete at hcomplete
  rw [Bool.and_eq_true, List.all_eq_true] at hcomplete
  have hmem : (Admission.started args, position) ∈ (s.run.pass g).1.zipIdx := by
    rw [List.mem_zipIdx_iff_getElem?]
    exact hstarted
  have hsome := hcomplete.2 _ hmem
  rw [Bool.or_eq_true] at hsome
  rcases hsome with hnot | hsome
  · exact nomatch hnot
  · exact Option.isSome_iff_exists.mp hsome

theorem InRound.commit (h : InRound g start s) (hstep : s.step g .commit = some s') :
    InRound g start s' := by
  simp only [ToolRound.step, Option.ite_none_right_eq_some, Option.some.injEq] at hstep
  obtain ⟨⟨hnode, -, -, hcomplete⟩, rfl⟩ := hstep
  have hmessages := h.open_ hnode
  have hcalls : lastToolCalls s.run.state.messages = start.calls := by
    rw [hmessages]
    exact lastToolCalls_append_ai _ _ _
  have hnone : firstInterrupt (s.run.pass g).1 = none := by
    unfold ToolRound.complete at hcomplete
    rw [Bool.and_eq_true] at hcomplete
    exact Option.isNone_iff_eq_none.mp hcomplete.1
  have hlength : (s.run.pass g).1.length = start.calls.length := by
    rw [← hcalls]
    exact admitAll_length _ _ _
  unfold toolsStep
  rw [hnone]
  refine ⟨(fun hagain => nomatch hagain), fun _ => ?_⟩
  refine ⟨toolMessages g start.calls (s.run.pass g).1 fun position =>
    (s.outcome? s.run.answers.length position).getD (.returned .null), ?_, ?_, ?_⟩
  · dsimp only [Run.returns, AgentState.writeNode, Option.elim, addMessages]
    rw [hmessages, ← hmessages, hcalls]
  · exact kind_toolMessages hlength hnone _
  · intro position call hcall
    rcases getElem?_toolMessages (g := g) hlength hnone hcall with
      ⟨content, hadmission, hresult⟩ | ⟨args, hadmission, hresult⟩
    · refine Or.inl ⟨content, ?_, hresult⟩
      unfold Run.pass at hadmission
      rw [admitAll_getElem?, hcalls, hcall, Option.map_some, Option.some.injEq] at hadmission
      exact answered_admitCall hadmission
    · obtain ⟨outcome, houtcome⟩ := ended_of_complete hcomplete hadmission
      refine Or.inr ⟨s.run.answers.length, outcome, mem_of_outcome? houtcome, ?_⟩
      rw [hresult, houtcome]
      rfl

theorem InRound.step {a : RoundAct} (h : InRound g start s) (hstep : s.step g a = some s') :
    InRound g start s' := by
  cases a with
  | begin => exact h.begin hstep
  | finish pass position outcome => exact h.finish hstep
  | commit => exact h.commit hstep
  | resume approvalId approved =>
      obtain ⟨run, hrun, rfl⟩ := Option.map_eq_some_iff.mp hstep
      rcases Run.step_resume hrun with ⟨-, rfl⟩ | ⟨payload, -, rfl⟩
      · exact h
      · exact ⟨h.open_, h.closed⟩

theorem inRound_of_reachable (h : (roundSystem g start).Reachable s) : InRound g start s := by
  apply h.invariant
  · rintro s ⟨hnode, -, -, hmessages, -, -⟩
    exact ⟨fun _ => hmessages, fun hne => absurd hnode hne⟩
  · intro s a s' hs _ hstep
    exact hs.step hstep

/-- The block of results that follows the assistant message of the round. -/
theorem presented_eq {results : List Message} {position : Nat}
    (hrepair : repairToolCallPairs (s.run.state.messages ++ added) =
      repairToolCallPairs start.before ++ start.ask :: results) :
    presented start s added position = results[position]? := by
  unfold presented
  rw [hrepair, List.getElem?_append_right (by omega)]
  have hindex : (repairToolCallPairs start.before).length + 1 + position -
      (repairToolCallPairs start.before).length = position + 1 := by
    omega
  rw [hindex, List.getElem?_cons_succ]

/-- While the tools node has not returned, every call is presented as not executed. -/
theorem presented_open (hopen : s.run.state.messages = start.messages)
    (hadded : ∀ m ∈ added.head?, m.isTool = false) {position : Nat} {call : ToolCall}
    (hcall : start.calls[position]? = some call) :
    presented start s added position = some (interrupted call.callId) := by
  have hrepair : repairToolCallPairs (s.run.state.messages ++ added) =
      repairToolCallPairs start.before ++ start.ask ::
        ((start.calls.map ToolCall.callId).map interrupted ++ repairToolCallPairs added) := by
    rw [hopen, RoundStart.messages, List.append_assoc, List.singleton_append, repair_cut rfl,
      repair_dangling start.kind_ask hadded]
  rw [presented_eq hrepair]
  have hid : ((start.calls.map ToolCall.callId).map interrupted)[position]? =
      some (interrupted call.callId) := by
    rw [List.getElem?_map, List.getElem?_map, hcall]
    rfl
  rw [List.getElem?_append_left (List.getElem?_eq_some_iff.mp hid).1]
  exact hid

/-- When the tools node has returned, every call is presented with its result. -/
theorem presented_committed {results : List Message}
    (hmessages : s.run.state.messages = start.messages ++ results)
    (hkinds : results.map Message.kind = (start.calls.map ToolCall.callId).map .answers)
    {position : Nat} {m : Message} (hm : results[position]? = some m) :
    presented start s added position = some m := by
  have hrepair : repairToolCallPairs (s.run.state.messages ++ added) =
      repairToolCallPairs start.before ++ start.ask :: (results ++ repairToolCallPairs added) := by
    rw [hmessages, RoundStart.messages, List.append_assoc, List.append_assoc,
      List.singleton_append, repair_cut rfl, repair_round start.kind_ask hkinds]
  rw [presented_eq hrepair, List.getElem?_append_left (List.getElem?_eq_some_iff.mp hm).1]
  exact hm

/-- At whatever moment of a round the run is cancelled, no call whose tool has
ended is presented as not executed exactly if the tools node has returned by then
or no tool has ended yet. The messages that later runs add start with no tool message. -/
theorem noneDenied_iff (h : (roundSystem g start).Reachable s)
    (hadded : ∀ m ∈ added.head?, m.isTool = false) :
    NoneDenied g start s added ↔ s.run.node ≠ .tools ∨
      ∀ position call, start.calls[position]? = some call → ¬ Finished g s position call := by
  have hround := inRound_of_reachable h
  by_cases hnode : s.run.node = .tools
  · have hopen := hround.open_ hnode
    constructor
    · intro hnone
      refine Or.inr fun position call hcall hfinished => ?_
      exact hnone position call hcall hfinished (presented_open hopen hadded hcall)
    · rintro (hne | hnone)
      · exact absurd hnode hne
      · intro position call hcall hfinished
        exact absurd hfinished (hnone position call hcall)
  · obtain ⟨results, hmessages, hkinds, hresults⟩ := hround.closed hnode
    refine ⟨fun _ => Or.inl hnode, fun _ position call hcall hfinished hpresented => ?_⟩
    rcases hresults position call hcall with ⟨content, hcontent, hresult⟩ | ⟨pass, outcome, hmem, hresult⟩
    · rw [presented_committed hmessages hkinds hresult] at hpresented
      apply hcontent
      simpa [Message.tool, interrupted] using hpresented
    · rw [presented_committed hmessages hkinds hresult, Option.some.injEq] at hpresented
      exact hfinished.2 pass outcome hmem hpresented

/-- A round of two calls, as its tools node finds it. -/
def twoCalls : RoundStart where
  before := toMessages (.text "save it and send it")
  content := ""
  calls := [⟨some "c0", "filesystem", []⟩, ⟨some "c1", "send_file", []⟩]
  calls_ne := by decide

def twoCallsOpen : ToolRound :=
  ⟨⟨.tools, { messages := twoCalls.messages }, .fresh, [], none⟩, [], []⟩

/-- The file is saved and sent before the next message arrives. -/
theorem noneDenied_after_return : ∃ s, (roundSystem defaultGraph twoCalls).Reachable s ∧
    s.ended.length = 2 ∧
    NoneDenied defaultGraph twoCalls s (toMessages (.text "wait")) := by
  have hreach : (roundSystem defaultGraph twoCalls).Reachable _ :=
    Transition.System.reachable_of_exec (s := twoCallsOpen) [.begin,
      .finish 0 1 (.file "notes.txt" none), .finish 0 0 (.returned (.str "saved")), .commit]
      ⟨rfl, rfl, rfl, rfl, rfl, rfl⟩ rfl
  refine ⟨_, hreach, rfl, ?_⟩
  apply (noneDenied_iff hreach _).mpr
  · exact Or.inl (by decide)
  · rintro m ⟨⟩
    rfl

/-- The file has been saved when the next message arrives, but is not sent yet. -/
theorem finished_call_denied : ∃ s, (roundSystem defaultGraph twoCalls).Reachable s ∧
    s.ended = [(0, 0, .returned (.str "saved"))] ∧
    presented twoCalls s (toMessages (.text "wait")) 0 = some (interrupted "c0") ∧
    ¬ NoneDenied defaultGraph twoCalls s (toMessages (.text "wait")) := by
  have hreach : (roundSystem defaultGraph twoCalls).Reachable _ :=
    Transition.System.reachable_of_exec (s := twoCallsOpen) [.begin,
      .finish 0 0 (.returned (.str "saved"))] ⟨rfl, rfl, rfl, rfl, rfl, rfl⟩ rfl
  refine ⟨_, hreach, rfl, rfl, fun h => ?_⟩
  apply h 0 ⟨some "c0", "filesystem", []⟩ rfl _ rfl
  refine ⟨⟨0, _, List.mem_singleton_self _⟩, ?_⟩
  intro pass outcome hmem hsame
  obtain ⟨rfl, -, rfl⟩ : pass = 0 ∧ 0 = 0 ∧ outcome = .returned (.str "saved") := by
    simpa using List.mem_singleton.mp hmem
  have hne : "saved" ≠ interruptedToolResult := ne_interruptedToolResult (c := 's') rfl (by decide)
  have hmessage : Message.tool "saved" "c0" = interrupted "c0" := hsame
  apply hne
  simpa [Message.tool, interrupted] using hmessage

end Rounds

end GraphAgent
