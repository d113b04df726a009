import GraphAgent.Core.ToolPass

/-!
# Approvals over the life of a session

A session with the log of its approval requests, of the answers given through
`resume()` and of the tools that were executed. The graph hands an answer to the
interrupt that waits; only the id in the answer says which call was meant.
-/

namespace GraphAgent

variable {g : Graph}

/-- What is logged. A call is named by its round and its position in the round. -/
inductive Entry where
  | requested (round position : Nat) (call : ToolCall)
  | resumed (approvalId : String) (approved : Bool)
  | executed (round position : Nat) (call : ToolCall)

structure Conversation where
  run : Run
  round : Nat
  log : List Entry

/-- The tools that a pass executes. -/
def executedEntries (round : Nat) (calls : List ToolCall) (admissions : List Admission) :
    List Entry :=
  (calls.zip admissions).zipIdx.filterMap fun entry =>
    if entry.1.2.isStarted then some (.executed round entry.2 entry.1.1) else none

/-- The approval that a pass requests. -/
def requestedEntries (round : Nat) (calls : List ToolCall) (admissions : List Admission) :
    List Entry :=
  let position := admissions.findIdx Admission.isInterrupted
  (calls[position]?.map fun call => .requested round position call).toList

/-- What a step adds to the log. -/
def Conversation.entries (g : Graph) (s : Conversation) : Act → List Entry
  | .tools _ =>
      let calls := lastToolCalls s.run.state.messages
      executedEntries s.round calls (s.run.pass g).1 ++ requestedEntries s.round calls (s.run.pass g).1
  | .resume approvalId approved => [.resumed approvalId approved]
  | _ => []

/-- A reply of the model begins a round. -/
def Conversation.roundAfter (s : Conversation) : Act → Nat
  | .reply _ _ => s.round + 1
  | _ => s.round

def Conversation.step (g : Graph) (s : Conversation) (a : Act) : Option Conversation :=
  (s.run.step g a).map fun run => ⟨run, s.roundAfter a, s.log ++ s.entries g a⟩

/-- The sessions on a thread, from any state that the thread was left in. -/
def conversationSystem (g : Graph) : Transition.System Conversation Act where
  init s := ∃ state, s = ⟨⟨.done, state, .fresh, [], none⟩, 0, []⟩
  step := Conversation.step g

/-- Every execution of a tool that needs an approval comes after a request for
this very call and an approving answer to it. -/
def ApprovedBeforeExecuted (g : Graph) (log : List Entry) : Prop :=
  ∀ n round position call, log[n]? = some (.executed round position call) →
    needsApproval g call = true →
    [.requested round position call, .resumed call.callId true].Sublist (log.take n)

/-- The session is in manual mode. -/
def ManualMode (s : Conversation) (_ : Act) : Prop := resolveApprovalMode s.run.state = .manual

/-- An approving answer that reaches a waiting interrupt carries its approval id. -/
def AnswersWaiting (s : Conversation) (a : Act) : Prop :=
  ManualMode s a ∧ ∀ approvalId payload, a = .resume approvalId true →
    s.run.waiting = some payload → payload.approvalId = approvalId

section Positions

/-- The number of calls before a position that need an approval. -/
def approvalsBefore (g : Graph) (calls : List ToolCall) (position : Nat) : Nat :=
  (calls.take position).countP (needsApproval g)

theorem approvalsBefore_lt {calls : List ToolCall} {position later : Nat} {call : ToolCall}
    (hcall : calls[position]? = some call) (hneeds : needsApproval g call = true)
    (hlt : position < later) : approvalsBefore g calls position < approvalsBefore g calls later := by
  unfold approvalsBefore
  calc (calls.take position).countP (needsApproval g)
      < (calls.take (position + 1)).countP (needsApproval g) := by
        rw [List.take_add_one, hcall, List.countP_append]
        simp [hneeds]
    _ ≤ (calls.take later).countP (needsApproval g) := by
        apply List.Sublist.countP_le
        exact List.take_sublist_take_left hlt

/-- Two calls that need an approval and wait for the same answer are the same. -/
theorem position_unique {calls : List ToolCall} {position other : Nat} {call call' : ToolCall}
    (hcall : calls[position]? = some call) (hneeds : needsApproval g call = true)
    (hcall' : calls[other]? = some call') (hneeds' : needsApproval g call' = true)
    (heq : approvalsBefore g calls position = approvalsBefore g calls other) : position = other := by
  rcases Nat.lt_trichotomy position other with hlt | hsame | hgt
  · have := approvalsBefore_lt hcall hneeds hlt
    omega
  · exact hsame
  · have := approvalsBefore_lt hcall' hneeds' hgt
    omega

end Positions

section Logs

theorem mem_executedEntries {round round' position : Nat} {calls : List ToolCall}
    {admissions : List Admission} {call : ToolCall}
    (h : .executed round' position call ∈ executedEntries round calls admissions) :
    round' = round ∧ calls[position]? = some call ∧
      ∃ admission, admissions[position]? = some admission ∧ admission.isStarted = true := by
  unfold executedEntries at h
  obtain ⟨⟨⟨call', admission⟩, position'⟩, hmem, hentry⟩ := List.mem_filterMap.mp h
  dsimp only at hentry
  split at hentry
  case isFalse => exact nomatch hentry
  case isTrue hstarted =>
    simp only [Option.some.injEq, Entry.executed.injEq] at hentry
    obtain ⟨rfl, rfl, rfl⟩ := hentry
    rw [List.mem_zipIdx_iff_getElem?, List.getElem?_zip_eq_some] at hmem
    exact ⟨rfl, hmem.1, admission, hmem.2, hstarted⟩

theorem not_executed_of_mem_requested {round round' position : Nat} {calls : List ToolCall}
    {admissions : List Admission} {call : ToolCall} :
    .executed round' position call ∉ requestedEntries round calls admissions := by
  unfold requestedEntries
  intro h
  simp at h

/-- New entries keep the order of approval and execution if the approvals for
what they execute are already in the log. -/
theorem approvedBeforeExecuted_append {log entries : List Entry}
    (h : ApprovedBeforeExecuted g log)
    (hentries : ∀ round position call, .executed round position call ∈ entries →
      needsApproval g call = true →
      [.requested round position call, .resumed call.callId true].Sublist log) :
    ApprovedBeforeExecuted g (log ++ entries) := by
  intro n round position call hn hneeds
  rcases Nat.lt_or_ge n log.length with hlt | hge
  · rw [List.getElem?_append_left hlt] at hn
    rw [List.take_append_of_le_length (Nat.le_of_lt hlt)]
    exact h n round position call hn hneeds
  · rw [List.getElem?_append_right hge] at hn
    have hsub := hentries round position call (List.mem_of_getElem? hn) hneeds
    rw [List.take_append, List.take_of_length_le hge]
    exact hsub.trans (List.sublist_append_left _ _)

end Logs

section Runs

/-- What the log of a session says about the answers that its tools node has. -/
structure Logged (g : Graph) (s : Conversation) : Prop where
  idle : s.run.node ≠ .tools → s.run.answers = [] ∧ s.run.waiting = none
  answered : ∀ position call, (lastToolCalls s.run.state.messages)[position]? = some call →
    needsApproval g call = true →
    s.run.answers[approvalsBefore g (lastToolCalls s.run.state.messages) position]? = some true →
    [.requested s.round position call, .resumed call.callId true].Sublist s.log
  waiting : ∀ payload, s.run.waiting = some payload →
    ∃ position call, (lastToolCalls s.run.state.messages)[position]? = some call ∧
      needsApproval g call = true ∧ payload.approvalId = call.callId ∧
      approvalsBefore g (lastToolCalls s.run.state.messages) position = s.run.answers.length ∧
      .requested s.round position call ∈ s.log
  approved : ApprovedBeforeExecuted g s.log

/-- A thread whose next node is not the tools node has no answers to keep. -/
theorem logged_of_idle {run : Run} {round : Nat} {log : List Entry} (hanswers : run.answers = [])
    (hwaiting : run.waiting = none) (happroved : ApprovedBeforeExecuted g log) :
    Logged g ⟨run, round, log⟩ := by
  refine ⟨fun _ => ⟨hanswers, hwaiting⟩, ?_, ?_, happroved⟩
  · intro position call _ _ hanswer
    rw [hanswers] at hanswer
    exact nomatch hanswer
  · intro payload hpayload
    rw [hwaiting] at hpayload
    exact nomatch hpayload

variable {s s' : Conversation}

theorem Logged.compact (h : Logged g s) {summary : Except String String}
    (hstep : s.step g (.compact summary) = some s') : Logged g s' := by
  obtain ⟨run, hrun, rfl⟩ := Option.map_eq_some_iff.mp hstep
  obtain ⟨hnode, rfl⟩ := Run.step_compact hrun
  obtain ⟨hanswers, hwaiting⟩ := h.idle (by rw [hnode]; decide)
  have happroved : ApprovedBeforeExecuted g (s.log ++ []) := by
    rw [List.append_nil]
    exact h.approved
  apply logged_of_idle ?_ ?_ happroved
  · unfold compactStep
    split
    · exact hanswers
    · split <;> exact hanswers
  · unfold compactStep
    split
    · exact hwaiting
    · split <;> exact hwaiting

/-- A node that returns leaves the answers of the thread alone. -/
theorem Logged.returns (h : Logged g s) (hnode : s.run.node ≠ .tools) (result : NodeResult)
    (next : AgentState → Node) (round : Nat) : Logged g ⟨s.run.returns result next, round, s.log⟩ := by
  obtain ⟨hanswers, hwaiting⟩ := h.idle hnode
  exact logged_of_idle hanswers hwaiting h.approved

/-- The executions of a pass have been approved before it. -/
theorem Logged.pass (h : Logged g s) (hmanual : resolveApprovalMode s.run.state = .manual) :
    ApprovedBeforeExecuted g (s.log ++
      (executedEntries s.round (lastToolCalls s.run.state.messages) (s.run.pass g).1 ++
        requestedEntries s.round (lastToolCalls s.run.state.messages) (s.run.pass g).1)) := by
  apply approvedBeforeExecuted_append h.approved
  intro round position call hmem hneeds
  rcases List.mem_append.mp hmem with hexecuted | hrequested
  · obtain ⟨rfl, hcall, admission, hadmission, hstarted⟩ := mem_executedEntries hexecuted
    unfold Run.pass at hadmission
    rw [hmanual] at hadmission
    exact h.answered position call hcall hneeds
      (answer_of_isStarted hcall hneeds hadmission hstarted)
  · exact absurd hrequested not_executed_of_mem_requested

theorem Logged.tools (h : Logged g s) (hmanual : resolveApprovalMode s.run.state = .manual)
    {outcomes : Nat → ToolOutcome} (hstep : s.step g (.tools outcomes) = some s') :
    Logged g s' := by
  have happroved := h.pass hmanual
  obtain ⟨run, hrun, rfl⟩ := Option.map_eq_some_iff.mp hstep
  obtain ⟨⟨hnode, hnone⟩, rfl⟩ := Run.step_tools hrun
  unfold toolsStep
  split
  case h_2 => exact logged_of_idle rfl hnone happroved
  case h_1 payload hpayload =>
    refine ⟨fun hne => absurd hnode hne, ?_, ?_, happroved⟩
    · intro position call hcall hneeds hanswer
      exact (h.answered position call hcall hneeds hanswer).trans (List.sublist_append_left _ _)
    · intro payload' hpayload'
      obtain rfl : payload = payload' := Option.some.inj hpayload'
      unfold Run.pass at hpayload
      rw [hmanual] at hpayload
      obtain ⟨call, hcall, hneeds, hid, hcount⟩ := firstInterrupt_spec hpayload
      refine ⟨_, call, hcall, hneeds, hid, hcount, ?_⟩
      apply List.mem_append_right
      apply List.mem_append_right
      simp only [requestedEntries, Run.pass, hmanual, decide_true]
      rw [hcall]
      exact List.mem_singleton_self _

/-- The answer that an interrupt takes approves the call that waited, if it approves. -/
theorem Logged.answer (h : Logged g s) {payload : ApprovalPayload} {approved : Bool}
    (hpayload : s.run.waiting = some payload) {position : Nat} {call : ToolCall}
    (hcall : (lastToolCalls s.run.state.messages)[position]? = some call)
    (hneeds : needsApproval g call = true)
    (hanswer : (s.run.answers ++ [approved])[approvalsBefore g
      (lastToolCalls s.run.state.messages) position]? = some true) :
    [.requested s.round position call, .resumed call.callId true].Sublist s.log ∨
      .requested s.round position call ∈ s.log ∧ payload.approvalId = call.callId ∧
        approved = true := by
  obtain ⟨other, call', hcall', hneeds', hid, hcount, hrequested⟩ := h.waiting payload hpayload
  rcases Nat.lt_or_ge (approvalsBefore g (lastToolCalls s.run.state.messages) position)
    s.run.answers.length with hlt | hge
  · rw [List.getElem?_append_left hlt] at hanswer
    exact Or.inl (h.answered position call hcall hneeds hanswer)
  · -- only the last answer is left, and it is for the call that waited
    rw [List.getElem?_append_right hge, List.getElem?_singleton] at hanswer
    split at hanswer
    case isFalse => exact nomatch hanswer
    case isTrue hzero =>
      obtain rfl : position = other := position_unique hcall hneeds hcall' hneeds' (by omega)
      obtain rfl : call = call' := Option.some.inj (hcall.symm.trans hcall')
      exact Or.inr ⟨hrequested, hid, Option.some.inj hanswer⟩

theorem Logged.resume (h : Logged g s) {approvalId : String} {approved : Bool}
    (hguard : AnswersWaiting s (.resume approvalId approved))
    (hstep : s.step g (.resume approvalId approved) = some s') : Logged g s' := by
  have happroved : ApprovedBeforeExecuted g (s.log ++ [.resumed approvalId approved]) := by
    apply approvedBeforeExecuted_append h.approved
    intro round position call hmem
    simp at hmem
  obtain ⟨run, hrun, rfl⟩ := Option.map_eq_some_iff.mp hstep
  rcases Run.step_resume hrun with ⟨hnone, rfl⟩ | ⟨payload, hpayload, rfl⟩
  · refine ⟨h.idle, ?_, ?_, happroved⟩
    · intro position call hcall hneeds hanswer
      exact (h.answered position call hcall hneeds hanswer).trans (List.sublist_append_left _ _)
    · intro payload hpayload
      rw [hnone] at hpayload
      exact nomatch hpayload
  · refine ⟨?_, ?_, ?_, happroved⟩
    · intro hne
      rw [(h.idle hne).2] at hpayload
      exact nomatch hpayload
    · intro position call hcall hneeds hanswer
      rcases h.answer hpayload hcall hneeds hanswer with hearlier | ⟨hrequested, hid, rfl⟩
      · exact hearlier.trans (List.sublist_append_left _ _)
      · rw [← hid, hguard.2 approvalId payload rfl hpayload]
        exact (List.singleton_sublist.mpr hrequested).append (List.Sublist.refl _)
    · intro payload' hpayload'
      exact nomatch hpayload'

theorem Logged.step {a : Act} (h : Logged g s) (hguard : AnswersWaiting s a)
    (hstep : s.step g a = some s') : Logged g s' := by
  cases a with
  | compact summary => exact h.compact hstep
  | reply chunks error =>
      obtain ⟨run, hrun, rfl⟩ := Option.map_eq_some_iff.mp hstep
      obtain ⟨hnode, rfl⟩ := Run.step_reply hrun
      simp only [Conversation.entries, List.append_nil]
      exact h.returns (by rw [hnode]; decide) _ _ _
  | tools outcomes => exact h.tools hguard.1 hstep
  | limit =>
      obtain ⟨run, hrun, rfl⟩ := Option.map_eq_some_iff.mp hstep
      obtain ⟨hnode, rfl⟩ := Run.step_limit hrun
      simp only [Conversation.entries, List.append_nil]
      exact h.returns (by rw [hnode]; decide) _ _ _
  | resume approvalId approved => exact h.resume hguard hstep
  | message input =>
      obtain ⟨run, hrun, rfl⟩ := Option.map_eq_some_iff.mp hstep
      obtain rfl := Option.some.inj hrun
      simp only [Conversation.entries, List.append_nil]
      exact logged_of_idle rfl rfl h.approved

theorem logged_init (h : (conversationSystem g).init s) : Logged g s := by
  obtain ⟨state, rfl⟩ := h
  apply logged_of_idle rfl rfl
  intro n round position call hn
  exact nomatch hn

/-- In a session in manual mode whose approving answers carry the id of the
interrupt that they reach, no tool that needs an approval is executed for a call
before this call has been approved under its own id. -/
theorem approvedBeforeExecuted_of_answersWaiting
    (h : (conversationSystem g).ReachableWithin AnswersWaiting s) : ApprovedBeforeExecuted g s.log := by
  have hlogged : Logged g s := by
    apply h.invariant
    · intro s hs
      exact logged_init hs
    · intro s a s' hs hguard hstep
      exact hs.step hguard hstep
  exact hlogged.approved

/-- A call of the shell. -/
def listCall : ToolCall := ⟨some "c1", "shell", [("command", .str "ls")]⟩

/-- A later call of the shell. -/
def removeCall : ToolCall := ⟨some "c2", "shell", [("command", .str "rm -r notes")]⟩

/-- The input of a run that carries one text. -/
def textInput (text : String) : RunInput := ⟨toMessages (.text text), "s1", none, none⟩

theorem conversation_reachable {guard : Conversation → Act → Prop} {s : Conversation} (acts : List Act)
    (hexec : (conversationSystem g).exec ⟨⟨.done, {}, .fresh, [], none⟩, 0, []⟩ acts = some s)
    (hmeets : (conversationSystem g).Meets guard ⟨⟨.done, {}, .fresh, [], none⟩, 0, []⟩ acts) :
    (conversationSystem g).ReachableWithin guard s :=
  ⟨_, acts, ⟨{}, rfl⟩, Transition.System.run_of_exec hexec hmeets⟩

/-- One shell call is requested, approved and executed. -/
theorem approvedBeforeExecuted_list : ∃ s,
    (conversationSystem defaultGraph).ReachableWithin AnswersWaiting s ∧
      s.log = [.requested 1 0 listCall, .resumed "c1" true, .executed 1 0 listCall] ∧
      ApprovedBeforeExecuted defaultGraph s.log := by
  have hreach : (conversationSystem defaultGraph).ReachableWithin AnswersWaiting _ :=
    conversation_reachable [.message (textInput "list"), .compact (.ok ""),
      .reply [{ toolCalls := [listCall] }] none, .tools fun _ => .returned .null,
      .resume "c1" true, .tools fun _ => .returned .null] rfl (by
        refine Transition.System.meets_cons rfl ⟨rfl, nofun⟩ ?_
        refine Transition.System.meets_cons rfl ⟨rfl, nofun⟩ ?_
        refine Transition.System.meets_cons rfl ⟨rfl, nofun⟩ ?_
        refine Transition.System.meets_cons rfl ⟨rfl, nofun⟩ ?_
        refine Transition.System.meets_cons rfl ⟨rfl, ?_⟩ ?_
        · rintro approvalId payload ⟨⟩ ⟨⟩
          rfl
        · exact Transition.System.meets_cons rfl ⟨rfl, nofun⟩ trivial)
  exact ⟨_, hreach, rfl, approvedBeforeExecuted_of_answersWaiting hreach⟩

/-- The button of an abandoned approval, pressed late, runs another command. -/
theorem late_answer_executes_other_call : ∃ s,
    (conversationSystem defaultGraph).ReachableWithin ManualMode s ∧
      s.log = [.requested 1 0 listCall, .requested 2 0 removeCall, .resumed "c1" true,
        .executed 2 0 removeCall] ∧
      ¬ ApprovedBeforeExecuted defaultGraph s.log := by
  have hreach : (conversationSystem defaultGraph).ReachableWithin ManualMode _ :=
    conversation_reachable [.message (textInput "list"), .compact (.ok ""),
      .reply [{ toolCalls := [listCall] }] none, .tools fun _ => .returned .null,
      .message (textInput "clean up"), .compact (.ok ""),
      .reply [{ toolCalls := [removeCall] }] none, .tools fun _ => .returned .null,
      .resume "c1" true, .tools fun _ => .returned .null] rfl (by
        repeat' refine Transition.System.meets_cons rfl rfl ?_
        trivial)
  refine ⟨_, hreach, rfl, fun h => ?_⟩
  have hmem : Entry.resumed "c2" true ∈
      [Entry.requested 1 0 listCall, .requested 2 0 removeCall, .resumed "c1" true] :=
    (h 3 2 0 removeCall rfl rfl).subset (List.mem_cons_of_mem _ List.mem_cons_self)
  simp at hmem

end Runs

end GraphAgent
