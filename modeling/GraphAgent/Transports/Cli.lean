import GraphAgent.Core.Approvals
import GraphAgent.Core.Sessions

/-!
# Approvals in the terminal

`run_cli`, `_drain_stream` and `_ask_approval` on the thread that they drive. What the user
types and what the terminal asks stands in one transcript with the log of the session.
-/

namespace GraphAgent.Cli

section Source

/-- `NEW_COMMAND` -/
def newCommand : String := "/new"

/-- What the loop of `_ask_approval` makes of a line: an answer, or nothing if it asks again.
Without a line the input has ended. -/
def answerOf (lower : String → String) : Option String → Option Bool
  | none => some false
  | some line =>
      let answer := lower (Text.strip line)
      if answer = "y" ∨ answer = "yes" then some true
      else if answer = "" ∨ answer = "n" ∨ answer = "no" then some false
      else none

/-- A line of the transcript: an entry of the session's log, a question, or a line that the
user has typed. -/
inductive Line where
  | logged (entry : Entry)
  | asked (payload : ApprovalPayload)
  | typed (input : Option String)

/-- Where the terminal stands: at its prompt, reading a stream, asking for an approval, or at
its end. -/
inductive Phase where
  | prompt
  | streaming
  | asking (payload : ApprovalPayload)
  | over

/-- The terminal with its thread. -/
structure Terminal where
  phase : Phase
  generation : ℕ
  conversation : Conversation
  transcript : List Line

/-- The terminal gets a line at its prompt, where a new session may find a stored state; a node
of the graph returns; or a question gets a line. -/
inductive Action where
  | type (input : Option String) (stored : AgentState)
  | node (act : Act)
  | answer (input : Option String)

/-- What the terminal does when a step of the graph is done: a stream ends with a request for an
approval, with the end of the run or with an exception. -/
def phaseAfter (run : Run) : Phase :=
  match run.waiting with
  | some payload => .asking payload
  | none =>
      match run.node with
      | .done => .prompt
      | .failed => .over
      | _ => .streaming

variable (g : Graph)

/-- The thread takes a step. -/
def Terminal.advance (c : Terminal) (act : Act) : Option Terminal :=
  (c.conversation.step g act).map fun s =>
    { c with
      phase := phaseAfter s.run
      conversation := s
      transcript := c.transcript ++ (c.conversation.entries g act).map .logged }

/-- Nodes return by themselves; answers and messages come from the user. -/
def isNodeAct : Act → Bool
  | .resume _ _ => false
  | .message _ => false
  | _ => true

/-- `service.run(session_id, user_input)` -/
def runInput (systemPrompt : Option String) (generation : ℕ) (text : String) : RunInput :=
  ⟨toMessages (.text text), SessionManager.thread generation, none, systemPrompt⟩

/-- `session_id = await sessions.reset()` -/
def Terminal.reset (c : Terminal) (stored : AgentState) : Terminal :=
  { c with
    generation := c.generation + 1
    conversation := ⟨⟨.done, stored, .fresh, [], none⟩, c.conversation.round, c.conversation.log⟩ }

/-- One step of the terminal. -/
def step (lower : String → String) (systemPrompt : Option String) (c : Terminal) :
    Action → Option Terminal
  | .type input stored =>
      match c.phase with
      | .prompt =>
          match input with
          | none => some { c with phase := .over }
          | some line =>
              let text := Text.strip line
              if text = "" then some c
              else if text = newCommand then some (c.reset stored)
              else c.advance g (.message (runInput systemPrompt c.generation text))
      | _ => none
  | .node act =>
      match c.phase with
      | .streaming => if isNodeAct act then c.advance g act else none
      | _ => none
  | .answer input =>
      match c.phase with
      | .asking payload =>
          let c := { c with transcript := c.transcript ++ [.asked payload, .typed input] }
          match answerOf lower input with
          | none => some c
          | some approved => c.advance g (.resume payload.approvalId approved)
      | _ => none

/-- The terminal on a thread, from any state that the thread was left in. -/
def system (lower : String → String) (systemPrompt : Option String) :
    Transition.System Terminal Action where
  init c := ∃ generation state,
    resolveApprovalMode state = .manual ∧
      c = ⟨.prompt, generation, ⟨⟨.done, state, .fresh, [], none⟩, 0, []⟩, []⟩
  step := step g lower systemPrompt

end Source

/-- A new session finds no state in automatic mode. -/
def FindsManual (_ : Terminal) : Action → Prop
  | .type _ stored => resolveApprovalMode stored = .manual
  | _ => True

section Modes

variable {g : Graph} {r next : Run} {act : Act}

/-- Only an input that sets a mode changes the mode of a thread. -/
theorem approvalMode_step (hstep : r.step g act = some next)
    (hact : ∀ input, act = .message input → input.approvalMode = none) :
    next.state.approvalMode = r.state.approvalMode := by
  cases act with
  | compact summary =>
      obtain ⟨-, rfl⟩ := Run.step_compact hstep
      unfold compactStep
      split
      · rfl
      · split <;> rfl
  | reply chunks error =>
      obtain ⟨-, rfl⟩ := Run.step_reply hstep
      rfl
  | tools outcomes =>
      obtain ⟨-, rfl⟩ := Run.step_tools hstep
      unfold toolsStep
      split <;> rfl
  | limit =>
      obtain ⟨-, rfl⟩ := Run.step_limit hstep
      rfl
  | resume approvalId approved =>
      rcases Run.step_resume hstep with ⟨-, rfl⟩ | ⟨_, -, rfl⟩ <;> rfl
  | message input =>
      obtain rfl := Option.some.inj hstep
      have hmode : (r.state.writeInput input).approvalMode =
          input.approvalMode.or r.state.approvalMode := rfl
      rw [hact input rfl, Option.none_or] at hmode
      exact hmode

end Modes

section Transcripts

/-- The entries of the log in a transcript. -/
def entriesOf (transcript : List Line) : List Entry :=
  transcript.filterMap fun
    | .logged entry => some entry
    | _ => none

/-- Every approving answer in a transcript comes of a question about the approval of this id, to
which the user has typed yes. -/
def Confirmed (lower : String → String) (transcript : List Line) : Prop :=
  ∀ before after approvalId, transcript = before ++ .logged (.resumed approvalId true) :: after →
    ∃ front payload input, before = front ++ [.asked payload, .typed input] ∧
      payload.approvalId = approvalId ∧ answerOf lower input = some true

variable {lower : String → String} {transcript : List Line}

theorem entriesOf_append (transcript others : List Line) :
    entriesOf (transcript ++ others) = entriesOf transcript ++ entriesOf others :=
  List.filterMap_append

theorem entriesOf_logged (entries : List Entry) : entriesOf (entries.map .logged) = entries := by
  unfold entriesOf
  rw [List.filterMap_map]
  exact List.filterMap_some

/-- Lines behind a transcript are confirmed where they approve nothing. -/
theorem Confirmed.append (h : Confirmed lower transcript) {others : List Line}
    (hothers : ∀ approvalId, Line.logged (.resumed approvalId true) ∉ others) :
    Confirmed lower (transcript ++ others) := by
  intro before after approvalId hsplit
  rcases List.append_eq_append_iff.1 hsplit with ⟨middle, rfl, hmiddle⟩ | ⟨middle, rfl, hmiddle⟩
  · exact absurd (by simp [hmiddle]) (hothers approvalId)
  · cases middle with
    | nil =>
        rw [List.nil_append] at hmiddle
        exact absurd (by simp [← hmiddle]) (hothers approvalId)
    | cons line middle =>
        obtain ⟨rfl, rfl⟩ := List.cons.inj hmiddle
        exact h before middle approvalId rfl

/-- An approving answer comes behind the question and the yes that it is made of. -/
theorem Confirmed.answer (h : Confirmed lower transcript) {payload : ApprovalPayload}
    {input : Option String} {approved : Bool} (hanswer : answerOf lower input = some approved) :
    Confirmed lower (transcript ++ [.asked payload, .typed input] ++
      [.logged (.resumed payload.approvalId approved)]) := by
  intro before after approvalId hsplit
  have hquestion : Confirmed lower (transcript ++ [.asked payload, .typed input]) :=
    h.append (by simp)
  rcases List.append_eq_append_iff.1 hsplit with ⟨middle, rfl, hmiddle⟩ | ⟨middle, hmiddle, hrest⟩
  · cases middle with
    | nil =>
        obtain ⟨hline, -⟩ := List.cons.inj hmiddle
        obtain ⟨rfl, rfl⟩ := Entry.resumed.inj (Line.logged.inj hline)
        exact ⟨transcript, payload, input, List.append_nil _, rfl, hanswer⟩
    | cons line middle =>
        obtain ⟨-, hnil⟩ := List.cons.inj hmiddle
        simp at hnil
  · cases middle with
    | nil =>
        rw [List.nil_append] at hrest
        obtain ⟨hline, -⟩ := List.cons.inj hrest
        obtain ⟨rfl, rfl⟩ := Entry.resumed.inj (Line.logged.inj hline)
        rw [List.append_nil] at hmiddle
        exact ⟨transcript, payload, input, hmiddle.symm, rfl, hanswer⟩
    | cons line middle =>
        obtain ⟨rfl, -⟩ := List.cons.inj hrest
        exact hquestion before middle approvalId hmiddle

theorem map_logged_entriesOf (transcript : List Line) :
    (entriesOf transcript).map Line.logged = transcript.filter fun
      | .logged _ => true
      | _ => false := by
  unfold entriesOf
  induction transcript with
  | nil => rfl
  | cons line rest ih => cases line <;> simp [ih]

/-- What stands in the log in some order stands in the transcript in this order. -/
theorem sublist_of_entriesOf {entries : List Entry} (h : entries.Sublist (entriesOf transcript)) :
    (entries.map Line.logged).Sublist transcript := by
  have hlogged := h.map Line.logged
  rw [map_logged_entriesOf] at hlogged
  exact hlogged.trans List.filter_sublist

end Transcripts

section Runs

variable {g : Graph} {lower : String → String} {systemPrompt : Option String} {c c' : Terminal}

/-- What holds of the terminal: it asks about the approval that its thread waits for, and every
approving answer was typed. -/
structure Asks (g : Graph) (lower : String → String) (c : Terminal) : Prop where
  logged : Logged g c.conversation
  manual : resolveApprovalMode c.conversation.run.state = .manual
  entries : entriesOf c.transcript = c.conversation.log
  asking : ∀ payload, c.phase = .asking payload → c.conversation.run.waiting = some payload
  confirmed : Confirmed lower c.transcript

theorem waiting_of_phaseAfter {run : Run} {payload : ApprovalPayload}
    (h : phaseAfter run = .asking payload) : run.waiting = some payload := by
  unfold phaseAfter at h
  split at h
  · next waiting hwaiting => rw [hwaiting, Phase.asking.inj h]
  · split at h <;> cases h

theorem not_resumed_of_entries {s : Conversation} {act : Act} (hact : ∀ approvalId approved,
    act ≠ .resume approvalId approved) (approvalId : String) (approved : Bool) :
    .resumed approvalId approved ∉ s.entries g act := by
  cases act with
  | tools outcomes =>
      simp only [Conversation.entries, List.mem_append, not_or]
      constructor
      · unfold executedEntries
        rw [List.mem_filterMap]
        rintro ⟨entry, -, hentry⟩
        split at hentry <;> cases hentry
      · unfold requestedEntries
        simp
  | resume approvalId approved => exact absurd rfl (hact approvalId approved)
  | _ => exact List.not_mem_nil

/-- A step of the thread keeps what holds of the terminal. -/
theorem Asks.advance (h : Asks g lower c) {act : Act} (hguard : AnswersWaiting c.conversation act)
    (hmode : ∀ input, act = .message input → input.approvalMode = none)
    (hconfirmed : Confirmed lower (c.transcript ++ (c.conversation.entries g act).map .logged))
    (hstep : c.advance g act = some c') : Asks g lower c' := by
  obtain ⟨s, hs, rfl⟩ := Option.map_eq_some_iff.1 hstep
  obtain ⟨run, hrun, rfl⟩ := Option.map_eq_some_iff.1 hs
  refine ⟨h.logged.step hguard hs, ?_, ?_, fun payload hphase => waiting_of_phaseAfter hphase,
    hconfirmed⟩
  · have hsame := approvalMode_step hrun hmode
    have hmanual := h.manual
    unfold resolveApprovalMode at hmanual ⊢
    rw [hsame]
    exact hmanual
  · rw [entriesOf_append, entriesOf_logged, h.entries]

/-- What comes by itself or from the prompt approves nothing. -/
theorem Asks.advance_of_ne (h : Asks g lower c) {act : Act}
    (hact : ∀ approvalId approved, act ≠ .resume approvalId approved)
    (hmode : ∀ input, act = .message input → input.approvalMode = none)
    (hstep : c.advance g act = some c') : Asks g lower c' := by
  have hguard : AnswersWaiting c.conversation act :=
    ⟨h.manual, fun approvalId payload hresume => absurd hresume (hact approvalId true)⟩
  refine h.advance hguard hmode (h.confirmed.append fun approvalId hmem => ?_) hstep
  obtain ⟨entry, hentry, hline⟩ := List.mem_map.1 hmem
  rw [Line.logged.inj hline] at hentry
  exact not_resumed_of_entries hact approvalId true hentry

theorem Asks.reset (h : Asks g lower c) {stored : AgentState}
    (hstored : resolveApprovalMode stored = .manual) (hphase : c.phase = .prompt) :
    Asks g lower (c.reset stored) where
  logged := logged_of_idle rfl rfl h.logged.approved
  manual := hstored
  entries := h.entries
  asking payload hasking := by
    have hprompt : (c.reset stored).phase = .prompt := hphase
    rw [hprompt] at hasking
    cases hasking
  confirmed := h.confirmed

theorem Asks.step {a : Action} (h : Asks g lower c) (hguard : FindsManual c a)
    (hstep : step g lower systemPrompt c a = some c') : Asks g lower c' := by
  cases a with
  | type input stored =>
      unfold Cli.step at hstep
      dsimp only at hstep
      split at hstep
      case h_2 => cases hstep
      case h_1 hphase =>
        split at hstep
        · obtain rfl := Option.some.inj hstep
          exact ⟨h.logged, h.manual, h.entries, (fun payload hover => by cases hover), h.confirmed⟩
        · split_ifs at hstep
          · obtain rfl := Option.some.inj hstep
            exact h
          · obtain rfl := Option.some.inj hstep
            exact h.reset hguard hphase
          · refine h.advance_of_ne (fun _ _ hact => by cases hact) ?_ hstep
            intro input hinput
            rw [← Act.message.inj hinput]
            rfl
  | node act =>
      unfold Cli.step at hstep
      dsimp only at hstep
      split at hstep
      case h_2 => cases hstep
      case h_1 =>
        split_ifs at hstep with hact
        exact h.advance_of_ne (fun _ _ heq => by rw [heq] at hact; cases hact)
          (fun _ heq => by rw [heq] at hact; cases hact) hstep
  | answer input =>
      unfold Cli.step at hstep
      dsimp only at hstep
      split at hstep
      case h_2 => cases hstep
      case h_1 payload hphase =>
        have hwaiting := h.asking payload hphase
        have hasked : Asks g lower
            { c with transcript := c.transcript ++ [.asked payload, .typed input] } :=
          ⟨h.logged, h.manual, by
            rw [entriesOf_append, h.entries]
            exact List.append_nil _, h.asking, h.confirmed.append (by simp)⟩
        split at hstep
        · obtain rfl := Option.some.inj hstep
          exact hasked
        · next approved hanswer =>
            refine hasked.advance ⟨h.manual, ?_⟩ (fun _ hact => by cases hact)
              (h.confirmed.answer hanswer) hstep
            intro approvalId other hresume hother
            obtain ⟨rfl, -⟩ := Act.resume.inj hresume
            rw [Option.some.inj (hother.symm.trans hwaiting)]

theorem Asks.of_init (h : (system g lower systemPrompt).init c) : Asks g lower c := by
  obtain ⟨generation, state, hmanual, rfl⟩ := h
  refine ⟨logged_init ⟨state, rfl⟩, hmanual, rfl, (fun payload hprompt => by cases hprompt), ?_⟩
  intro before after approvalId hsplit
  simp at hsplit

theorem Asks.of_reachable (h : (system g lower systemPrompt).ReachableWithin FindsManual c) :
    Asks g lower c := by
  apply h.invariant
  · intro s hs
    exact Asks.of_init hs
  · intro s a s' hs hguard hstep
    exact hs.step hguard hstep

/-- Before an execution the log has the request for this call and the approving answer. -/
theorem Asks.approved (h : Asks g lower c) {before after : List Line} {round position : ℕ}
    {call : ToolCall}
    (hsplit : c.transcript = before ++ .logged (.executed round position call) :: after)
    (hneeds : needsApproval g call = true) :
    [.requested round position call, .resumed call.callId true].Sublist (entriesOf before) := by
  have hlog : c.conversation.log = entriesOf before ++ .executed round position call ::
      entriesOf after := by
    rw [← h.entries, hsplit, entriesOf_append]
    rfl
  have hentry : c.conversation.log[(entriesOf before).length]? =
      some (.executed round position call) := by
    rw [hlog, List.getElem?_append_right le_rfl, Nat.sub_self]
    rfl
  have hsub := h.logged.approved _ round position call hentry hneeds
  rwa [hlog, List.take_left] at hsub

/-- The state in which the terminal finds a thread that nothing has been written to. -/
def fresh : Terminal := ⟨.prompt, 1, ⟨⟨.done, {}, .fresh, [], none⟩, 0, []⟩, []⟩

/-- A listing that is asked for twice, since the first line is no answer. -/
def listing : List Action :=
  [.type (some "list") {}, .node (.compact (.ok "")),
    .node (.reply [{ toolCalls := [listCall] }] none), .node (.tools fun _ => .returned .null),
    .answer (some "what?"), .answer (some " Y "), .node (.tools fun _ => .returned .null)]

theorem reachable_listing {c : Terminal}
    (hexec : (system defaultGraph Text.lower none).exec fresh listing = some c) :
    (system defaultGraph Text.lower none).ReachableWithin FindsManual c := by
  refine ⟨fresh, listing, ⟨1, {}, rfl, rfl⟩, Transition.System.run_of_exec hexec ?_⟩
  refine ⟨rfl, fun c₁ _ => ⟨trivial, fun c₂ _ => ⟨trivial, fun c₃ _ => ⟨trivial, ?_⟩⟩⟩⟩
  exact fun _ _ => ⟨trivial, fun _ _ => ⟨trivial, fun _ _ => ⟨trivial, fun _ _ => trivial⟩⟩⟩

/-- What the terminal has shown and read before the shell runs. -/
def listed : List Line :=
  let payload : ApprovalPayload := ⟨"c1", "c1", "shell", listCall.args⟩
  [.logged (.requested 1 0 listCall), .asked payload, .typed (some "what?"), .asked payload,
    .typed (some " Y "), .logged (.resumed "c1" true)]

end Runs

end GraphAgent.Cli
