import GraphAgent.Core.Run

/-!
# The history of a run

A run that starts from a valid history and is not cut short has a valid history
whenever the model is about to be asked and when it is over. Between the agent
node and the results, exactly the last message is open.
-/

namespace GraphAgent

variable {g : Graph}

section ToolMessages

theorem admitAll_length (manualMode : Bool) (calls : List ToolCall) (pass : Pass) :
    (admitAll g manualMode calls pass).1.length = calls.length := by
  induction calls generalizing pass with
  | nil => rfl
  | cons call rest ih =>
      simp only [admitAll, List.length_cons]
      rw [ih]

@[simp] theorem kind_settle (call : ToolCall) (outcome : ToolOutcome) :
    (settle g call outcome).1.kind = .answers call.callId := by
  cases outcome <;> rfl

/-- A pass that nothing interrupts has one result for each call. -/
theorem kind_toolMessages {calls : List ToolCall} {admissions : List Admission}
    (hlength : admissions.length = calls.length) (hnone : firstInterrupt admissions = none)
    (outcomes : Nat → ToolOutcome) :
    (toolMessages g calls admissions outcomes).map Message.kind =
      (calls.map ToolCall.callId).map .answers := by
  induction calls generalizing admissions outcomes with
  | nil =>
      rw [List.length_nil, List.length_eq_zero_iff] at hlength
      rw [hlength]
      rfl
  | cons call calls ih =>
      cases admissions with
      | nil => simp at hlength
      | cons admission admissions =>
          have hrest := @ih admissions (Nat.succ.inj hlength)
          cases admission with
          | interrupted payload => simp [firstInterrupt] at hnone
          | answered content =>
              have := hrest (by simpa [firstInterrupt] using hnone) fun i => outcomes (i + 1)
              simp [toolMessages, this]
          | started args =>
              have := hrest (by simpa [firstInterrupt] using hnone) fun i => outcomes (i + 1)
              simp [toolMessages, this]

end ToolMessages

/-- A valid history whose last message is an assistant message with tool calls
that have no results yet. -/
def OpenHistory (messages : List Message) : Prop :=
  ∃ before m ids, messages = before ++ [m] ∧ ValidHistory before ∧ m.kind = .asks ids ∧
    (lastToolCalls messages).map ToolCall.callId = ids

/-- What the history of a run looks like before each of its nodes. -/
def HistoryAt (node : Node) (messages : List Message) : Prop :=
  match node with
  | .compact | .agent | .done => ValidHistory messages
  | .tools | .limit => OpenHistory messages
  | .failed => True

theorem lastToolCalls_append_ai (messages : List Message) (content : String)
    (calls : List ToolCall) : lastToolCalls (messages ++ [.ai content calls]) = calls := by
  simp [lastToolCalls, Message.ai]

theorem openHistory_append_ai {messages : List Message} (h : ValidHistory messages)
    (content : String) {calls : List ToolCall} (hcalls : calls ≠ []) :
    OpenHistory (messages ++ [.ai content calls]) := by
  refine ⟨messages, .ai content calls, calls.map ToolCall.callId, rfl, h,
    Message.kind_ai content hcalls, ?_⟩
  rw [lastToolCalls_append_ai]

/-- Results for all calls of the last message close the history. -/
theorem OpenHistory.close {messages : List Message} (h : OpenHistory messages)
    {results rest : List Message}
    (hresults : results.map Message.kind =
      ((lastToolCalls messages).map ToolCall.callId).map .answers)
    (hrest : ValidHistory rest) : ValidHistory (messages ++ (results ++ rest)) := by
  obtain ⟨before, m, ids, rfl, hbefore, hkind, hids⟩ := h
  rw [hids] at hresults
  rw [List.append_assoc, List.singleton_append]
  exact validHistory_append hbefore (validHistory_round hkind hresults hrest)

/-- A reply is followed by the tools or the limit exactly when it calls tools. -/
theorem historyAt_reply {state : AgentState} (h : ValidHistory state.messages) (content : String)
    (calls : List ToolCall) (iterations : Nat) :
    let state' := state.writeNode
      { messages := some (.append [.ai content calls]), iterations := some iterations }
    HistoryAt (shouldContinue g state') state'.messages := by
  intro state'
  have hmessages : state'.messages = state.messages ++ [.ai content calls] := rfl
  have hcalls : lastToolCalls state'.messages = calls := by
    rw [hmessages, lastToolCalls_append_ai]
  unfold shouldContinue
  rw [hcalls, hmessages]
  cases calls with
  | nil => exact validHistory_append h (validHistory_plain rfl validHistory_nil)
  | cons call calls =>
      have hopen := openHistory_append_ai h content (List.cons_ne_nil call calls)
      rw [if_neg (by simp)]
      split
      · exact hopen
      · exact hopen

/-- Everything of the earlier history is still there in order, except for a first
part of it whose place a summary has taken. -/
def Keeps (before after : List Message) : Prop :=
  ∃ old recent front added, before = old ++ recent ∧ after = front ++ (recent ++ added) ∧
    (old = [] ∧ front = [] ∨ old ≠ [] ∧ ∃ deltaText, front = [summaryMessage deltaText])

theorem keeps_append (messages added : List Message) : Keeps messages (messages ++ added) :=
  ⟨[], messages, [], added, rfl, rfl, Or.inl ⟨rfl, rfl⟩⟩

theorem Keeps.refl (messages : List Message) : Keeps messages messages := by
  simpa using keeps_append messages []

/-- What two steps keep one after the other. -/
theorem Keeps.trans {before middle after : List Message} (h : Keeps before middle)
    (hlater : Keeps middle after) : Keeps before after := by
  obtain ⟨old, recent, front, added, rfl, rfl, hfront⟩ := h
  obtain ⟨old', recent', front', added', hsplit, rfl, hfront'⟩ := hlater
  rcases hfront' with ⟨rfl, rfl⟩ | ⟨hold', deltaText, rfl⟩
  · rw [List.nil_append] at hsplit
    subst hsplit
    exact ⟨old, recent, front, added ++ added', rfl, by simp, hfront⟩
  · -- the second summary covers the first one
    have hcover : ∃ more, old' = front ++ more ∧ recent ++ added = more ++ recent' := by
      rcases List.append_eq_append_iff.mp hsplit with ⟨more, hmore, hrest⟩ | ⟨more, hmore, hrest⟩
      · exact ⟨more, hmore, hrest⟩
      · rcases hfront with ⟨-, rfl⟩ | ⟨-, text, rfl⟩
        · exact absurd (List.append_eq_nil_iff.mp hmore.symm).1 hold'
        · cases old' with
          | nil => exact absurd rfl hold'
          | cons m rest =>
              simp only [List.cons_append, List.cons.injEq] at hmore
              obtain ⟨rfl, hnil⟩ := hmore
              obtain ⟨rfl, rfl⟩ := List.append_eq_nil_iff.mp hnil.symm
              exact ⟨[], rfl, by simpa using hrest.symm⟩
    obtain ⟨more, rfl, hmore⟩ := hcover
    by_cases hnil : old ++ recent = []
    · rw [hnil]
      simpa using keeps_append [] _
    · rcases List.append_eq_append_iff.mp hmore with ⟨x, rfl, rfl⟩ | ⟨x, rfl, rfl⟩
      · exact ⟨old ++ recent, [], [summaryMessage deltaText], recent' ++ added', by simp, by simp,
          Or.inr ⟨hnil, deltaText, rfl⟩⟩
      · refine ⟨old ++ more, x, [summaryMessage deltaText], added ++ added', by simp, by simp,
          Or.inr ⟨?_, deltaText, rfl⟩⟩
        intro hboth
        obtain ⟨rfl, rfl⟩ := List.append_eq_nil_iff.mp hboth
        rcases hfront with ⟨-, rfl⟩ | ⟨hold, -⟩
        · exact hold' rfl
        · exact hold rfl

section Steps

variable {r : Run}

/-- A compaction leaves a valid history, or its run has failed. -/
theorem historyAt_compactStep (hnode : r.node = .compact) (h : HistoryAt r.node r.state.messages)
    (summary : Except String String) :
    HistoryAt (compactStep g r summary).node (compactStep g r summary).state.messages ∧
      Keeps r.state.messages (compactStep g r summary).state.messages := by
  rw [hnode] at h
  unfold compactStep
  split
  case h_1 => exact ⟨h, Keeps.refl _⟩
  case h_2 split hsplit =>
    cases summary with
    | error e => exact ⟨trivial, Keeps.refl _⟩
    | ok deltaText =>
        have happend := (compactSplit_spec hsplit).1
        rw [repair_of_valid h] at happend
        refine ⟨validHistory_replacement hsplit deltaText, ?_⟩
        exact ⟨split.old, split.recent, [summaryMessage deltaText], [], happend,
          by rw [List.append_nil]; rfl, Or.inr ⟨old_ne_nil hsplit, deltaText, rfl⟩⟩

/-- The tools node writes nothing, or one result for each call. -/
theorem historyAt_toolsStep (hnode : r.node = .tools) (h : HistoryAt r.node r.state.messages)
    (outcomes : Nat → ToolOutcome) :
    HistoryAt (toolsStep g r outcomes).node (toolsStep g r outcomes).state.messages ∧
      Keeps r.state.messages (toolsStep g r outcomes).state.messages := by
  rw [hnode] at h
  unfold toolsStep
  split
  case h_1 payload hpayload => exact ⟨by rwa [hnode], Keeps.refl _⟩
  case h_2 hnone =>
    have hresults := kind_toolMessages (g := g) (admitAll_length _ _ _) hnone outcomes
    have hclosed := h.close hresults validHistory_nil
    rw [List.append_nil] at hclosed
    exact ⟨hclosed, keeps_append _ _⟩

/-- The limit node writes a synthetic result for each call and its text. -/
theorem historyAt_limitNode (hnode : r.node = .limit) (h : HistoryAt r.node r.state.messages) :
    ValidHistory (r.returns (limitNode g r.state r.metrics) fun _ => .done).state.messages := by
  rw [hnode] at h
  have hresults : ((lastToolCalls r.state.messages).map fun call =>
      interrupted call.callId).map Message.kind =
        ((lastToolCalls r.state.messages).map ToolCall.callId).map .answers := by
    simp [kind_interrupted, Function.comp_def]
  have hlast := validHistory_plain (Message.kind_ai_nil (limitMessage g.config.maxIterations))
    validHistory_nil
  exact h.close hresults hlast

/-- The invariant of a run, and what each of its steps does to the history. -/
theorem historyAt_step {r' : Run} {a : Act} (h : HistoryAt r.node r.state.messages)
    (hrun : ∀ input, a ≠ .message input) (hstep : r.step g a = some r') :
    HistoryAt r'.node r'.state.messages ∧ Keeps r.state.messages r'.state.messages := by
  cases a with
  | compact summary =>
      obtain ⟨hnode, rfl⟩ := Run.step_compact hstep
      exact historyAt_compactStep hnode h summary
  | reply chunks error =>
      obtain ⟨hnode, rfl⟩ := Run.step_reply hstep
      rw [hnode] at h
      cases error with
      | none => exact ⟨historyAt_reply h _ _ _, keeps_append _ _⟩
      | some exc => exact ⟨historyAt_reply h _ _ _, keeps_append _ _⟩
  | tools outcomes =>
      obtain ⟨⟨hnode, -⟩, rfl⟩ := Run.step_tools hstep
      exact historyAt_toolsStep hnode h outcomes
  | limit =>
      obtain ⟨hnode, rfl⟩ := Run.step_limit hstep
      exact ⟨historyAt_limitNode hnode h, keeps_append _ _⟩
  | resume approvalId approved =>
      rcases Run.step_resume hstep with ⟨-, rfl⟩ | ⟨payload, -, rfl⟩
      · exact ⟨h, Keeps.refl _⟩
      · exact ⟨h, Keeps.refl _⟩
  | message input => exact absurd rfl (hrun input)

end Steps

/-- The runs of a graph whose history is valid after their input has been written. -/
def runSystem (g : Graph) : Transition.System Run Act where
  init r := ∃ (state : AgentState) (input : RunInput),
    ValidHistory (state.writeInput input).messages ∧ r = .start (state.writeInput input)
  step := Run.step g

/-- Every action but the start of another run. -/
def WithinRun (_ : Run) (a : Act) : Prop := ∀ input, a ≠ .message input

/-- Whenever a run is about to ask the model and when it is over, its history is
valid, so it is not changed by repair. Whatever a run has written to the history
stays there unless a compaction of the run summarises it. -/
theorem history_valid_at_agent_and_end {r : Run} (h : (runSystem g).ReachableWithin WithinRun r) :
    (r.node = .agent ∨ r.node = .done → ValidHistory r.state.messages ∧
      repairToolCallPairs r.state.messages = r.state.messages) ∧
    (∀ as r', (runSystem g).Run WithinRun r as r' → Keeps r.state.messages r'.state.messages) := by
  have hinv : HistoryAt r.node r.state.messages := by
    apply h.invariant (I := fun r => HistoryAt r.node r.state.messages)
    · rintro r ⟨state, input, hvalid, rfl⟩
      exact hvalid
    · intro r a r' hr hrun hstep
      exact (historyAt_step hr hrun hstep).1
  constructor
  · rintro (hnode | hnode)
    · rw [hnode] at hinv
      exact ⟨hinv, repair_of_valid hinv⟩
    · rw [hnode] at hinv
      exact ⟨hinv, repair_of_valid hinv⟩
  · intro as r' run
    have hlater : HistoryAt r'.node r'.state.messages ∧ Keeps r.state.messages r'.state.messages := by
      apply run.preserves (I := fun r' =>
        HistoryAt r'.node r'.state.messages ∧ Keeps r.state.messages r'.state.messages)
      · exact ⟨hinv, Keeps.refl _⟩
      · rintro s a s' ⟨hs, hkept⟩ hrun hstep
        obtain ⟨hs', hkeeps⟩ := historyAt_step hs hrun hstep
        exact ⟨hs', hkept.trans hkeeps⟩
    exact hlater.2

/-- A run reads a file and is about to ask the model again. -/
theorem history_valid_after_read : ∃ r, (runSystem defaultGraph).ReachableWithin WithinRun r ∧
    r.node = .agent ∧ r.state.messages.length = 3 ∧ ValidHistory r.state.messages := by
  have hreach : (runSystem defaultGraph).ReachableWithin WithinRun _ :=
    ⟨_, [.compact (.ok ""), .reply [{ toolCalls := [⟨some "c1", "filesystem", []⟩] }] none,
      .tools fun _ => .returned (.str "notes"), .compact (.ok "")],
      ⟨{}, ⟨[.human (.str "read it")], "s1", none, none⟩, validHistory_plain rfl validHistory_nil, rfl⟩,
      Transition.System.run_of_exec rfl (by
        refine Transition.System.meets_cons rfl nofun (Transition.System.meets_cons rfl nofun
          (Transition.System.meets_cons rfl nofun (Transition.System.meets_cons rfl nofun trivial))))⟩
  exact ⟨_, hreach, rfl, rfl, ((history_valid_at_agent_and_end hreach).1 (Or.inl rfl)).1⟩

end GraphAgent
