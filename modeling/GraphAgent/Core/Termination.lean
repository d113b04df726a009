import GraphAgent.Core.Turn

/-!
# Every turn comes to its end

The agent node asks the model at most `max(1, max_iterations)` times in a turn, the
compaction before it at most once each time, and the loop over compaction, model and
tools ends, whatever the model and the tools do and however many approvals are asked
for. Three numbers go down in lexicographic
order: the replies that are left, the nodes of the round that are left, and the
approvals that are left.
-/

namespace GraphAgent

variable {g : Graph} {t t' : Turn}

def TurnEntry.isReply : TurnEntry → Bool
  | .replied _ => true
  | _ => false

def TurnEntry.isSummary : TurnEntry → Bool
  | .summarised => true
  | _ => false

/-- The number of calls of `backend.astream` in `agent_node`. -/
def Turn.replies (t : Turn) : Nat := t.log.countP TurnEntry.isReply

/-- The number of calls of `backend.acomplete`, each of which iterates over `backend.astream`. -/
def Turn.summaries (t : Turn) : Nat := t.log.countP TurnEntry.isSummary

/-- The number of calls of `backend.astream` in a turn. -/
def Turn.modelCalls (t : Turn) : Nat :=
  t.log.countP fun entry => entry.isReply || entry.isSummary

/-- The end at the limit: the last calls that the model asked for are not executed,
each has a synthetic result, and the text of the limit closes the history. -/
def Turn.EndedByLimit (g : Graph) (t : Turn) : Prop :=
  ∃ (earlier : List TurnEntry) (calls : List ToolCall) (before : List Message) (id : Option Nat)
    (text : String), calls ≠ [] ∧ t.log = earlier ++ [.replied calls, .limited] ∧
      t.run.state.messages = before ++ ⟨id, .ai text calls⟩ ::
        (calls.map (fun call => interrupted call.callId) ++
          [.ai (limitMessage g.config.maxIterations) []])

/-- The compaction of a history that is too long gets its summary from the model. -/
def SummaryReturns (g : Graph) (t : Turn) (a : Act) : Prop :=
  ∀ exc, a = .compact (.error exc) →
    compactSplit g.countTokens g.config.contextTokenLimit g.config.compactionKeepMessages
      t.run.state.messages = none

section Interrupts

theorem isInterrupted_admitCall_auto (call : ToolCall) (pass : Pass) :
    (admitCall g false call pass).1.isInterrupted = false := by
  unfold admitCall
  dsimp only
  split
  case h_1 => rfl
  case h_2 spec _ =>
    split
    case h_1 => rfl
    case h_2 =>
      rw [Bool.and_false, if_neg Bool.false_ne_true]
      exact (admitGuarded_spec _ _ _ _).1

theorem firstInterrupt_auto (calls : List ToolCall) (pass : Pass) :
    firstInterrupt (admitAll g false calls pass).1 = none := by
  induction calls generalizing pass with
  | nil => rfl
  | cons call rest ih =>
      simp only [admitAll]
      rw [firstInterrupt_cons (isInterrupted_admitCall_auto call pass)]
      exact ih _

/-- A pass that is interrupted has a call that waits for an approval. -/
theorem answers_lt_of_firstInterrupt {r : Run} {payload : ApprovalPayload}
    (h : firstInterrupt (r.pass g).1 = some payload) :
    r.answers.length < (lastToolCalls r.state.messages).countP (needsApproval g) := by
  unfold Run.pass at h
  by_cases hmanual : resolveApprovalMode r.state = .manual
  · rw [hmanual] at h
    obtain ⟨call, hcall, hneeds, -, hcount⟩ := firstInterrupt_spec h
    have hlt := approvalsBefore_lt hcall hneeds (List.getElem?_eq_some_iff.mp hcall).1
    unfold approvalsBefore at hlt
    rw [hcount, List.take_length] at hlt
    exact hlt
  · rw [decide_eq_false hmanual, firstInterrupt_auto] at h
    exact nomatch h

end Interrupts

section Invariant

/-- What holds of a turn at each of its nodes. -/
structure Turn.Ordered (g : Graph) (t : Turn) : Prop where
  replies : t.replies = t.run.state.iterations
  summaries : t.summaries ≤ t.run.state.iterations +
    if t.run.node = .agent ∨ t.run.node = .failed then 1 else 0
  bound : (t.run.state.iterations : Int) ≤ max 1 g.config.maxIterations
  asking : t.run.node = .compact ∨ t.run.node = .agent ∨ t.run.node = .failed →
    (t.run.state.iterations : Int) < max 1 g.config.maxIterations
  tools : t.run.node = .tools → (t.run.state.iterations : Int) < g.config.maxIterations
  waiting : t.run.waiting ≠ none → t.run.node = .tools ∧
    t.run.answers.length < (lastToolCalls t.run.state.messages).countP (needsApproval g)
  limit : t.run.node = .limit → lastToolCalls t.run.state.messages ≠ [] ∧
    t.log.getLast? = some (.replied (lastToolCalls t.run.state.messages))
  ended : .limited ∈ t.log → t.run.node = .done ∧ t.EndedByLimit g

theorem ordered_init (h : (turnSystem g).init t) : t.Ordered g := by
  obtain ⟨state, input, rfl⟩ := h
  have hone : (0 : Int) < max 1 g.config.maxIterations := by omega
  constructor
  case replies => rfl
  case summaries => exact Nat.zero_le _
  case bound => exact Int.le_of_lt hone
  case asking => exact fun _ => hone
  case tools => exact nofun
  case waiting => exact fun h => absurd rfl h
  case limit => exact nofun
  case ended => exact nofun

theorem compactStep_spec (r : Run) (summary : Except String String) :
    (compactStep g r summary).state.iterations = r.state.iterations ∧
      (compactStep g r summary).waiting = r.waiting ∧
      ((compactStep g r summary).node = .agent ∨ (compactStep g r summary).node = .failed) := by
  unfold compactStep
  split
  · exact ⟨rfl, rfl, Or.inl rfl⟩
  · split
    · exact ⟨rfl, rfl, Or.inl rfl⟩
    · exact ⟨rfl, rfl, Or.inr rfl⟩

/-- A pass waits for an approval that is left to ask for, or the tools node returns. -/
theorem toolsStep_cases (r : Run) (outcomes : Nat → ToolOutcome) :
    (toolsStep g r outcomes).state.iterations = r.state.iterations ∧
      ((toolsStep g r outcomes).node = r.node ∧ (toolsStep g r outcomes).state = r.state ∧
          (toolsStep g r outcomes).answers = r.answers ∧
          (toolsStep g r outcomes).waiting ≠ none ∧
          r.answers.length < (lastToolCalls r.state.messages).countP (needsApproval g) ∨
        (toolsStep g r outcomes).node = .compact ∧
          (toolsStep g r outcomes).waiting = r.waiting) := by
  unfold toolsStep
  split
  case h_1 payload hpayload =>
    exact ⟨rfl, Or.inl ⟨rfl, rfl, rfl, Option.some_ne_none _, answers_lt_of_firstInterrupt hpayload⟩⟩
  case h_2 => exact ⟨rfl, Or.inr ⟨rfl, rfl⟩⟩

theorem iterations_agentNode (state : AgentState) (metrics : RunMetrics)
    (chunks : List StreamChunk) (error : Option String) :
    (state.writeNode (agentNode state metrics chunks error).write).iterations =
      state.iterations + 1 := by
  cases error <;> rfl

theorem shouldContinue_cases (state : AgentState) :
    shouldContinue g state = .done ∨
      shouldContinue g state = .limit ∧ lastToolCalls state.messages ≠ [] ∨
      shouldContinue g state = .tools ∧ (state.iterations : Int) < g.config.maxIterations := by
  unfold shouldContinue
  split
  case isTrue => exact Or.inl rfl
  case isFalse hcalls =>
    split
    case isTrue => exact Or.inr (Or.inl ⟨rfl, fun hnil => hcalls (hnil ▸ rfl)⟩)
    case isFalse hlt => exact Or.inr (Or.inr ⟨rfl, by omega⟩)

theorem exists_of_lastToolCalls {messages : List Message} (h : lastToolCalls messages ≠ []) :
    ∃ before id text, messages = before ++ [⟨id, .ai text (lastToolCalls messages)⟩] := by
  unfold lastToolCalls at h ⊢
  split at h
  case h_2 => exact absurd rfl h
  case h_1 id text calls hlast =>
    obtain ⟨before, hmessages⟩ := List.getLast?_eq_some_iff.mp hlast
    exact ⟨before, id, text, hmessages⟩

theorem not_reply_of_mem_startedTools {calls : List ToolCall} {admissions : List Admission}
    {entry : TurnEntry} (h : entry ∈ startedTools calls admissions) :
    ∃ name args, entry = .executed name args := by
  induction calls generalizing admissions with
  | nil => cases admissions <;> exact nomatch h
  | cons call rest ih =>
      cases admissions with
      | nil => exact nomatch h
      | cons admission admissions =>
          rw [startedTools_cons] at h
          rcases List.mem_append.mp h with hfirst | hrest
          · cases admission with
            | answered content => exact nomatch hfirst
            | interrupted payload => exact nomatch hfirst
            | started args => exact ⟨call.name, args, List.mem_singleton.mp hfirst⟩
          · exact ih hrest

/-- The entries of a step that is no reply and no end at the limit. -/
theorem quiet_entries {a : Act} {next : Run} (hreply : ∀ chunks error, a ≠ .reply chunks error)
    (hlimit : a ≠ .limit) :
    (t.entries g next a).countP TurnEntry.isReply = 0 ∧ .limited ∉ t.entries g next a := by
  cases a with
  | reply chunks error => exact absurd rfl (hreply chunks error)
  | limit => exact absurd rfl hlimit
  | tools outcomes =>
      constructor
      · rw [List.countP_eq_zero]
        intro entry hmem
        obtain ⟨name, args, rfl⟩ := not_reply_of_mem_startedTools hmem
        exact Bool.false_ne_true
      · intro hmem
        obtain ⟨name, args, heq⟩ := not_reply_of_mem_startedTools hmem
        exact nomatch heq
  | compact summary =>
      have hsummaries : t.entries g next (.compact summary) =
          askedSummaries g t.run.state.messages := rfl
      rw [hsummaries]
      rcases askedSummaries_cases g t.run.state.messages with h | h
      · rw [h]
        exact ⟨rfl, List.not_mem_nil⟩
      · rw [h]
        exact ⟨rfl, by simp⟩
  | resume id approved => exact ⟨rfl, List.not_mem_nil⟩
  | message input => exact ⟨rfl, List.not_mem_nil⟩

/-- Only a compaction asks for a summary, and for one only. -/
theorem summaries_step {a : Act} (hstep : t.step g a = some t') :
    t'.summaries ≤ t.summaries + (if t.run.node = .compact then 1 else 0) := by
  obtain ⟨hrun, hlog, -⟩ := turn_step hstep
  unfold Turn.summaries
  rw [hlog, List.countP_append]
  cases a with
  | compact summary =>
      rw [if_pos (Run.step_compact hrun).1]
      have hsummaries : t.entries g t'.run (.compact summary) =
          askedSummaries g t.run.state.messages := rfl
      rw [hsummaries]
      rcases askedSummaries_cases g t.run.state.messages with h | h
      · rw [h]
        exact Nat.le_succ _
      · rw [h]
        exact le_rfl
  | tools outcomes =>
      have hnone : (t.entries g t'.run (.tools outcomes)).countP TurnEntry.isSummary = 0 := by
        rw [List.countP_eq_zero]
        intro entry hmem
        obtain ⟨name, args, rfl⟩ := not_reply_of_mem_startedTools hmem
        exact Bool.false_ne_true
      rw [hnone]
      exact Nat.le_add_right _ _
  | reply chunks error => exact Nat.le_add_right _ _
  | limit => exact Nat.le_add_right _ _
  | resume id approved => exact Nat.le_add_right _ _
  | message input => exact Nat.le_add_right _ _

/-- What the model is asked for is a reply or a summary. -/
theorem modelCalls_eq (t : Turn) : t.modelCalls = t.replies + t.summaries := by
  unfold Turn.modelCalls Turn.replies Turn.summaries
  induction t.log with
  | nil => rfl
  | cons entry rest ih =>
      rw [List.countP_cons, List.countP_cons, List.countP_cons, ih]
      cases entry <;> simp [TurnEntry.isReply, TurnEntry.isSummary] <;> omega

/-- A turn that goes on has not ended at the limit. -/
theorem Turn.Ordered.not_limited (h : t.Ordered g) (hnode : t.run.node ≠ .done) :
    .limited ∉ t.log :=
  fun hmem => hnode (h.ended hmem).1

theorem Turn.Ordered.waiting_none (h : t.Ordered g) (hnode : t.run.node ≠ .tools) :
    t.run.waiting = none := by
  by_contra hwaiting
  exact hnode (h.waiting hwaiting).1

theorem Turn.Ordered.compact (h : t.Ordered g) {summary : Except String String}
    (hstep : t.step g (.compact summary) = some t') : t'.Ordered g := by
  obtain ⟨hrun, hlog, -⟩ := turn_step hstep
  obtain ⟨hnode, hnext⟩ := Run.step_compact hrun
  obtain ⟨hiterations, hwaiting, hagent⟩ := compactStep_spec (g := g) t.run summary
  rw [hnext] at hiterations hwaiting hagent
  rw [h.waiting_none (by rw [hnode]; decide)] at hwaiting
  obtain ⟨hquiet, hnotLimited⟩ := @quiet_entries g t (.compact summary) t'.run (by simp) (by simp)
  have hsummaries := summaries_step hstep
  have hearlier := h.summaries
  constructor
  case replies =>
    rw [Turn.replies, hlog, List.countP_append, hquiet, hiterations]
    exact h.replies
  case summaries =>
    rw [if_pos hagent, hiterations]
    rw [if_pos hnode] at hsummaries
    rw [hnode, if_neg (by decide)] at hearlier
    omega
  case bound => rw [hiterations]; exact h.bound
  case asking => rw [hiterations]; exact fun _ => h.asking (Or.inl hnode)
  case tools =>
    intro htools
    rw [htools] at hagent
    exact absurd hagent (by decide)
  case waiting => exact fun hne => absurd hwaiting hne
  case limit =>
    intro hlimit
    rw [hlimit] at hagent
    exact absurd hagent (by decide)
  case ended =>
    intro hmem
    rw [hlog] at hmem
    rcases List.mem_append.mp hmem with hearlier | hnew
    · exact absurd hearlier (h.not_limited (by rw [hnode]; decide))
    · exact absurd hnew hnotLimited

/-- Outside compaction no summary is asked for. -/
theorem Turn.Ordered.summaries_of_ne (h : t.Ordered g) {a : Act} (hstep : t.step g a = some t')
    (hnode : t.run.node ≠ .compact)
    (hiterations : t.run.state.iterations + (if t.run.node = .agent then 1 else 0) =
      t'.run.state.iterations) (hfailed : t.run.node ≠ .failed) :
    t'.summaries ≤ t'.run.state.iterations +
      if t'.run.node = .agent ∨ t'.run.node = .failed then 1 else 0 := by
  have hsummaries := summaries_step hstep
  have hearlier := h.summaries
  rw [if_neg hnode] at hsummaries
  have hsame : (t.run.node = .agent ∨ t.run.node = .failed) ↔ t.run.node = .agent :=
    or_iff_left hfailed
  rw [if_congr hsame rfl rfl, hiterations] at hearlier
  omega

theorem Turn.Ordered.reply (h : t.Ordered g) {chunks : List StreamChunk} {error : Option String}
    (hstep : t.step g (.reply chunks error) = some t') : t'.Ordered g := by
  obtain ⟨hrun, hlog, -⟩ := turn_step hstep
  obtain ⟨hnode, hnext⟩ := Run.step_reply hrun
  have hiterations : t'.run.state.iterations = t.run.state.iterations + 1 := by
    rw [← hnext]
    exact iterations_agentNode _ _ _ _
  have hcontinue : t'.run.node = shouldContinue g t'.run.state := by
    rw [← hnext]
    rfl
  have hwaiting : t'.run.waiting = none := by
    rw [← hnext]
    exact h.waiting_none (by rw [hnode]; decide)
  have hasking := h.asking (Or.inr (Or.inl hnode))
  have hcases := shouldContinue_cases (g := g) t'.run.state
  rw [← hcontinue] at hcases
  constructor
  case replies =>
    rw [Turn.replies, hlog, List.countP_append, hiterations, ← h.replies]
    rfl
  case summaries =>
    refine h.summaries_of_ne hstep (by rw [hnode]; decide) ?_ (by rw [hnode]; decide)
    rw [if_pos hnode, hiterations]
  case bound => omega
  case asking =>
    rintro (hnode' | hnode' | hnode') <;> rw [hnode'] at hcases <;> simp at hcases
  case tools =>
    intro hnode'
    simpa [hnode'] using hcases
  case waiting => exact fun hne => absurd hwaiting hne
  case limit =>
    intro hnode'
    have hcalls : lastToolCalls t'.run.state.messages ≠ [] := by simpa [hnode'] using hcases
    rw [hlog]
    exact ⟨hcalls, List.getLast?_concat⟩
  case ended =>
    intro hmem
    rw [hlog] at hmem
    rcases List.mem_append.mp hmem with hearlier | hnew
    · exact absurd hearlier (h.not_limited (by rw [hnode]; decide))
    · exact absurd (List.mem_singleton.mp hnew) (by simp)

theorem Turn.Ordered.pass (h : t.Ordered g) {outcomes : Nat → ToolOutcome}
    (hstep : t.step g (.tools outcomes) = some t') : t'.Ordered g := by
  obtain ⟨hrun, hlog, -⟩ := turn_step hstep
  obtain ⟨⟨hnode, hnone⟩, hnext⟩ := Run.step_tools hrun
  obtain ⟨hiterations, hcases⟩ := toolsStep_cases (g := g) t.run outcomes
  rw [hnext] at hiterations hcases
  obtain ⟨hquiet, hnotLimited⟩ := @quiet_entries g t (.tools outcomes) t'.run
    (by simp) (by simp)
  have hbelow := h.tools hnode
  constructor
  case replies =>
    rw [Turn.replies, hlog, List.countP_append, hquiet, hiterations]
    exact h.replies
  case summaries =>
    refine h.summaries_of_ne hstep (by rw [hnode]; decide) ?_ (by rw [hnode]; decide)
    rw [hnode, if_neg (by decide), hiterations]
    rfl
  case bound => rw [hiterations]; exact h.bound
  case asking => intro _; omega
  case tools => intro _; omega
  case waiting =>
    intro hne
    rcases hcases with ⟨hsame, hstate, hanswers, -, hopen⟩ | ⟨-, hwaiting⟩
    · rw [hsame, hstate, hanswers]
      exact ⟨hnode, hopen⟩
    · exact absurd (hwaiting.trans hnone) hne
  case limit =>
    intro hlimit
    rcases hcases with ⟨hsame, -⟩ | ⟨hcompact, -⟩
    · exact absurd (hlimit.symm.trans (hsame.trans hnode)) (by decide)
    · exact absurd (hlimit.symm.trans hcompact) (by decide)
  case ended =>
    intro hmem
    rw [hlog] at hmem
    rcases List.mem_append.mp hmem with hearlier | hnew
    · exact absurd hearlier (h.not_limited (by rw [hnode]; decide))
    · exact absurd hnew hnotLimited

theorem Turn.Ordered.atLimit (h : t.Ordered g) (hstep : t.step g .limit = some t') :
    t'.Ordered g := by
  obtain ⟨hrun, hlog, -⟩ := turn_step hstep
  obtain ⟨hnode, hnext⟩ := Run.step_limit hrun
  obtain ⟨hcalls, hlast⟩ := h.limit hnode
  have hdone : t'.run.node = .done := by
    rw [← hnext]
    rfl
  have hiterations : t'.run.state.iterations = t.run.state.iterations := by
    rw [← hnext]
    rfl
  have hmessages : t'.run.state.messages = t.run.state.messages ++
      ((lastToolCalls t.run.state.messages).map (fun call => interrupted call.callId) ++
        [.ai (limitMessage g.config.maxIterations) []]) := by
    rw [← hnext]
    rfl
  constructor
  case replies =>
    rw [Turn.replies, hlog, List.countP_append, hiterations]
    exact h.replies
  case summaries =>
    refine h.summaries_of_ne hstep (by rw [hnode]; decide) ?_ (by rw [hnode]; decide)
    rw [hnode, if_neg (by decide), hiterations]
    rfl
  case bound => rw [hiterations]; exact h.bound
  case asking => rw [hdone]; simp
  case tools => rw [hdone]; simp
  case waiting =>
    have hwaiting : t'.run.waiting = t.run.waiting := by
      rw [← hnext]
      rfl
    rw [hwaiting, h.waiting_none (by rw [hnode]; decide)]
    exact fun hne => absurd rfl hne
  case limit => rw [hdone]; simp
  case ended =>
    refine fun _ => ⟨hdone, ?_⟩
    obtain ⟨earlier, hearlier⟩ := List.getLast?_eq_some_iff.mp hlast
    obtain ⟨before, id, text, hbefore⟩ := exists_of_lastToolCalls hcalls
    refine ⟨earlier, lastToolCalls t.run.state.messages, before, id, text, hcalls, ?_, ?_⟩
    · rw [hlog, hearlier, List.append_assoc]
      rfl
    · rw [hmessages]
      nth_rewrite 1 [hbefore]
      rw [List.append_assoc]
      rfl

theorem Turn.Ordered.resume (h : t.Ordered g) {approvalId : String} {approved : Bool}
    (hstep : t.step g (.resume approvalId approved) = some t') : t'.Ordered g := by
  obtain ⟨hrun, hlog, hcontinues⟩ := turn_step hstep
  have hwaiting : t.run.waiting ≠ none := Option.isSome_iff_ne_none.mp hcontinues
  obtain ⟨hnode, -⟩ := h.waiting hwaiting
  have hnext := Run.step_resume_waiting hwaiting hrun
  have hsame : t'.log = t.log := hlog.trans (List.append_nil _)
  have hnode' : t'.run.node = .tools := by
    rw [← hnext]
    exact hnode
  have hstate : t'.run.state = t.run.state := by
    rw [← hnext]
  have hnone : t'.run.waiting = none := by
    rw [← hnext]
  constructor
  case replies => rw [Turn.replies, hsame, hstate]; exact h.replies
  case summaries =>
    refine h.summaries_of_ne hstep (by rw [hnode]; decide) ?_ (by rw [hnode]; decide)
    rw [hnode, if_neg (by decide), hstate]
    rfl
  case bound => rw [hstate]; exact h.bound
  case asking => rw [hnode']; simp
  case tools => rw [hstate]; exact fun _ => h.tools hnode
  case waiting => exact fun hne => absurd hnone hne
  case limit => rw [hnode']; simp
  case ended =>
    rw [hsame]
    exact fun hmem => absurd hmem (h.not_limited (by rw [hnode]; decide))

theorem Turn.Ordered.step {a : Act} (h : t.Ordered g) (hstep : t.step g a = some t') :
    t'.Ordered g := by
  cases a with
  | compact summary => exact h.compact hstep
  | reply chunks error => exact h.reply hstep
  | tools outcomes => exact h.pass hstep
  | limit => exact h.atLimit hstep
  | resume approvalId approved => exact h.resume hstep
  | message input => exact nomatch (turn_step hstep).2.2

end Invariant

section Ranking

/-- The nodes of a round that are left at a node. -/
def Node.left : Node → Nat
  | .tools => 3
  | .compact => 2
  | .agent => 1
  | .limit => 1
  | .done => 0
  | .failed => 0

/-- The replies, the nodes and the approvals that are left. -/
def Turn.rank (g : Graph) (t : Turn) : Nat × Nat × Nat :=
  ((max 1 g.config.maxIterations - t.run.state.iterations).toNat, t.run.node.left,
    2 * ((lastToolCalls t.run.state.messages).countP (needsApproval g) - t.run.answers.length) +
      if t.run.waiting.isSome then 0 else 1)

/-- The lexicographic order of ranks. -/
def RankBelow : Nat × Nat × Nat → Nat × Nat × Nat → Prop :=
  Prod.Lex (· < ·) (Prod.Lex (· < ·) (· < ·))

theorem rankBelow_wellFounded : WellFounded RankBelow :=
  (Prod.lex Nat.lt_wfRel (Prod.lex Nat.lt_wfRel Nat.lt_wfRel)).wf

theorem rank_of_reply
    (hasking : (t.run.state.iterations : Int) < max 1 g.config.maxIterations)
    (hiterations : t'.run.state.iterations = t.run.state.iterations + 1) :
    RankBelow (t'.rank g) (t.rank g) := by
  apply Prod.Lex.left
  rw [hiterations]
  omega

theorem rank_of_node (hiterations : t'.run.state.iterations = t.run.state.iterations)
    (hnode : t'.run.node.left < t.run.node.left) : RankBelow (t'.rank g) (t.rank g) := by
  unfold Turn.rank
  rw [hiterations]
  exact Prod.Lex.right _ (Prod.Lex.left _ _ hnode)

theorem rank_of_approvals (hstate : t'.run.state = t.run.state) (hnode : t'.run.node = t.run.node)
    (hleft : 2 * ((lastToolCalls t.run.state.messages).countP (needsApproval g) -
          t'.run.answers.length) + (if t'.run.waiting.isSome then 0 else 1) <
        2 * ((lastToolCalls t.run.state.messages).countP (needsApproval g) -
          t.run.answers.length) + if t.run.waiting.isSome then 0 else 1) :
    RankBelow (t'.rank g) (t.rank g) := by
  unfold Turn.rank
  rw [hstate, hnode]
  exact Prod.Lex.right _ (Prod.Lex.right _ hleft)

theorem rank_step {a : Act} (h : t.Ordered g) (hstep : t.step g a = some t') :
    RankBelow (t'.rank g) (t.rank g) := by
  obtain ⟨hrun, -, hcontinues⟩ := turn_step hstep
  cases a with
  | compact summary =>
      obtain ⟨hnode, hnext⟩ := Run.step_compact hrun
      obtain ⟨hiterations, -, hagent⟩ := compactStep_spec (g := g) t.run summary
      rw [hnext] at hiterations hagent
      apply rank_of_node hiterations
      rw [hnode]
      rcases hagent with hagent | hfailed
      · rw [hagent]
        decide
      · rw [hfailed]
        decide
  | reply chunks error =>
      obtain ⟨hnode, hnext⟩ := Run.step_reply hrun
      apply rank_of_reply (h.asking (Or.inr (Or.inl hnode)))
      rw [← hnext]
      exact iterations_agentNode _ _ _ _
  | tools outcomes =>
      obtain ⟨⟨hnode, hnone⟩, hnext⟩ := Run.step_tools hrun
      obtain ⟨hiterations, hcases⟩ := toolsStep_cases (g := g) t.run outcomes
      rw [hnext] at hiterations hcases
      rcases hcases with ⟨hsame, hstate, hanswers, hwaiting, -⟩ | ⟨hcompact, -⟩
      · apply rank_of_approvals hstate hsame
        rw [hanswers, hnone, if_pos (Option.isSome_iff_ne_none.mpr hwaiting)]
        simp
      · apply rank_of_node hiterations
        rw [hcompact, hnode]
        decide
  | limit =>
      obtain ⟨hnode, hnext⟩ := Run.step_limit hrun
      apply rank_of_node
      · rw [← hnext]
        rfl
      · rw [← hnext, hnode]
        exact Nat.zero_lt_one
  | resume approvalId approved =>
      have hwaiting : t.run.waiting ≠ none := Option.isSome_iff_ne_none.mp hcontinues
      obtain ⟨-, hopen⟩ := h.waiting hwaiting
      obtain ⟨payload, hpayload⟩ := Option.ne_none_iff_exists'.mp hwaiting
      have hnext := Run.step_resume_waiting hwaiting hrun
      apply rank_of_approvals
      · rw [← hnext]
      · rw [← hnext]
      · rw [← hnext, hpayload]
        simp only [List.length_append, List.length_singleton, Option.isSome_some, if_true,
          Option.isSome_none, Bool.false_eq_true, if_false]
        omega
  | message input => exact absurd hcontinues Bool.false_ne_true

/-- Until a turn is done, some step is allowed. -/
theorem turn_progress (hfailed : t.run.node ≠ .failed) :
    t.run.node = .done ∨ ∃ a t', SummaryReturns g t a ∧ t.step g a = some t' := by
  have hstep : ∀ {a : Act} {next : Run}, (∀ exc, a ≠ .compact (.error exc)) →
      t.continues a = true → t.run.step g a = some next →
      ∃ a t', SummaryReturns g t a ∧ t.step g a = some t' := by
    intro a next hsummary hcontinues hrun
    refine ⟨a, ⟨next, t.log ++ t.entries g next a⟩, fun exc heq => absurd heq (hsummary exc), ?_⟩
    unfold Turn.step
    rw [if_pos hcontinues, hrun]
    rfl
  cases hnode : t.run.node with
  | compact =>
      have hreturns : ∀ exc, Act.compact (.ok "") ≠ .compact (.error exc) := by simp
      exact Or.inr (hstep hreturns rfl (if_pos hnode))
  | agent => exact Or.inr (hstep (a := .reply [] none) (by simp) rfl (if_pos hnode))
  | tools =>
      apply Or.inr
      cases hwaiting : t.run.waiting with
      | none =>
          exact hstep (a := .tools fun _ => .returned .null) (by simp) rfl (if_pos ⟨hnode, hwaiting⟩)
      | some payload =>
          have hresumed : t.run.step g (.resume payload.approvalId true) =
              some { t.run with answers := t.run.answers ++ [true], metrics := .fresh, waiting := none } := by
            simp only [Run.step, hwaiting]
          refine hstep (by simp) ?_ hresumed
          unfold Turn.continues
          rw [hwaiting]
          rfl
  | limit => exact Or.inr (hstep (a := .limit) (by simp) rfl (if_pos hnode))
  | done => exact Or.inl rfl
  | failed => exact absurd hnode hfailed

/-- A step of a turn whose summaries return does not fail. -/
theorem not_failed_step {a : Act} (hguard : SummaryReturns g t a) (hfailed : t.run.node ≠ .failed)
    (hstep : t.step g a = some t') : t'.run.node ≠ .failed := by
  obtain ⟨hrun, -, hcontinues⟩ := turn_step hstep
  cases a with
  | compact summary =>
      obtain ⟨-, hnext⟩ := Run.step_compact hrun
      rw [← hnext]
      unfold compactStep
      split
      case h_1 => exact Node.noConfusion
      case h_2 split hsplit =>
        cases summary with
        | ok deltaText => exact Node.noConfusion
        | error exc => exact absurd (hsplit.symm.trans (hguard exc rfl)) (by simp)
  | reply chunks error =>
      obtain ⟨-, hnext⟩ := Run.step_reply hrun
      have hcases := shouldContinue_cases (g := g) t'.run.state
      have hcontinue : t'.run.node = shouldContinue g t'.run.state := by
        rw [← hnext]
        rfl
      rw [← hcontinue] at hcases
      intro heq
      simp [heq] at hcases
  | tools outcomes =>
      obtain ⟨⟨hnode, -⟩, hnext⟩ := Run.step_tools hrun
      obtain ⟨-, hcases⟩ := toolsStep_cases (g := g) t.run outcomes
      rw [hnext] at hcases
      rcases hcases with ⟨hsame, -⟩ | ⟨hcompact, -⟩
      · rw [hsame]
        exact hfailed
      · rw [hcompact]
        decide
  | limit =>
      obtain ⟨-, hnext⟩ := Run.step_limit hrun
      rw [← hnext]
      exact Node.noConfusion
  | resume approvalId approved =>
      rw [← Run.step_resume_waiting (Option.isSome_iff_ne_none.mp hcontinues) hrun]
      exact hfailed
  | message input => exact absurd hcontinues Bool.false_ne_true

/-- The agent node asks the model no more often than it may, and compaction no more often than
the agent node may. A turn that ends at the limit leaves the last calls unexecuted, answered,
and followed by the text of the limit. And whatever happens, a turn that no failed summary has
stopped comes to its end, if its compactions get their summaries. -/
theorem turn_ends (h : (turnSystem g).Reachable t) :
    (t.replies : Int) ≤ max 1 g.config.maxIterations ∧
      (t.summaries : Int) ≤ max 1 g.config.maxIterations ∧
      t.modelCalls = t.replies + t.summaries ∧
      (.limited ∈ t.log → t.run.node = .done ∧ t.EndedByLimit g) ∧
      (t.run.node ≠ .failed →
        (turnSystem g).Inevitable (SummaryReturns g) (fun t => t.run.node = .done) t) := by
  have hordered : t.Ordered g := by
    apply h.invariant
    · exact fun t ht => ordered_init ht
    · exact fun t a t' ht _ hstep => ht.step hstep
  refine ⟨?_, ?_, modelCalls_eq t, hordered.ended, fun hfailed => ?_⟩
  · rw [hordered.replies]
    exact hordered.bound
  · have hsummaries := hordered.summaries
    by_cases hnode : t.run.node = .agent ∨ t.run.node = .failed
    · have hasking := hordered.asking (Or.inr hnode)
      rw [if_pos hnode] at hsummaries
      omega
    · have hbound := hordered.bound
      rw [if_neg hnode] at hsummaries
      omega
  · apply Transition.System.inevitable_of_rank rankBelow_wellFounded (Turn.rank g)
      (I := fun t => t.Ordered g ∧ t.run.node ≠ .failed) _ _ _ ⟨hordered, hfailed⟩
    · intro t a t' ht hguard hstep
      exact ⟨ht.1.step hstep, not_failed_step hguard ht.2 hstep⟩
    · intro t ht
      exact turn_progress ht.2
    · intro t a t' ht _ hstep
      exact rank_step ht.1 hstep

/-- A configuration with one iteration for a turn. -/
def onceGraph : Graph :=
  { defaultGraph with config := { defaultConfig with maxIterations := 1 } }

/-- The one reply that is allowed asks for a call that is not executed. -/
theorem turn_ends_once : ∃ t, (turnSystem onceGraph).Reachable t ∧
    t.log = [.replied [listCall], .limited] ∧ t.replies ≤ 1 ∧ t.modelCalls = t.replies ∧
      t.EndedByLimit onceGraph := by
  have hreach : (turnSystem onceGraph).Reachable _ :=
    turn_reachable [.compact (.ok ""), .reply [{ toolCalls := [listCall] }] none, .limit] rfl
      (Transition.System.meets_true _ _)
  obtain ⟨hreplies, -, -, hended, -⟩ := turn_ends hreach
  refine ⟨_, hreach, rfl, ?_, rfl, (hended ?_).2⟩
  · exact Int.ofNat_le.mp hreplies
  · exact List.mem_cons_of_mem _ List.mem_cons_self

/-- One iteration for a turn, and a context limit that a short message is above. -/
def shortGraph : Graph :=
  { defaultGraph with
    config := { defaultConfig with
      maxIterations := 1
      contextTokenLimit := 4
      compactionKeepMessages := 0 }
    countTokens := approximateTokens }

/-- A turn with one iteration calls `backend.astream` for a summary and for its reply. And
one whose summary fails stops there, and never comes to its end. -/
theorem summary_calls_model_or_fails :
    (∃ t, (turnSystem shortGraph).Reachable t ∧ t.run.node = .done ∧
      t.log = [.summarised, .replied []] ∧
        max 1 shortGraph.config.maxIterations < (t.modelCalls : Int)) ∧
    ∃ t, (turnSystem shortGraph).init t ∧
      ¬ (turnSystem shortGraph).Inevitable (fun _ _ => True) (fun t => t.run.node = .done) t := by
  constructor
  · have hreach : (turnSystem shortGraph).Reachable _ :=
      turn_reachable [.compact (.ok "a greeting"), .reply [{ deltaText := "hello" }] none] rfl
        (Transition.System.meets_true _ _)
    exact ⟨_, hreach, rfl, rfl, by decide⟩
  refine ⟨_, ⟨{}, textInput "hi", rfl⟩, fun h => ?_⟩
  cases h with
  | now hdone => exact nomatch hdone
  | later _ hnext =>
      have hfailed := hnext (.compact (.error "connection lost")) _ trivial rfl
      cases hfailed with
      | now hdone => exact nomatch hdone
      | later henabled _ =>
          obtain ⟨a, t, -, hstep⟩ := henabled
          cases a with
          | compact summary => exact nomatch hstep
          | reply chunks error => exact nomatch hstep
          | tools outcomes => exact nomatch hstep
          | limit => exact nomatch hstep
          | resume approvalId approved => exact nomatch hstep
          | message input => exact nomatch hstep

end Ranking

end GraphAgent
