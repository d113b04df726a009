import GraphAgent.Service.EventStream
import GraphAgent.Transports.Consumers

/-!
# The two renderings of a completion

The text of a completion reaches the client of the HTTP endpoint in one JSON body or
in the deltas of an event stream. The body separates the note about an approval from
the text before it; the event stream does not.
-/

namespace GraphAgent

section Renderings

variable (model sessionId : String) (events : List Event)

/-- What `chat_completions` answers without `stream`. -/
def jsonCompletion : CompletionBody :=
  let (text, approval) := collectStream events
  completionBody model text approval sessionId

/-- The content that a line of the event stream adds. -/
def SseLine.content? : SseLine → Option String
  | .chunk _ delta _ => delta.content
  | .done => none

/-- The content deltas of an event stream, one behind the other. -/
def streamedContent (lines : List SseLine) : String :=
  String.join (lines.filterMap SseLine.content?)

/-- The client gets the same text either way. -/
def SameContent : Prop :=
  streamedContent (sseStream model sessionId events) =
    (jsonCompletion model sessionId events).content

end Renderings

/-- The event adds something to the text of a completion. -/
def Event.shows : Event → Bool
  | .token delta => delta ≠ ""
  | .error .. => true
  | .file .. => true
  | _ => false

section Contents

variable {model sessionId : String} {events : List Event}

/-- The text of the events before the note about an approval. -/
def eventText (events : List Event) : String := String.join (events.filterMap completionText)

theorem completionText_eq_empty_iff (event : Event) :
    (completionText event).getD "" = "" ↔ event.shows = false := by
  cases event with
  | token delta => simp [completionText, Event.shows]
  | error message code => simp [completionText, Event.shows]
  | file path caption => simp [completionText, Event.shows, fileNote]
  | _ => exact iff_of_true rfl rfl

theorem eventText_cons (event : Event) :
    eventText (event :: events) = (completionText event).getD "" ++ eventText events := by
  unfold eventText
  cases htext : completionText event with
  | none => simp [htext]
  | some text => simp [htext]

theorem eventText_eq_empty_iff : eventText events = "" ↔ ∀ event ∈ events, event.shows = false := by
  induction events with
  | nil => exact iff_of_true rfl nofun
  | cons event rest ih =>
      rw [eventText_cons, String.append_eq_empty_iff, completionText_eq_empty_iff, ih,
        List.forall_mem_cons]

theorem lastApproval_eq_none_iff : lastApproval events = none ↔ AsksNothing events := by
  unfold lastApproval AsksNothing
  induction events using List.reverseRecOn with
  | nil => exact iff_of_true rfl nofun
  | append_singleton front last ih =>
      rw [List.foldl_append, List.forall_mem_append, List.forall_mem_singleton]
      cases last with
      | approvalRequest => exact iff_of_false nofun fun h => nomatch h.2
      | _ => exact ih.trans (and_iff_left rfl).symm

/-- The event stream puts the note behind the text as it is. -/
theorem streamedContent_sseStream :
    streamedContent (sseStream model sessionId events) = eventText events ++
      ((lastApproval events).map fun approval => approvalSuffix approval sessionId).getD "" := by
  have hstart :
      [SseLine.chunk model { role := some "assistant", content := some "" } none].filterMap
        SseLine.content? = [""] := rfl
  have hdeltas : ∀ texts : List String,
      (texts.map fun text => SseLine.chunk model { content := some text } none).filterMap
        SseLine.content? = texts := by
    intro texts
    rw [List.filterMap_map]
    exact List.filterMap_some
  have hend : [SseLine.chunk model {} (some "stop"), .done].filterMap SseLine.content? = [] := rfl
  unfold streamedContent sseStream eventText
  simp only [List.filterMap_append, hstart, hdeltas, hend, String.join_append, List.append_nil]
  cases lastApproval events with
  | none => simp
  | some approval => simp [SseLine.content?]

theorem sameContent_of_asksNothing (h : AsksNothing events) :
    SameContent model sessionId events := by
  have hnone := lastApproval_eq_none_iff.mpr h
  rw [SameContent, streamedContent_sseStream, hnone]
  change _ = (completionBody model (eventText events) (lastApproval events) sessionId).content
  rw [hnone]
  exact String.append_empty

/-- With a note, the two texts differ by a line break where there is text before it. -/
theorem sameContent_iff_of_asks {approval : ApprovalPayload}
    (h : lastApproval events = some approval) :
    SameContent model sessionId events ↔ eventText events = "" := by
  rw [SameContent, streamedContent_sseStream, h]
  change _ = (completionBody model (eventText events) (lastApproval events) sessionId).content ↔ _
  rw [h]
  change eventText events ++ approvalSuffix approval sessionId =
    (if eventText events = "" then approvalSuffix approval sessionId
      else eventText events ++ "\n" ++ approvalSuffix approval sessionId) ↔ _
  constructor
  · intro hsame
    by_contra hshown
    rw [if_neg hshown] at hsame
    have hlength := congrArg String.length hsame
    simp only [String.length_append] at hlength
    have hbreak : "\n".length = 1 := rfl
    omega
  · intro hempty
    rw [hempty, if_pos rfl, String.empty_append]

/-- The client gets the same text either way exactly where no approval is asked for, or
nothing shows before the note about it. -/
theorem sameContent_iff (model sessionId : String) (events : List Event) :
    SameContent model sessionId events ↔
      AsksNothing events ∨ ∀ event ∈ events, event.shows = false := by
  rw [← lastApproval_eq_none_iff, ← eventText_eq_empty_iff]
  cases happroval : lastApproval events with
  | none =>
      have hasks := lastApproval_eq_none_iff.mp happroval
      exact iff_of_true (sameContent_of_asksNothing hasks) (Or.inl rfl)
  | some approval => rw [sameContent_iff_of_asks happroval, or_iff_right nofun]

/-- The agent tells what it is about to do, and the call that it makes waits for an approval:
in the event stream the note runs on from the text. -/
theorem note_runs_on :
    ¬ ∀ (g : Graph) (r : Run) (threadId : String) (events : List Event),
      r.Yields g threadId events none → ∀ model sessionId, SameContent model sessionId events := by
  intro hsame
  have hyields : (Run.start (AgentState.writeInput {} (textInput "list"))).Yields defaultGraph "s1"
      [.token "I look.", .approvalRequest "c1" "c1" "shell" listCall.args] none :=
    @Run.Yields.node _ _ _ _ _ [] _ _ rfl (.compact (.ok ""))
      (.node rfl (.reply [{ deltaText := "I look.", toolCalls := [listCall] }] none)
        (@Run.Yields.node _ _ _ _ (.tools fun _ => .returned .null) [] _ _ rfl
          (.interrupted rfl List.nil_subperm)
          (@Run.Yields.waiting _ _ _ ⟨"c1", "c1", "shell", listCall.args⟩ rfl "i1")))
  have hempty := (sameContent_iff_of_asks rfl).mp (hsame _ _ _ _ hyields "graph-agent" "default")
  exact absurd hempty (by decide)

/-- The endpoint itself passes automatic mode to its runs, in which no note is written. -/
theorem Run.Yields.sameContent {g : Graph} {state : AgentState} {input : RunInput}
    {threadId : String} {raised : Option String} (hauto : input.approvalMode = some .auto)
    (h : (Run.start (state.writeInput input)).Yields g threadId events raised) :
    SameContent model sessionId events := by
  have hmode : (state.writeInput input).approvalMode = some .auto :=
    congrArg (Option.or · state.approvalMode) hauto
  exact sameContent_of_asksNothing (h.asksNothing ⟨hmode, rfl⟩)

end Contents

end GraphAgent
