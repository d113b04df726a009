import GraphAgent.Core.ToolCalls

/-!
# The consumers of a run's events

Four event loops read the stream of a run: the HTTP endpoint as one JSON body or
as server-sent events, the voice delegate, and the scheduler. None of them reads
a `CancelledEvent`, with which a cancelled run ends.
-/

namespace GraphAgent

/-- `_approval_suffix`. -/
def approvalSuffix (approval : ApprovalPayload) (sessionId : String) : String :=
  "[approval required for tool '" ++ approval.name ++ "' with args " ++
    Json.dumps ⟨false, false⟩ (.obj approval.args) ++ " - approval_id: " ++
    approval.approvalId ++ " - resolve via POST /v1/sessions/" ++ sessionId ++ "/approvals/" ++
    approval.approvalId ++ "]"

/-- `_file_note`. -/
def fileNote (path : String) (caption : Option String) : String :=
  let caption := caption.getD ""
  "\n[file: " ++ path ++ (if caption = "" then "" else " (" ++ caption ++ ")") ++ "]"

/-- The approval that the HTTP loops keep of the events. -/
def lastApproval (events : List Event) : Option ApprovalPayload :=
  events.foldl (fun approval event =>
    match event with
    | .approvalRequest approvalId toolCallId name args => some ⟨approvalId, toolCallId, name, args⟩
    | _ => approval) none

section Http

/-- What one event adds to the text of a completion. -/
def completionText : Event → Option String
  | .token delta => some delta
  | .error message _ => some ("\n[error] " ++ message)
  | .file path caption => some (fileNote path caption)
  | _ => none

/-- `_collect_stream`. -/
def collectStream (events : List Event) : String × Option ApprovalPayload :=
  (String.join (events.filterMap completionText), lastApproval events)

/-- `body["approval"]`. -/
structure ApprovalBody where
  approvalId : String
  name : String
  args : Args
  sessionId : String

/-- The body of a completion with its single choice. -/
structure CompletionBody where
  model : String
  role : String
  content : String
  finishReason : String
  approval : Option ApprovalBody

/-- `_completion_body`. -/
def completionBody (model text : String) (approval : Option ApprovalPayload) (sessionId : String) :
    CompletionBody where
  model := model
  role := "assistant"
  content :=
    match approval with
    | none => text
    | some approval =>
        let suffix := approvalSuffix approval sessionId
        if text = "" then suffix else text ++ "\n" ++ suffix
  finishReason := "stop"
  approval := approval.map fun approval =>
    ⟨approval.approvalId, approval.name, approval.args, sessionId⟩

/-- The `delta` of a chunk. -/
structure ChunkDelta where
  role : Option String := none
  content : Option String := none

/-- A line of the event stream: a chunk, or the closing `[DONE]`. -/
inductive SseLine where
  | chunk (model : String) (delta : ChunkDelta) (finishReason : Option String)
  | done

/-- `_sse_stream`. -/
def sseStream (model sessionId : String) (events : List Event) : List SseLine :=
  [.chunk model { role := some "assistant", content := some "" } none] ++
    (events.filterMap completionText).map (fun text => .chunk model { content := some text } none) ++
    ((lastApproval events).map fun approval =>
      .chunk model { content := some (approvalSuffix approval sessionId) } none).toList ++
    [.chunk model {} (some "stop"), .done]

end Http

section Delegate

/-- The variables of the loop in `_run_brain`. -/
structure BrainText where
  parts : List String
  finalText : Option String

def BrainText.read (brain : BrainText) : Event → BrainText
  | .token delta => { brain with parts := brain.parts ++ [delta] }
  | .error message _ => { brain with parts := brain.parts ++ ["[error] " ++ message] }
  | .done _ finalText => { brain with finalText := finalText }
  | _ => brain

/-- What `_run_brain` returns for the events of a run that does not raise.
`normalize` is `normalize_for_speech`. -/
def runBrain (normalize : String → String) (events : List Event) : String :=
  let brain := events.foldl BrainText.read ⟨[], none⟩
  let text :=
    if String.join brain.parts = "" then brain.finalText.getD "" else String.join brain.parts
  if normalize text = "" then "(no response)" else normalize text

end Delegate

section Scheduler

/-- The variables of the loop in `execute_job`. -/
structure JobRun where
  finalText : Option String
  files : List (String × Option String)
  hadError : Bool

def JobRun.read (job : JobRun) : Event → JobRun
  | .done _ finalText => { job with finalText := finalText }
  | .file path caption => { job with files := job.files ++ [(path, caption)] }
  | .error _ _ => { job with hadError := true }
  | _ => job

/-- What a sink is given. -/
inductive SinkCall where
  | sendFile (path : String) (caption : Option String)
  | send (text : String)

/-- `CronScheduler.execute_job`, by the calls it makes on its sink. -/
def executeJob (outputChannel : Option String) (sinks : List String) (events : List Event) :
    List SinkCall :=
  let job := events.foldl JobRun.read ⟨none, [], false⟩
  match outputChannel with
  | none => []
  | some channel =>
      if channel ∉ sinks then []
      else if job.hadError then []
      else
        job.files.map (fun file => .sendFile file.1 file.2) ++
          if job.finalText.getD "" ≠ "" then [.send (job.finalText.getD "")]
          else if job.files.isEmpty then [.send "(no output)"]
          else []

end Scheduler

/-- A consumer of a run with what it has at hand besides the events. -/
inductive Consumer where
  | httpJson (model sessionId : String)
  | sse (model sessionId : String)
  | delegate (callId : String) (isCurrent : Bool)
  | scheduler (outputChannel : Option String) (sinks : List String)

/-- What a consumer hands on to the outside. -/
inductive Delivery where
  | response (body : CompletionBody)
  | line (line : SseLine)
  | functionCallOutput (callId output : String)
  | responseCreate
  | sink (call : SinkCall)

/-- What a consumer makes of the events of a run. -/
def Consumer.deliver (normalize : String → String) (events : List Event) : Consumer → List Delivery
  | .httpJson model sessionId =>
      let (text, approval) := collectStream events
      [.response (completionBody model text approval sessionId)]
  | .sse model sessionId => (sseStream model sessionId events).map .line
  | .delegate callId isCurrent =>
      if isCurrent then [.functionCallOutput callId (runBrain normalize events), .responseCreate]
      else []
  | .scheduler outputChannel sinks => (executeJob outputChannel sinks events).map .sink

/-- An output that passes for a completed answer. -/
def Delivery.Completes : Delivery → Prop
  | .response body => body.finishReason = "stop"
  | .line (.chunk _ _ finishReason) => finishReason = some "stop"
  | .line .done => False
  | .functionCallOutput _ _ => True
  | .responseCreate => False
  | .sink _ => True

/-- A consumer delivers nothing that passes for a completed answer. -/
def Consumer.Discards (normalize : String → String) (events : List Event) (consumer : Consumer) :
    Prop :=
  ∀ delivery ∈ consumer.deliver normalize events, ¬ delivery.Completes

/-- Where a consumer withholds its output for another reason than the cancellation:
the delegation has been superseded, or the job has nowhere to report to or has
seen an error. -/
def Consumer.Withholds (events : List Event) : Consumer → Prop
  | .httpJson _ _ => False
  | .sse _ _ => False
  | .delegate _ isCurrent => isCurrent = false
  | .scheduler outputChannel sinks =>
      (∀ channel, outputChannel = some channel → channel ∉ sinks) ∨
        ∃ message code, .error message code ∈ events

section Loops

variable {events : List Event}

theorem hadError_iff (events : List Event) (job : JobRun) :
    (events.foldl JobRun.read job).hadError = true ↔
      job.hadError = true ∨ ∃ message code, .error message code ∈ events := by
  induction events generalizing job with
  | nil => simp
  | cons event rest ih =>
      rw [List.foldl_cons, ih]
      cases event with
      | error message code =>
          exact iff_of_true (Or.inl rfl) (Or.inr ⟨message, code, List.mem_cons_self⟩)
      | _ => simp [JobRun.read]

/-- A job reports unless it has no sink or has seen an error. -/
theorem executeJob_eq_nil_iff (outputChannel : Option String) (sinks : List String) :
    executeJob outputChannel sinks events = [] ↔
      (∀ channel, outputChannel = some channel → channel ∉ sinks) ∨
        ∃ message code, .error message code ∈ events := by
  have herror := hadError_iff events ⟨none, [], false⟩
  simp only [Bool.false_eq_true, false_or] at herror
  unfold executeJob
  dsimp only
  cases outputChannel with
  | none => simp
  | some channel =>
      dsimp only
      by_cases hsink : channel ∈ sinks
      · rw [if_neg (not_not_intro hsink), ← herror]
        split
        case isTrue hhad => simp [hhad]
        case isFalse hnot =>
          have hsends : ∀ {files : List (String × Option String)} {text : String},
              files.map (fun file => SinkCall.sendFile file.1 file.2) ++
                (if text ≠ "" then [.send text]
                  else if files.isEmpty then [.send "(no output)"] else []) ≠ [] := by
            intro files text
            cases files with
            | nil => split <;> simp
            | cons file files => simp
          exact iff_of_false hsends fun hor =>
            hor.elim (fun hnone => hnone channel rfl hsink) hnot
      · rw [if_pos hsink]
        simp [hsink]

/-- The closing event of a cancelled run is read by no loop. -/
theorem deliver_cancelled (normalize : String → String) (consumer : Consumer) (sessionId : String) :
    consumer.deliver normalize (events ++ [.cancelled sessionId]) =
      consumer.deliver normalize events := by
  have hquiet : [Event.cancelled sessionId].filterMap completionText = [] := rfl
  cases consumer with
  | httpJson model session => simp [Consumer.deliver, collectStream, lastApproval, List.filterMap_append, hquiet]
  | sse model session => simp [Consumer.deliver, sseStream, lastApproval, List.filterMap_append, hquiet]
  | delegate callId isCurrent => simp [Consumer.deliver, runBrain, BrainText.read]
  | scheduler outputChannel sinks => simp [Consumer.deliver, executeJob, JobRun.read]

end Loops

/-- A consumer of a cancelled run discards its partial output only where it would
withhold the output of any run: the HTTP endpoint never does. -/
theorem discards_iff_withholds (normalize : String → String) (events : List Event)
    (sessionId : String) (consumer : Consumer) :
    consumer.Discards normalize (events ++ [.cancelled sessionId]) ↔ consumer.Withholds events := by
  unfold Consumer.Discards
  rw [deliver_cancelled]
  cases consumer with
  | httpJson model session =>
      refine iff_of_false (fun h => ?_) id
      exact h _ List.mem_cons_self rfl
  | sse model session =>
      refine iff_of_false (fun h => ?_) id
      refine h (.line (.chunk model {} (some "stop"))) ?_ rfl
      exact List.mem_map_of_mem (List.mem_append_right _ List.mem_cons_self)
  | delegate callId isCurrent =>
      cases isCurrent with
      | false => exact iff_of_true nofun rfl
      | true => exact iff_of_false (fun h => h _ List.mem_cons_self trivial) Bool.noConfusion
  | scheduler outputChannel sinks =>
      simp only [Consumer.deliver, Consumer.Withholds]
      rw [← executeJob_eq_nil_iff]
      constructor
      · intro h
        apply List.eq_nil_iff_forall_not_mem.mpr
        intro call hcall
        exact h _ (List.mem_map_of_mem hcall) trivial
      · intro hnil
        rw [hnil]
        exact nofun

/-- A run that is cancelled after half a sentence passes for an answer with all
four consumers. -/
theorem partial_output_delivered :
    let events : List Event := [.token "The flight leaves at", .cancelled "shared:1"]
    collectStream events = ("The flight leaves at", none) ∧
      runBrain id events = "The flight leaves at" ∧
      executeJob (some "telegram") ["telegram"] events = [.send "(no output)"] ∧
      ¬ (Consumer.httpJson "graph-agent" "default").Discards id events ∧
      ¬ (Consumer.sse "graph-agent" "default").Discards id events ∧
      ¬ (Consumer.delegate "c1" true).Discards id events ∧
      ¬ (Consumer.scheduler (some "telegram") ["telegram"]).Discards id events := by
  intro events
  refine ⟨rfl, rfl, rfl, fun h => ?_, fun h => ?_, fun h => ?_, fun h => ?_⟩
  · exact h _ List.mem_cons_self rfl
  · refine h (.line (.chunk "graph-agent" {} (some "stop"))) ?_ rfl
    exact List.mem_map_of_mem (List.mem_append_right _ List.mem_cons_self)
  · exact h _ List.mem_cons_self trivial
  · exact h (.sink (.send "(no output)")) List.mem_cons_self trivial

end GraphAgent
