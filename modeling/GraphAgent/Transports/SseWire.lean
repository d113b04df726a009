import GraphAgent.Core.JsonRoundTrip
import GraphAgent.Library.ServerSentEvents
import GraphAgent.Transports.Completions

/-!
# The event stream of a completion as text

`_sse_stream` writes each chunk as JSON into an event of its own. What a client that reads server-sent
events and JSON gets of it.
-/

namespace GraphAgent

open Json

section Source

/-- The fields of a `delta`. -/
def ChunkDelta.fields (delta : ChunkDelta) : List (String × Value) :=
  (delta.role.map fun role => ("role", Value.str role)).toList ++
    (delta.content.map fun content => ("content", Value.str content)).toList

/-- The `payload` of `chunk`. -/
def chunkPayload (completionId : String) (created : Int) (model : String) (delta : ChunkDelta)
    (finishReason : Option String) : Value :=
  .obj [("id", .str completionId), ("object", .str "chat.completion.chunk"),
    ("created", .int created), ("model", .str model),
    ("choices", .arr [.obj [("index", .int 0), ("delta", .obj delta.fields),
      ("finish_reason", (finishReason.map Value.str).getD .null)]])]

variable (completionId : String) (created : Int)

/-- The data of a line of the event stream. -/
def SseLine.data : SseLine → String
  | .chunk model delta finishReason =>
      dumps ⟨false, false⟩ (chunkPayload completionId created model delta finishReason)
  | .done => "[DONE]"

/-- What `_sse_stream` yields for a line. -/
def SseLine.text (line : SseLine) : String := "data: " ++ line.data completionId created ++ "\n\n"

/-- The body of the streaming response. -/
def sseBody (lines : List SseLine) : String :=
  String.join (lines.map fun line => line.text completionId created)

end Source

section Client

/-- A field of an object. -/
def Value.field? (key : String) : Value → Option Value
  | .obj fields => Args.get? fields key
  | _ => none

def Value.firstItem? : Value → Option Value
  | .arr (item :: _) => some item
  | _ => none

def Value.text? : Value → Option String
  | .str text => some text
  | _ => none

/-- `choices[0].delta.content` of the data of an event, where there is one. -/
def receivedDelta (reprFloat : String → String) (data : List Char) : Option String := do
  let payload ← loads reprFloat (String.ofList data)
  let choices ← payload.field? "choices"
  let choice ← choices.firstItem?
  let delta ← choice.field? "delta"
  let content ← delta.field? "content"
  content.text?

/-- What a client makes of the body, which ends with `[DONE]`. -/
def receivedContent (reprFloat : String → String) (body : String) : String :=
  String.join (((ServerSentEvents.events body.toList).takeWhile fun data =>
    data ≠ "[DONE]".toList).filterMap (receivedDelta reprFloat))

end Client

section Wire

variable {reprFloat : String → String} {completionId : String} {created : Int}

theorem proper_chunkPayload (model : String) (delta : ChunkDelta) (finishReason : Option String) :
    (chunkPayload completionId created model delta finishReason).Proper reprFloat := by
  obtain ⟨role, content⟩ := delta
  cases role <;> cases content <;> cases finishReason <;>
    simp [chunkPayload, ChunkDelta.fields, Value.Proper, Value.ProperItems, Value.ProperFields]

/-- The data of a line is in one line. -/
theorem oneLine_data (line : SseLine) :
    ServerSentEvents.OneLine (line.data completionId created).toList := by
  have hprintable : Printable (line.data completionId created).toList := by
    cases line with
    | chunk model delta finishReason =>
        have hproper : (chunkPayload completionId created model delta finishReason).Proper id :=
          proper_chunkPayload model delta finishReason
        exact printable_dumps false _ hproper
    | done =>
        change Printable "[DONE]".toList
        exact printable_of_all rfl
  intro c hc
  have hlow := hprintable c hc
  refine ⟨?_, ?_⟩ <;>
    · rintro rfl
      exact absurd hlow (by decide)

theorem toList_sseBody (lines : List SseLine) : (sseBody completionId created lines).toList =
    (lines.map fun line => (line.data completionId created).toList).flatMap
      ServerSentEvents.frame := by
  unfold sseBody
  rw [String.toList_join, List.flatMap_map, List.flatMap_map]
  congr 1
  funext line
  unfold SseLine.text
  rw [String.toList_append, String.toList_append, List.append_assoc]
  rfl

/-- What a client reads of a chunk. -/
theorem receivedDelta_data (model : String) (delta : ChunkDelta) (finishReason : Option String) :
    receivedDelta reprFloat
      ((SseLine.chunk model delta finishReason).data completionId created).toList =
        delta.content := by
  have hproper : (chunkPayload completionId created model delta finishReason).Proper reprFloat :=
    proper_chunkPayload model delta finishReason
  unfold receivedDelta SseLine.data
  rw [String.ofList_toList, loads_dumps false hproper]
  obtain ⟨role, content⟩ := delta
  cases role <;> cases content <;> rfl

theorem data_ne_done (model : String) (delta : ChunkDelta) (finishReason : Option String) :
    ((SseLine.chunk model delta finishReason).data completionId created).toList ≠
      "[DONE]".toList := by
  unfold SseLine.data chunkPayload
  rw [toList_dumps_obj]
  intro h
  cases (List.cons.inj h).1

/-- The chunks of an event stream stand before its `[DONE]`. -/
theorem sseStream_eq (model sessionId : String) (events : List Event) :
    ∃ chunks : List (String × ChunkDelta × Option String), sseStream model sessionId events =
      (chunks.map fun chunk => .chunk chunk.1 chunk.2.1 chunk.2.2) ++ [.done] := by
  refine ⟨[(model, { role := some "assistant", content := some "" }, none)] ++
    (events.filterMap completionText).map (fun text => (model, { content := some text }, none)) ++
      ((lastApproval events).map fun approval =>
        (model, { content := some (approvalSuffix approval sessionId) }, none)).toList ++
          [(model, ⟨none, none⟩, some "stop")], ?_⟩
  unfold sseStream
  cases lastApproval events <;> simp [Function.comp_def]

/-- A client reads the lines of the stream as they are, whatever the model has said, and what it
puts together is the text of the events with the note about an approval. -/
theorem sse_received (reprFloat : String → String) (completionId : String) (created : Int)
    (model sessionId : String) (events : List Event) :
    ServerSentEvents.events
        (sseBody completionId created (sseStream model sessionId events)).toList =
      (sseStream model sessionId events).map (fun line => (line.data completionId created).toList) ∧
    receivedContent reprFloat
        (sseBody completionId created (sseStream model sessionId events)) =
      eventText events ++
        ((lastApproval events).map fun approval => approvalSuffix approval sessionId).getD "" := by
  have hevents : ServerSentEvents.events
      (sseBody completionId created (sseStream model sessionId events)).toList =
        (sseStream model sessionId events).map
          (fun line => (line.data completionId created).toList) := by
    rw [toList_sseBody]
    refine ServerSentEvents.events_frames _ fun data hdata => ?_
    obtain ⟨line, -, rfl⟩ := List.mem_map.1 hdata
    exact oneLine_data line
  refine ⟨hevents, ?_⟩
  obtain ⟨chunks, hchunks⟩ := sseStream_eq model sessionId events
  rw [← @streamedContent_sseStream model sessionId events, receivedContent, hevents, hchunks,
    List.map_append, List.map_map, List.takeWhile_append_of_pos, streamedContent]
  · have hdone : (([SseLine.done].map fun line => (line.data completionId created).toList).takeWhile
        fun data => decide (data ≠ "[DONE]".toList)) = [] :=
      List.takeWhile_cons_of_neg (by simp [SseLine.data])
    rw [hdone, List.append_nil, List.filterMap_map, List.filterMap_append, List.filterMap_map]
    have hcontent : receivedDelta reprFloat ∘ ((fun line : SseLine =>
        (line.data completionId created).toList) ∘ fun chunk : String × ChunkDelta × Option String =>
          .chunk chunk.1 chunk.2.1 chunk.2.2) =
        SseLine.content? ∘ fun chunk => .chunk chunk.1 chunk.2.1 chunk.2.2 :=
      funext fun chunk => receivedDelta_data _ _ _
    have hend : String.join ([SseLine.done].filterMap SseLine.content?) = "" := rfl
    rw [hcontent, String.join_append, hend, String.append_empty]
  · intro data hdata
    obtain ⟨chunk, -, rfl⟩ := List.mem_map.1 hdata
    exact decide_eq_true (data_ne_done _ _ _)

end Wire

end GraphAgent
