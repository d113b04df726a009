import GraphAgent.Core.Json

/-!
# The events of a run

What a run reports to its consumer. The random `event_id` of each event is left
out.
-/

namespace GraphAgent

/-- The events that nodes and the service emit. -/
inductive Event where
  | token (delta : String)
  | toolCall (toolCallId name : String) (args : Args)
  | toolResult (toolCallId name : String) (result : Value) (isError : Bool)
  | approvalRequest (approvalId toolCallId name : String) (args : Args)
  | file (path : String) (caption : Option String)
  | error (message : String) (code : Option String)
  | metrics (iterations llmCalls toolCalls : Nat)
      (llmDurationMs toolDurationMs totalDurationMs : Nat)
      (promptTokens completionTokens : Option Nat)
  | done (sessionId : String) (finalText : Option String)
  | cancelled (sessionId : String)

end GraphAgent
