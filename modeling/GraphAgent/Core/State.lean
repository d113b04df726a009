import GraphAgent.Core.Messages

/-!
# The state of a thread

`AgentState` with LangGraph's way of writing to it: a key that a write leaves
out keeps its value, and `messages` goes through the `add_messages` reducer.
-/

namespace GraphAgent

inductive ApprovalMode where
  | manual
  | auto
  deriving DecidableEq

/-- `DEFAULT_APPROVAL_MODE`. -/
def defaultApprovalMode : ApprovalMode := .manual

/-- The checkpointed state of a thread. A thread without a checkpoint is `{}`. -/
structure AgentState where
  messages : List Message := []
  sessionId : String := ""
  iterations : Nat := 0
  approvalMode : Option ApprovalMode := none
  systemPrompt : Option String := none

/-- `resolve_approval_mode`. -/
def resolveApprovalMode (state : AgentState) : ApprovalMode :=
  state.approvalMode.getD defaultApprovalMode

/-- A write to `messages`: new messages, or a list that starts with
`REMOVE_ALL_MESSAGES`. -/
inductive Update where
  | append (messages : List Message)
  | replaceAll (messages : List Message)

/-- The `add_messages` reducer on the writes that the source makes: new messages
have no id yet, and `REMOVE_ALL_MESSAGES` drops everything before it. -/
def addMessages (left : List Message) : Update → List Message
  | .append messages => left ++ messages
  | .replaceAll messages => messages

/-- What a node of the graph returns. Every node writes these keys only. -/
structure NodeWrite where
  messages : Option Update := none
  iterations : Option Nat := none

def AgentState.writeNode (state : AgentState) (write : NodeWrite) : AgentState :=
  { state with
    messages := write.messages.elim state.messages (addMessages state.messages)
    iterations := write.iterations.getD state.iterations }

/-- The input of a run; an optional key is written only when it is present. -/
structure RunInput where
  messages : List Message
  sessionId : String
  approvalMode : Option ApprovalMode
  systemPrompt : Option String

/-- The input of a run is written to the thread before its first node. -/
def AgentState.writeInput (state : AgentState) (input : RunInput) : AgentState where
  messages := addMessages state.messages (.append input.messages)
  sessionId := input.sessionId
  iterations := 0
  approvalMode := input.approvalMode.or state.approvalMode
  systemPrompt := input.systemPrompt.or state.systemPrompt

@[simp] theorem writeNode_approvalMode (state : AgentState) (write : NodeWrite) :
    (state.writeNode write).approvalMode = state.approvalMode := rfl

/-- The `user_input` of a run. -/
inductive UserInput where
  | text (content : String)
  | parts (content : List Value)
  | messages (messages : List Message)

/-- `_to_messages`. -/
def toMessages : UserInput → List Message
  | .text content => [.human (.str content)]
  | .parts content => [.human (.arr content)]
  | .messages [] => [.human (.arr [])]
  | .messages (m :: rest) => m :: rest

end GraphAgent
