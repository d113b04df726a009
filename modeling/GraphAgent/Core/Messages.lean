import GraphAgent.Core.Json
import GraphAgent.Library.Pairing

/-!
# Messages and the repair of tool-call pairs

The message history of a thread and `repair_tool_call_pairs`. The loop of the
source carries the ids that still wait for a result; it computes the mending of
question and answer histories, and a valid history is a well paired one.
-/

namespace GraphAgent

/-- One entry of `AIMessage.tool_calls`. -/
structure ToolCall where
  id : Option String
  name : String
  args : Args

/-- `str(call["id"])`. -/
def ToolCall.callId (call : ToolCall) : String := call.id.getD "None"

/-- The classes of messages and the fields that are read of them. -/
inductive Body where
  | human (content : Value)
  | system (content : String)
  | ai (content : String) (toolCalls : List ToolCall)
  | tool (content : String) (toolCallId : String)
  | other (type : String) (content : Value)

/-- A message. Its id is absent until the thread's reducer assigns one. -/
structure Message where
  id : Option Nat
  body : Body

namespace Message

def human (content : Value) : Message := ⟨none, .human content⟩

def system (content : String) : Message := ⟨none, .system content⟩

def ai (content : String) (toolCalls : List ToolCall) : Message := ⟨none, .ai content toolCalls⟩

def tool (content toolCallId : String) : Message := ⟨none, .tool content toolCallId⟩

/-- `isinstance(message, ToolMessage)`. -/
def isTool (m : Message) : Bool :=
  match m.body with
  | .tool _ _ => true
  | _ => false

/-- What a message asks or answers: an assistant message with tool calls asks
for a result under each of its call ids, a tool message is such a result. -/
def kind (m : Message) : Pairing.Kind String :=
  match m.body with
  | .ai _ (call :: calls) => .asks ((call :: calls).map ToolCall.callId)
  | .tool _ toolCallId => .answers toolCallId
  | _ => .plain

@[simp] theorem kind_human (content : Value) : (human content).kind = .plain := rfl

@[simp] theorem kind_system (content : String) : (system content).kind = .plain := rfl

@[simp] theorem kind_tool (content toolCallId : String) :
    (tool content toolCallId).kind = .answers toolCallId := rfl

@[simp] theorem kind_ai_nil (content : String) : (ai content []).kind = .plain := rfl

theorem kind_ai (content : String) {calls : List ToolCall} (h : calls ≠ []) :
    (ai content calls).kind = .asks (calls.map ToolCall.callId) := by
  cases calls with
  | nil => exact absurd rfl h
  | cons call calls => rfl

/-- A message that is no tool message answers nothing. -/
theorem kind_ne_answers {m : Message} (h : m.isTool = false) (key : String) :
    m.kind ≠ .answers key := by
  rcases m with ⟨id, content | content | ⟨content, _ | ⟨call, calls⟩⟩ | ⟨content, callId⟩ |
    ⟨type, content⟩⟩ <;> simp_all [isTool, kind]

end Message

/-- A tool message is an answer. -/
theorem key?_kind (m : Message) : m.kind.key?.isNone = !m.isTool := by
  rcases m with ⟨id, content | content | ⟨content, _ | ⟨call, calls⟩⟩ | ⟨content, callId⟩ |
    ⟨type, content⟩⟩ <;> rfl

theorem key?_ne_none_iff (m : Message) : m.kind.key? ≠ none ↔ m.isTool = true := by
  rw [← Option.isSome_iff_ne_none, ← Bool.not_eq_false, ← Option.not_isNone, key?_kind]
  simp

/-- `INTERRUPTED_TOOL_RESULT`. -/
def interruptedToolResult : String :=
  "Tool call was not executed: the previous run was interrupted before producing a " ++
    "result. Treat this as a failure and do not assume the action happened."

/-- The synthetic result of a call that has none. -/
def interrupted (callId : String) : Message := .tool interruptedToolResult callId

theorem kind_interrupted (callId : String) : (interrupted callId).kind = .answers callId := rfl

/-- The variables of `repair_tool_call_pairs`. -/
structure Repair where
  repaired : List Message
  pending : List String

/-- `flush()`. -/
def Repair.flush (r : Repair) : Repair :=
  ⟨r.repaired ++ r.pending.map interrupted, []⟩

/-- One turn of the loop over the messages. -/
def Repair.read (r : Repair) (message : Message) : Repair :=
  match message.body with
  | .ai _ (call :: calls) =>
      ⟨r.flush.repaired ++ [message],
        r.flush.pending ++ (call :: calls).map ToolCall.callId⟩
  | .tool _ callId =>
      if callId ∈ r.pending then ⟨r.repaired ++ [message], r.pending.erase callId⟩ else r
  | _ => ⟨r.flush.repaired ++ [message], r.flush.pending⟩

/-- `repair_tool_call_pairs`. -/
def repairToolCallPairs (messages : List Message) : List Message :=
  (messages.foldl Repair.read ⟨[], []⟩).flush.repaired

theorem read_of_asks {m : Message} {ids : List String} (h : m.kind = .asks ids) (r : Repair) :
    r.read m = ⟨r.repaired ++ r.pending.map interrupted ++ [m], ids⟩ := by
  rcases m with ⟨id, content | content | ⟨content, _ | ⟨call, calls⟩⟩ | ⟨content, callId⟩ |
    ⟨type, content⟩⟩ <;> simp_all [Message.kind, Repair.read, Repair.flush]

theorem read_of_answers {m : Message} {id : String} (h : m.kind = .answers id) (r : Repair) :
    r.read m =
      if id ∈ r.pending then ⟨r.repaired ++ [m], r.pending.erase id⟩ else r := by
  rcases m with ⟨mid, content | content | ⟨content, _ | ⟨call, calls⟩⟩ | ⟨content, callId⟩ |
    ⟨type, content⟩⟩ <;> simp_all [Message.kind, Repair.read]

theorem read_of_plain {m : Message} (h : m.kind = .plain) (r : Repair) :
    r.read m = ⟨r.repaired ++ r.pending.map interrupted ++ [m], []⟩ := by
  rcases m with ⟨mid, content | content | ⟨content, _ | ⟨call, calls⟩⟩ | ⟨content, callId⟩ |
    ⟨type, content⟩⟩ <;> simp_all [Message.kind, Repair.read, Repair.flush]

/-- The loop with its final flush mends the rest of the history behind what it
has already put out. -/
theorem foldl_read_flush (messages : List Message) (r : Repair) :
    (messages.foldl Repair.read r).flush.repaired =
      r.repaired ++ Pairing.mend Message.kind interrupted r.pending messages := by
  induction messages generalizing r with
  | nil => rfl
  | cons m rest ih =>
      rw [List.foldl_cons, ih]
      cases hkind : m.kind with
      | asks ids => simp [read_of_asks hkind, Pairing.mend_asks hkind]
      | answers id =>
          rw [read_of_answers hkind, Pairing.mend_answers hkind]
          split <;> simp
      | plain => simp [read_of_plain hkind, Pairing.mend_plain hkind]

theorem repairToolCallPairs_eq_mend (messages : List Message) :
    repairToolCallPairs messages = Pairing.mend Message.kind interrupted [] messages := by
  simp [repairToolCallPairs, foldl_read_flush]

/-- A valid history: every assistant message with tool calls is directly
followed by a block of tool messages whose ids are, up to order, exactly the
ids of its calls, and there is no other tool message. -/
def ValidHistory (messages : List Message) : Prop :=
  Pairing.WellPaired Message.kind messages

theorem validHistory_iff_settles (messages : List Message) :
    ValidHistory messages ↔ Pairing.Settles Message.kind [] messages :=
  Pairing.wellPaired_iff_settles messages

theorem validHistory_repair (messages : List Message) :
    ValidHistory (repairToolCallPairs messages) := by
  rw [validHistory_iff_settles, repairToolCallPairs_eq_mend]
  exact Pairing.mend_settles kind_interrupted [] messages

theorem repair_eq_self_iff_valid (messages : List Message) :
    repairToolCallPairs messages = messages ↔ ValidHistory messages := by
  rw [validHistory_iff_settles, repairToolCallPairs_eq_mend]
  exact Pairing.mend_eq_self_iff kind_interrupted [] messages

theorem repair_of_valid {messages : List Message} (h : ValidHistory messages) :
    repairToolCallPairs messages = messages :=
  (repair_eq_self_iff_valid messages).mpr h

/-- Repair makes every history valid, changes exactly the histories that are
not valid, and does nothing the second time. -/
theorem repair_valid_fixed_idempotent (messages : List Message) :
    ValidHistory (repairToolCallPairs messages) ∧
      (repairToolCallPairs messages = messages ↔ ValidHistory messages) ∧
      repairToolCallPairs (repairToolCallPairs messages) = repairToolCallPairs messages :=
  ⟨validHistory_repair messages, repair_eq_self_iff_valid messages,
    repair_of_valid (validHistory_repair messages)⟩

/-- Behind a valid history repair begins anew. -/
theorem repair_append_of_valid {messages : List Message} (h : ValidHistory messages)
    (later : List Message) :
    repairToolCallPairs (messages ++ later) = messages ++ repairToolCallPairs later := by
  rw [validHistory_iff_settles] at h
  simp only [repairToolCallPairs_eq_mend]
  exact Pairing.mend_append_of_settles h later

/-- Repair drops tool messages only. -/
theorem filter_repair (messages : List Message) :
    (repairToolCallPairs messages).filter (fun m => !m.isTool) =
      messages.filter fun m => !m.isTool := by
  have hfilter := Pairing.filter_mend kind_interrupted [] messages
  simp only [key?_kind] at hfilter
  rw [repairToolCallPairs_eq_mend, hfilter]

/-- Repair adds nothing but synthetic results. -/
theorem mem_repair {m : Message} {messages : List Message} (h : m ∈ repairToolCallPairs messages) :
    m ∈ messages ∨ ∃ callId, m = interrupted callId := by
  rw [repairToolCallPairs_eq_mend] at h
  exact Pairing.mem_mend h

section Rounds

/-- Repair treats a history before and after an assistant message on its own. -/
theorem repair_cut {before after : List Message} {m : Message} (hm : m.isTool = false) :
    repairToolCallPairs (before ++ m :: after) =
      repairToolCallPairs before ++ repairToolCallPairs (m :: after) := by
  simp only [repairToolCallPairs_eq_mend]
  exact Pairing.mend_cut (Message.kind_ne_answers hm) []

/-- An assistant message whose calls have no results gets a synthetic one for each. -/
theorem repair_dangling {m : Message} {ids : List String} (hm : m.kind = .asks ids)
    {later : List Message} (hlater : ∀ next ∈ later.head?, next.isTool = false) :
    repairToolCallPairs (m :: later) =
      m :: (ids.map interrupted ++ repairToolCallPairs later) := by
  simp only [repairToolCallPairs_eq_mend, Pairing.mend_asks hm, List.map_nil, List.nil_append]
  cases later with
  | nil => simp [Pairing.mend]
  | cons next rest =>
      have hcut : Pairing.mend Message.kind interrupted ids ([] ++ next :: rest) =
          Pairing.mend Message.kind interrupted ids [] ++
            Pairing.mend Message.kind interrupted [] (next :: rest) :=
        Pairing.mend_cut (Message.kind_ne_answers (hlater next rfl)) ids
      rw [List.nil_append] at hcut
      rw [hcut]
      rfl

/-- The results of an assistant message are left as they are. -/
theorem repair_round {m : Message} {ids : List String} (hm : m.kind = .asks ids)
    {results : List Message} (hresults : results.map Message.kind = ids.map .answers)
    (later : List Message) :
    repairToolCallPairs (m :: (results ++ later)) =
      m :: (results ++ repairToolCallPairs later) := by
  simp only [repairToolCallPairs_eq_mend, Pairing.mend_asks hm, List.map_nil, List.nil_append]
  rw [Pairing.mend_block hresults (List.Perm.refl ids)]

end Rounds

section Histories

theorem validHistory_nil : ValidHistory [] := ⟨[], rfl⟩

/-- Whether a history is valid depends on what its messages ask and answer only. -/
theorem validHistory_of_kinds {messages other : List Message}
    (hkinds : messages.map Message.kind = other.map Message.kind) (h : ValidHistory messages) :
    ValidHistory other := by
  rw [validHistory_iff_settles] at h ⊢
  exact Pairing.settles_of_map_eq hkinds h

theorem validHistory_append {messages later : List Message} (h : ValidHistory messages)
    (hlater : ValidHistory later) : ValidHistory (messages ++ later) := by
  rw [validHistory_iff_settles] at h hlater ⊢
  exact Pairing.settles_append h hlater

theorem validHistory_plain {m : Message} (hm : m.kind = .plain) {rest : List Message}
    (h : ValidHistory rest) : ValidHistory (m :: rest) := by
  rw [validHistory_iff_settles] at h ⊢
  exact (Pairing.settles_plain hm [] rest).mpr ⟨rfl, h⟩

/-- A valid history can be cut before every message that is no tool message. -/
theorem validHistory_cut {before after : List Message} {m : Message}
    (h : ValidHistory (before ++ m :: after)) (hm : m.isTool = false) :
    ValidHistory before ∧ ValidHistory (m :: after) := by
  simp only [validHistory_iff_settles] at h ⊢
  exact Pairing.settles_cut h (Message.kind_ne_answers hm)

/-- A valid history does not start with a tool message. -/
theorem isTool_head?_of_valid {messages : List Message} (h : ValidHistory messages) :
    ∀ m ∈ messages.head?, m.isTool = false := by
  intro m hm
  obtain ⟨rest, rfl⟩ := List.head?_eq_some_iff.mp hm
  rw [validHistory_iff_settles] at h
  rw [← Bool.not_eq_true, ← key?_ne_none_iff, not_not]
  exact Pairing.key?_head_of_settles h

/-- An assistant message together with one result for each of its calls. -/
theorem validHistory_round {m : Message} {ids : List String} (hm : m.kind = .asks ids)
    {results : List Message} (hresults : results.map Message.kind = ids.map .answers)
    {rest : List Message} (h : ValidHistory rest) : ValidHistory (m :: (results ++ rest)) := by
  rw [validHistory_iff_settles] at h ⊢
  exact (Pairing.settles_asks hm [] _).mpr
    ⟨rfl, (Pairing.settles_block hresults (List.Perm.refl ids)).mpr h⟩

end Histories

section Matching

/-- What repair does with each message of a history: a message that is no tool message is
kept; a tool message is kept if its id is asked for more often, by the last message before it
that is none, than it has been answered since; and behind each block of tool messages the ids
that are left of those asked for get synthetic results, in the order of the calls. -/
theorem repair_outcomes (messages : List Message) :
    repairToolCallPairs messages =
        (Pairing.positions [] messages).flatMap (Pairing.outcome Message.kind interrupted) ∧
      (repairToolCallPairs messages).filter (fun m => !m.isTool) =
        messages.filter (fun m => !m.isTool) ∧
      (∀ before : List Message,
        (Pairing.unanswered Message.kind before).Sublist (Pairing.asked Message.kind before) ∧
          ∀ callId, (Pairing.unanswered Message.kind before).count callId =
            (Pairing.asked Message.kind before).count callId -
              (Pairing.given Message.kind before).count callId) ∧
      ∀ (before block : List Message) (m : Message) (callId : String),
        m.kind = .answers callId → (∀ later ∈ block, later.isTool = true) →
        callId ∈ Pairing.unanswered Message.kind (before ++ m :: block) →
        Pairing.kept Message.kind before m = [m] := by
  refine ⟨?_, ?_, ?_, ?_⟩
  · rw [repairToolCallPairs_eq_mend, Pairing.mend_eq_outcomes]
  · exact filter_repair messages
  · intro before
    exact ⟨List.diff_sublist _ _, Pairing.count_unanswered before⟩
  · intro before block m callId hm hblock hleft
    have hanswers : ∀ later ∈ block, later.kind.key? ≠ none :=
      fun later hlater => (key?_ne_none_iff later).mpr (hblock later hlater)
    exact Pairing.kept_of_unanswered hm hanswers hleft

end Matching

end GraphAgent
