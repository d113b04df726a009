import GraphAgent.Core.JsonRoundTrip
import GraphAgent.Core.Messages
import GraphAgent.Library.Dictionaries

/-!
# Tool calls on the wire

`to_openai_messages` writes the arguments of a call as a text, and `assemble_tool_calls` puts
calls together from fragments of such texts, which a provider streams in pieces and one call
between the other.
-/

namespace GraphAgent.LlmParsing

open Json

section Source

/-- `_as_text` -/
def asText (content : Value) : String :=
  match content with
  | .str text => text
  | .arr [] => ""
  | content => dumps ⟨false, false⟩ content

/-- An entry of `tool_calls` in a request. -/
structure WireCall where
  id : Option String
  name : String
  arguments : String

/-- A message of a request. A key that it has not got is absent. -/
structure WireMessage where
  role : String
  content : Value
  toolCalls : Option (List WireCall) := none
  toolCallId : Option String := none

/-- What `to_openai_messages` makes of a tool call. -/
def wireCall (call : ToolCall) : WireCall := ⟨call.id, call.name, dumps ⟨false, true⟩ (.obj call.args)⟩

/-- What `to_openai_messages` makes of a message. -/
def wireMessage (message : Message) : WireMessage :=
  match message.body with
  | .tool content toolCallId =>
      { role := "tool", content := .str (asText (.str content)), toolCallId := some toolCallId }
  | .ai content toolCalls =>
      { role := "assistant"
        content := .str (asText (.str content))
        toolCalls := if toolCalls.isEmpty then none else some (toolCalls.map wireCall) }
  | .human content => { role := "user", content := content }
  | .system content => { role := "system", content := .str content }
  | .other type content => { role := type, content := content }

/-- `to_openai_messages` -/
def toOpenaiMessages (messages : List Message) : List WireMessage := messages.map wireMessage

/-- `ToolCallFragment` -/
structure ToolCallFragment where
  index : Int
  id : Option String := none
  name : Option String := none
  arguments : Option String := none

/-- `_PendingCall` -/
structure PendingCall where
  id : String := ""
  name : String := ""
  arguments : String := ""

/-- A text that counts as given: neither absent nor empty. -/
def given (text : Option String) : Option String := text.filter fun text => text ≠ ""

/-- What the loop of `assemble_tool_calls` does to a slot. -/
def PendingCall.read (slot : PendingCall) (fragment : ToolCallFragment) : PendingCall where
  id := (given fragment.id).getD slot.id
  name := (given fragment.name).getD slot.name
  arguments := slot.arguments ++ (given fragment.arguments).getD ""

/-- `ToolCallRequest`. Nothing looks whether the arguments are an object. -/
structure ToolCallRequest where
  id : String
  name : String
  args : Value

/-- The request that a slot ends as, unless `json.loads` raises. -/
def PendingCall.request (loads : String → Option Value) (slot : PendingCall) :
    Option ToolCallRequest :=
  (loads (if slot.arguments = "" then "\x7b\x7d" else slot.arguments)).map fun args =>
    ⟨slot.id, slot.name, args⟩

/-- `assemble_tool_calls`, unless `json.loads` raises. -/
def assembleToolCalls (loads : String → Option Value) (fragments : List ToolCallFragment) :
    Option (List ToolCallRequest) :=
  (fragments.foldl (Dictionary.collect ToolCallFragment.index PendingCall.read {}) []).mapM
    fun slot => slot.2.request loads

end Source

/-- The fragments of one index spell a call: the last id and the last name that they give are
the call's, and their pieces of arguments are its text. A text of empty arguments may be missing. -/
structure Spells (fragments : List ToolCallFragment) (call : WireCall) : Prop where
  id : (fragments.filterMap fun fragment => given fragment.id).getLast? = call.id
  name : (fragments.filterMap fun fragment => given fragment.name).getLast? = some call.name
  arguments : String.join (fragments.filterMap fun fragment => given fragment.arguments) =
    call.arguments ∨
      fragments.filterMap (fun fragment => given fragment.arguments) = [] ∧
        call.arguments = "\x7b\x7d"

section Slots

variable {fragments : List ToolCallFragment} {call : WireCall}

/-- What a slot holds after its fragments. -/
theorem foldl_read (fragments : List ToolCallFragment) :
    fragments.foldl PendingCall.read {} =
      ⟨((fragments.filterMap fun fragment => given fragment.id).getLast?).getD "",
        ((fragments.filterMap fun fragment => given fragment.name).getLast?).getD "",
        String.join (fragments.filterMap fun fragment => given fragment.arguments)⟩ := by
  induction fragments using List.reverseRecOn with
  | nil => rfl
  | append_singleton fragments fragment ih =>
      rw [List.foldl_append, List.foldl_cons, List.foldl_nil, ih, PendingCall.read]
      simp only [List.filterMap_append, List.filterMap_cons, List.filterMap_nil]
      cases given fragment.id <;> cases given fragment.name <;> cases given fragment.arguments <;>
        simp

/-- A slot whose fragments spell a call ends as a request for it. -/
theorem request_of_spells {reprFloat : String → String} {call : ToolCall}
    (hproper : (Value.obj call.args).Proper reprFloat) (h : Spells fragments (wireCall call)) :
    (fragments.foldl PendingCall.read {}).request (loads reprFloat) =
      some ⟨call.id.getD "", call.name, .obj call.args⟩ := by
  have hread := loads_dumps true hproper
  have hnonempty : dumps ⟨false, true⟩ (.obj call.args) ≠ "" := by
    intro hempty
    have htext := congrArg String.toList hempty
    rw [toList_dumps_obj] at htext
    cases htext
  have hload : loads reprFloat
      (if String.join (fragments.filterMap fun fragment => given fragment.arguments) = "" then
        "\x7b\x7d"
      else String.join (fragments.filterMap fun fragment => given fragment.arguments)) =
        some (.obj call.args) := by
    rcases h.arguments with harguments | ⟨hnone, harguments⟩
    · rw [harguments]
      exact (congrArg (loads reprFloat) (if_neg hnonempty)).trans hread
    · rw [hnone, if_pos String.join_nil, ← harguments]
      exact hread
  rw [foldl_read, h.id, h.name, PendingCall.request, hload]
  rfl

end Slots

section Requests

theorem mapM_of_forall₂ {α β γ : Type*} {f : α → Option γ} {r : β → γ} {items : List α}
    {others : List β} (h : List.Forall₂ (fun item other => f item = some (r other)) items others) :
    items.mapM f = some (others.map r) := by
  induction h with
  | nil => rfl
  | cons hfirst _ ih =>
      rw [List.mapM_cons, hfirst, ih]
      rfl

/-- What is written of the calls of a message is put together again from its fragments: whatever
the pieces of the arguments are and however the fragments of several calls come in between, the
requests are the calls, in the order in which their fragments begin. -/
theorem assemble_wireMessage {reprFloat : String → String} {content : String}
    {calls : List ToolCall} {wires : List WireCall} {fragments : List ToolCallFragment}
    (hproper : ∀ call ∈ calls, (Value.obj call.args).Proper reprFloat)
    (hwires : (wireMessage (.ai content calls)).toolCalls = some wires)
    (hspells : List.Forall₂ (fun index wire =>
        Spells (fragments.filter fun fragment => fragment.index = index) wire)
      (Dictionary.firsts (fragments.map ToolCallFragment.index)) wires) :
    assembleToolCalls (loads reprFloat) fragments =
      some (calls.map fun call => ⟨call.id.getD "", call.name, .obj call.args⟩) := by
  obtain rfl : calls.map wireCall = wires := by
    simp only [wireMessage, Message.ai] at hwires
    split at hwires
    · cases hwires
    · exact Option.some.inj hwires
  clear hwires
  unfold assembleToolCalls
  rw [Dictionary.foldl_collect]
  refine mapM_of_forall₂ (List.forall₂_map_left_iff.2 ?_)
  rw [List.forall₂_map_right_iff] at hspells
  generalize Dictionary.firsts (fragments.map ToolCallFragment.index) = indices at hspells ⊢
  induction hspells with
  | nil => exact .nil
  | cons hfirst _ ih =>
      rw [List.forall_mem_cons] at hproper
      exact .cons (request_of_spells hproper.1 hfirst) (ih hproper.2)

/-- Two calls whose fragments come in between one another. -/
def interleaved : List ToolCallFragment :=
  [{ index := 0, id := some "a", name := some "filesystem" },
    { index := 1, id := some "b", name := some "web_search" },
    { index := 0, arguments := some "\x7b\"path\": " },
    { index := 1, arguments := some "\x7b\"query\": \"x\"\x7d" },
    { index := 0, arguments := some "\".\"\x7d" }]

theorem assemble_wireMessage_interleaved :
    assembleToolCalls (loads id) interleaved =
      some [⟨"a", "filesystem", .obj [("path", .str ".")]⟩,
        ⟨"b", "web_search", .obj [("query", .str "x")]⟩] := by
  refine @assemble_wireMessage id "" [⟨some "a", "filesystem", [("path", .str ".")]⟩,
    ⟨some "b", "web_search", [("query", .str "x")]⟩] _ interleaved ?_ rfl ?_
  · simp [Value.Proper, Value.ProperFields]
  · have hfirsts : Dictionary.firsts (interleaved.map ToolCallFragment.index) = [0, 1] := rfl
    rw [hfirsts]
    exact .cons ⟨rfl, rfl, .inl (by decide +kernel)⟩ (.cons ⟨rfl, rfl, .inl (by decide +kernel)⟩ .nil)

end Requests

end GraphAgent.LlmParsing
