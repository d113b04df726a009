import GraphAgent.Core.Json
import GraphAgent.Library.Transition
import GraphAgent.Transports.AudioSocket
import Mathlib.Data.List.Infix

/-!
# The session of the realtime backend

`_client_to_backend` and `_backend_to_client` as far as they configure the backend's
session. The two write partial updates of it in any order; the bridge completes each
update of the client by itself, without looking at what is configured already.
-/

namespace GraphAgent.Realtime

section Completion

/-- `DELEGATE_TOOL_NAME` -/
def delegateToolName : String := "delegate_to_brain"

/-- `DELEGATE_INSTRUCTION` -/
def delegateInstruction : String :=
  "You are the realtime voice front-end of an autonomous agent called the 'brain'. " ++
    "The brain owns persistent memory, files, tools and multi-step reasoning; you do " ++
    "not. RULE: whenever the user asks about personal facts, previous context, files, " ++
    "the web, or asks you to do, remember, find, send or check anything, you MUST call " ++
    "the `delegate_to_brain` tool with a self-contained prompt instead of answering. " ++
    "The tool output is the brain's reply: relay it to the user in natural speech. " ++
    "NEVER say that you cannot remember, access or do something: delegate instead. " ++
    "Chat directly only for pure small talk that needs neither memory nor tools."

/-- `DELEGATE_TOOL` -/
def delegateTool : Args :=
  [("type", .str "function"), ("name", .str delegateToolName),
    ("description", .str
      ("Delegate a task, question or long-running request to the main agent. " ++
        "Use it whenever the user needs tools, memory, files, or multi-step reasoning. " ++
        "Pass a self-contained prompt with all the context the main agent needs.")),
    ("parameters", .obj
      [("type", .str "object"),
        ("properties", .obj
          [("prompt", .obj
            [("type", .str "string"),
              ("description", .str "Self-contained instruction for the main agent.")])]),
        ("required", .arr [.str "prompt"])])]

/-- `value == text` for a text. -/
def isText (text : String) : Option Value → Bool
  | some (.str s) => s = text
  | _ => false

/-- `_is_delegate_tool`. -/
def isDelegateTool : Value → Bool
  | .obj tool =>
      isText delegateToolName (Args.get? tool "name") ||
        match Args.get? tool "function" with
        | some (.obj nested) => isText delegateToolName (Args.get? nested "name")
        | _ => false
  | _ => false

/-- `_ensure_delegate_tool`: what is no list stays. -/
def ensureDelegateTool (session : Args) : Args :=
  match Args.get? session "tools" with
  | none => session.set "tools" (.arr [.obj delegateTool])
  | some (.arr tools) =>
      if tools.any isDelegateTool then session
      else session.set "tools" (.arr (tools ++ [.obj delegateTool]))
  | some _ => session

/-- The instructions that an update gives: a text that is not empty. -/
def givenInstructions (session : Args) : Option String :=
  match Args.get? session "instructions" with
  | some (.str existing) => if existing = "" then none else some existing
  | _ => none

/-- `DELEGATE_INSTRUCTION in text` -/
abbrev Mentions (text : String) : Prop := delegateInstruction.toList <:+: text.toList

/-- `_ensure_delegate_instructions`. -/
def ensureDelegateInstructions (session : Args) : Args :=
  match givenInstructions session with
  | none => session.set "instructions" (.str delegateInstruction)
  | some existing =>
      if Mentions existing then session
      else session.set "instructions" (.str (existing ++ "\n\n" ++ delegateInstruction))

/-- `text or None` for an optional text. -/
def textOrNone (text : Option String) : Option String := text.filter fun s => s ≠ ""

/-- `_ensure_voice`. -/
def ensureVoice (session : Args) (voice : Option String) : Args :=
  match textOrNone voice with
  | none => session
  | some voice => session.set "voice" (.str voice)

/-- Semantic VAD of one container becomes server VAD. -/
def normalizeDetection (container : Args) : Args :=
  match Args.get? container "turn_detection" with
  | some (.obj detection) =>
      if isText "semantic_vad" (Args.get? detection "type") then
        container.set "turn_detection" (.obj (Args.set detection "type" (.str "server_vad")))
      else container
  | _ => container

/-- `_normalize_turn_detection`: the session, and the input of its audio. -/
def normalizeTurnDetection (session : Args) (supportsSemanticVad : Bool) : Args :=
  if supportsSemanticVad then session
  else
    let session := normalizeDetection session
    match Args.get? session "audio" with
    | some (.obj audio) =>
        match Args.get? audio "input" with
        | some (.obj input) =>
            session.set "audio" (.obj (Args.set audio "input" (.obj (normalizeDetection input))))
        | _ => session
    | _ => session

end Completion

section Bridge

/-- What the bridge reads of its channel's configuration, of the service and of the
backend's capabilities. -/
structure Bridge where
  instructions : Option String
  voice : Option String
  baseSystemPrompt : Option String
  supportsSemanticVad : Bool

namespace Bridge

variable (bridge : Bridge)

/-- `_session_instructions`. -/
def sessionInstructions : String :=
  match (textOrNone bridge.instructions).or (textOrNone bridge.baseSystemPrompt) with
  | some base => base ++ "\n\n" ++ delegateInstruction
  | none => delegateInstruction

/-- `_delegate_session_update`. -/
def delegateSessionUpdate (instructions : String) (voice : Option String) : Args :=
  [("type", .str "session.update"),
    ("session", .obj (ensureVoice
      [("tools", .arr [.obj delegateTool]), ("instructions", .str instructions)] voice))]

/-- `DelegationSupervisor.session_update`. -/
def sessionUpdate : Args :=
  delegateSessionUpdate
    ((textOrNone (some bridge.sessionInstructions)).getD delegateInstruction) bridge.voice

/-- What becomes of the session of a client's update. -/
def complete (session : Args) : Args :=
  normalizeTurnDetection
    (ensureVoice (ensureDelegateInstructions (ensureDelegateTool session)) bridge.voice)
    bridge.supportsSemanticVad

/-- The session that an event updates. -/
def updateOf (event : Args) : Option Args :=
  if isText "session.update" (Args.get? event "type") then
    match Args.get? event "session" with
    | some (.obj session) => some session
    | _ => none
  else none

/-- What `_client_to_backend` sends of an event. -/
def forward (event : Args) : Args :=
  match updateOf event with
  | some session => event.set "session" (.obj (bridge.complete session))
  | none => event

end Bridge

end Bridge

section Session

/-- The fields of the backend's session. -/
abbrev Fields := String → Option Value

/-- An event that the backend gets: the fields that an update gives overwrite, and absent
ones stay. -/
def Fields.receive (fields : Fields) (event : Args) : Fields :=
  match Bridge.updateOf event with
  | some session => fun key => (Args.get? session key).or (fields key)
  | none => fields

/-- The connection: the backend's session, whether `session.created` has been handled, and
whether the client has given instructions since. -/
structure Connection where
  fields : Fields
  created : Bool
  clientInstructions : Bool

/-- An event of one of the two sides. -/
inductive SessionEvent where
  | client (event : Args)
  | backend (event : Args)

/-- An update of a client that gives instructions. -/
def givesInstructions (event : Args) : Bool :=
  (Bridge.updateOf event).any fun session => (givenInstructions session).isSome

namespace Bridge

variable (bridge : Bridge)

/-- One event is handled. -/
def step (c : Connection) : SessionEvent → Connection
  | .client event =>
      { c with
        fields := c.fields.receive (bridge.forward event)
        clientInstructions := c.clientInstructions || givesInstructions event }
  | .backend event =>
      if isText "session.created" (Args.get? event "type") then
        { fields := c.fields.receive bridge.sessionUpdate
          created := true
          clientInstructions := false }
      else c

/-- The events are handled one after the other. -/
def run (c : Connection) (events : List SessionEvent) : Connection := events.foldl bridge.step c

/-- Connections, whatever the backend's session is at first. -/
def system : Transition.System Connection SessionEvent where
  init c := c.created = false ∧ c.clientInstructions = false
  step c event := some (bridge.step c event)

/-- The first state of a connection. -/
def start (fields : Fields) : Connection := ⟨fields, false, false⟩

/-- The delegate tool can be called, the rule to call it is in force, and so are the
configured instructions as long as the client gives none. -/
structure Configured (c : Connection) : Prop where
  tools : ∃ tools, c.fields "tools" = some (.arr tools) ∧ ∃ tool ∈ tools, isDelegateTool tool = true
  instructions : ∃ text, c.fields "instructions" = some (.str text) ∧ Mentions text
  kept : c.clientInstructions = false →
    c.fields "instructions" = some (.str bridge.sessionInstructions)

/-- A client's update has no tools or a list of tools. -/
def ToolsGiven (session : Args) : Prop :=
  ∀ value, Args.get? session "tools" = some value → ∃ tools, value = .arr tools

/-- After `session.created`, an update gives a list of tools or none; and it gives
instructions, unless there is no configured text that could be lost. -/
def Harmless (c : Connection) : SessionEvent → Prop
  | .client event =>
      c.created = true → ∀ session, updateOf event = some session →
        ToolsGiven session ∧
          (givesInstructions event = true ∨ c.clientInstructions = true ∨
            bridge.sessionInstructions = delegateInstruction)
  | .backend _ => True

end Bridge

end Session

section Fields

variable {session : Args} {key : String}

theorem get?_ensureDelegateTool (h : key ≠ "tools") :
    Args.get? (ensureDelegateTool session) key = Args.get? session key := by
  unfold ensureDelegateTool
  split
  · rw [Args.get?_set, if_neg h]
  · split_ifs
    · rfl
    · rw [Args.get?_set, if_neg h]
  · rfl

theorem get?_ensureDelegateInstructions (h : key ≠ "instructions") :
    Args.get? (ensureDelegateInstructions session) key = Args.get? session key := by
  unfold ensureDelegateInstructions
  split
  · rw [Args.get?_set, if_neg h]
  · split_ifs
    · rfl
    · rw [Args.get?_set, if_neg h]

theorem get?_ensureVoice {voice : Option String} (h : key ≠ "voice") :
    Args.get? (ensureVoice session voice) key = Args.get? session key := by
  unfold ensureVoice
  split
  · rfl
  · rw [Args.get?_set, if_neg h]

theorem get?_normalizeDetection (h : key ≠ "turn_detection") :
    Args.get? (normalizeDetection session) key = Args.get? session key := by
  unfold normalizeDetection
  split
  · split_ifs
    · rw [Args.get?_set, if_neg h]
    · rfl
  · rfl

theorem get?_normalizeTurnDetection {supports : Bool} (hturn : key ≠ "turn_detection")
    (haudio : key ≠ "audio") :
    Args.get? (normalizeTurnDetection session supports) key = Args.get? session key := by
  unfold normalizeTurnDetection
  split_ifs
  · rfl
  · dsimp only
    split
    · split
      · rw [Args.get?_set, if_neg haudio, get?_normalizeDetection hturn]
      · exact get?_normalizeDetection hturn
    · exact get?_normalizeDetection hturn

/-- What has been made of the tools. -/
theorem tools_complete (bridge : Bridge) :
    Args.get? (bridge.complete session) "tools" =
      Args.get? (ensureDelegateTool session) "tools" := by
  unfold Bridge.complete
  rw [get?_normalizeTurnDetection (by decide) (by decide), get?_ensureVoice (by decide),
    get?_ensureDelegateInstructions (by decide)]

theorem isDelegateTool_delegateTool : isDelegateTool (.obj delegateTool) = true := rfl

/-- Tools that are absent or a list come to contain the delegate tool. -/
theorem tools_complete_of_given (bridge : Bridge) (h : Bridge.ToolsGiven session) :
    ∃ tools, Args.get? (bridge.complete session) "tools" = some (.arr tools) ∧
      ∃ tool ∈ tools, isDelegateTool tool = true := by
  rw [tools_complete]
  unfold ensureDelegateTool
  cases htools : Args.get? session "tools" with
  | none =>
      exact ⟨_, by rw [Args.get?_set, if_pos rfl], _, List.mem_singleton_self _,
        isDelegateTool_delegateTool⟩
  | some value =>
      obtain ⟨tools, rfl⟩ := h value htools
      dsimp only
      split_ifs with hany
      · exact ⟨tools, htools, List.any_eq_true.1 hany⟩
      · exact ⟨_, by rw [Args.get?_set, if_pos rfl], _, List.mem_append_right _
          (List.mem_singleton_self _), isDelegateTool_delegateTool⟩

/-- Any other value of the tools is sent as it is. -/
theorem tools_complete_of_other (bridge : Bridge) {value : Value}
    (htools : Args.get? session "tools" = some value) (h : ∀ tools, value ≠ .arr tools) :
    Args.get? (bridge.complete session) "tools" = some value := by
  rw [tools_complete]
  unfold ensureDelegateTool
  rw [htools]
  cases value with
  | arr tools => exact absurd rfl (h tools)
  | _ => exact htools

theorem givenInstructions_ensureDelegateTool :
    givenInstructions (ensureDelegateTool session) = givenInstructions session := by
  unfold givenInstructions
  rw [get?_ensureDelegateTool (by decide)]

theorem instructions_complete (bridge : Bridge) :
    Args.get? (bridge.complete session) "instructions" =
      Args.get? (ensureDelegateInstructions (ensureDelegateTool session)) "instructions" := by
  unfold Bridge.complete
  rw [get?_normalizeTurnDetection (by decide) (by decide), get?_ensureVoice (by decide)]

/-- An update that gives no instructions is sent with the bare rule. -/
theorem instructions_complete_of_none (bridge : Bridge) (h : givenInstructions session = none) :
    Args.get? (bridge.complete session) "instructions" = some (.str delegateInstruction) := by
  rw [instructions_complete]
  unfold ensureDelegateInstructions
  rw [givenInstructions_ensureDelegateTool, h]
  dsimp only
  rw [Args.get?_set, if_pos rfl]

theorem mentions_append (text : String) : Mentions (text ++ delegateInstruction) := by
  unfold Mentions
  rw [String.toList_append]
  exact (List.suffix_append _ _).isInfix

theorem get?_of_givenInstructions {text : String} (h : givenInstructions session = some text) :
    Args.get? session "instructions" = some (.str text) := by
  unfold givenInstructions at h
  split at h
  · next existing hexisting =>
      split_ifs at h
      rw [hexisting, Option.some.inj h]
  · cases h

/-- Whatever an update gives, the instructions that are sent contain the rule. -/
theorem instructions_complete_mentions (bridge : Bridge) (session : Args) :
    ∃ text, Args.get? (bridge.complete session) "instructions" = some (.str text) ∧
      Mentions text := by
  cases hgiven : givenInstructions session with
  | none => exact ⟨_, instructions_complete_of_none bridge hgiven, List.infix_rfl⟩
  | some existing =>
      rw [instructions_complete]
      unfold ensureDelegateInstructions
      rw [givenInstructions_ensureDelegateTool, hgiven]
      dsimp only
      split_ifs with hmentions
      · rw [get?_ensureDelegateTool (by decide)]
        exact ⟨existing, get?_of_givenInstructions hgiven, hmentions⟩
      · exact ⟨_, by rw [Args.get?_set, if_pos rfl], mentions_append _⟩

end Fields

section Receive

variable (bridge : Bridge) {fields : Fields} {event session : Args}

/-- A completed event updates the completed session. -/
theorem updateOf_forward :
    Bridge.updateOf (bridge.forward event) = (Bridge.updateOf event).map bridge.complete := by
  cases hupdate : Bridge.updateOf event with
  | none =>
      unfold Bridge.forward
      rw [hupdate]
      exact hupdate
  | some session =>
      unfold Bridge.forward
      rw [hupdate]
      unfold Bridge.updateOf at hupdate ⊢
      dsimp only
      have htype : ("type" : String) ≠ "session" := by decide
      rw [Args.get?_set, if_neg htype, Args.get?_set, if_pos rfl]
      split_ifs at hupdate ⊢
      · rfl

/-- What the backend gets of a client's event. -/
theorem receive_forward (key : String) :
    fields.receive (bridge.forward event) key =
      match Bridge.updateOf event with
      | some session => (Args.get? (bridge.complete session) key).or (fields key)
      | none => fields key := by
  unfold Fields.receive
  rw [updateOf_forward]
  cases Bridge.updateOf event <;> rfl

theorem delegateInstruction_ne_empty : delegateInstruction ≠ "" := by decide +kernel

theorem mentions_sessionInstructions : Mentions bridge.sessionInstructions := by
  unfold Bridge.sessionInstructions
  split
  · exact mentions_append _
  · exact List.infix_rfl

theorem textOrNone_sessionInstructions :
    textOrNone (some bridge.sessionInstructions) = some bridge.sessionInstructions := by
  have hne : bridge.sessionInstructions ≠ "" := by
    intro hempty
    have hmentions := mentions_sessionInstructions bridge
    rw [hempty, Mentions, String.toList_empty, List.infix_nil] at hmentions
    exact delegateInstruction_ne_empty (String.toList_inj.1 hmentions)
  simp [textOrNone, hne]

/-- A configured text stands before the rule. -/
theorem sessionInstructions_ne_of_instructions {base : String}
    (h : textOrNone bridge.instructions = some base) :
    bridge.sessionInstructions ≠ delegateInstruction := by
  intro hrule
  unfold Bridge.sessionInstructions at hrule
  rw [h] at hrule
  have hlength := congrArg String.length hrule
  rw [Option.some_or, String.length_append, String.length_append] at hlength
  have hbreak : String.length "\n\n" = 2 := rfl
  omega

/-- The bridge's own update sets the delegate tool and the configured instructions. -/
theorem receive_sessionUpdate (fields : Fields) :
    fields.receive bridge.sessionUpdate "tools" = some (.arr [.obj delegateTool]) ∧
      fields.receive bridge.sessionUpdate "instructions" =
        some (.str bridge.sessionInstructions) := by
  unfold Bridge.sessionUpdate
  rw [textOrNone_sessionInstructions, Option.getD_some]
  have hupdate : Bridge.updateOf
      (Bridge.delegateSessionUpdate bridge.sessionInstructions bridge.voice) =
        some (ensureVoice [("tools", .arr [.obj delegateTool]),
          ("instructions", .str bridge.sessionInstructions)] bridge.voice) := rfl
  unfold Fields.receive
  rw [hupdate]
  dsimp only
  rw [get?_ensureVoice (by decide), get?_ensureVoice (by decide)]
  exact ⟨rfl, rfl⟩

end Receive

section Runs

variable {bridge : Bridge} {c : Connection}

/-- The bridge's update configures the session. -/
theorem configured_step_backend {event : Args} (h : c.created = true → bridge.Configured c)
    (hcreated : (bridge.step c (.backend event)).created = true) :
    bridge.Configured (bridge.step c (.backend event)) := by
  unfold Bridge.step at hcreated ⊢
  dsimp only at hcreated ⊢
  split_ifs at hcreated ⊢ with htype
  · obtain ⟨htools, hinstructions⟩ := receive_sessionUpdate bridge c.fields
    exact ⟨⟨_, htools, _, List.mem_singleton_self _, isDelegateTool_delegateTool⟩,
      ⟨_, hinstructions, mentions_sessionInstructions bridge⟩, fun _ => hinstructions⟩
  · exact h hcreated

/-- A harmless update of the client keeps the session configured. -/
theorem configured_step_client {event session : Args}
    (hupdate : Bridge.updateOf event = some session) (htools : Bridge.ToolsGiven session)
    (hinstructions : givesInstructions event = true ∨ c.clientInstructions = true ∨
      bridge.sessionInstructions = delegateInstruction) :
    bridge.Configured (bridge.step c (.client event)) := by
  obtain ⟨tools, htools, hdelegate⟩ := tools_complete_of_given bridge htools
  obtain ⟨text, htext, hmentions⟩ := instructions_complete_mentions bridge session
  refine ⟨⟨tools, ?_, hdelegate⟩, ⟨text, ?_, hmentions⟩, ?_⟩
  · simp only [Bridge.step, receive_forward, hupdate, htools, Option.some_or]
  · simp only [Bridge.step, receive_forward, hupdate, htext, Option.some_or]
  · intro hnone
    obtain ⟨hclient, hgives⟩ : c.clientInstructions = false ∧ givesInstructions event = false := by
      simpa [Bridge.step] using hnone
    have hrule : bridge.sessionInstructions = delegateInstruction := by
      simpa [hclient, hgives] using hinstructions
    have hgiven : givenInstructions session = none := by
      simpa [givesInstructions, hupdate] using hgives
    simp only [Bridge.step, receive_forward, hupdate, Option.some_or,
      instructions_complete_of_none bridge hgiven, hrule]

/-- An update of the client that keeps the session configured is harmless. -/
theorem harmless_of_configured_step {event session : Args}
    (h : bridge.Configured (bridge.step c (.client event)))
    (hupdate : Bridge.updateOf event = some session) :
    Bridge.ToolsGiven session ∧
      (givesInstructions event = true ∨ c.clientInstructions = true ∨
        bridge.sessionInstructions = delegateInstruction) := by
  constructor
  · intro value hvalue
    by_contra hother
    obtain ⟨tools, htools, -⟩ := h.tools
    have hsent := tools_complete_of_other bridge hvalue fun tools heq => hother ⟨tools, heq⟩
    simp only [Bridge.step, receive_forward, hupdate, hsent, Option.some_or,
      Option.some.injEq] at htools
    exact hother ⟨tools, htools⟩
  · cases hgives : givesInstructions event with
    | true => exact .inl rfl
    | false =>
        cases hclient : c.clientInstructions with
        | true => exact .inr (.inl rfl)
        | false =>
            have hgiven : givenInstructions session = none := by
              simpa [givesInstructions, hupdate] using hgives
            have hkept := h.kept (by simp [Bridge.step, hclient, hgives])
            simp only [Bridge.step, receive_forward, hupdate,
              instructions_complete_of_none bridge hgiven, Option.some_or, Option.some.injEq,
              Value.str.injEq] at hkept
            exact .inr (.inr hkept.symm)

/-- One event keeps the session configured exactly if it is harmless. -/
theorem configured_step_iff {event : SessionEvent} (h : c.created = true → bridge.Configured c) :
    ((bridge.step c event).created = true → bridge.Configured (bridge.step c event)) ↔
      bridge.Harmless c event := by
  cases event with
  | backend event => exact ⟨fun _ => trivial, fun _ => configured_step_backend h⟩
  | client event =>
      constructor
      · intro hstep hcreated session hupdate
        exact harmless_of_configured_step (hstep hcreated) hupdate
      · intro hharmless hcreated
        cases hupdate : Bridge.updateOf event with
        | none =>
            have hsame : bridge.step c (.client event) = c := by
              simp [Bridge.step, Fields.receive, updateOf_forward, hupdate, givesInstructions]
            rw [hsame]
            exact h hcreated
        | some session =>
            obtain ⟨htools, hinstructions⟩ := hharmless hcreated session hupdate
            exact configured_step_client hupdate htools hinstructions

theorem exec_eq_run (bridge : Bridge) (c : Connection) (events : List SessionEvent) :
    bridge.system.exec c events = some (bridge.run c events) := by
  induction events generalizing c with
  | nil => rfl
  | cons event events ih => exact ih (bridge.step c event)

/-- Whatever the backend's session is at first: the session is configured at every point
after `session.created` exactly if every event is harmless where it comes. -/
theorem configured_iff_harmless (bridge : Bridge) (fields : Fields) (events : List SessionEvent) :
    (∀ before, before <+: events →
      (bridge.run (Bridge.start fields) before).created = true →
        bridge.Configured (bridge.run (Bridge.start fields) before)) ↔
      bridge.system.Meets bridge.Harmless (Bridge.start fields) events := by
  have hstep : ∀ c event d, bridge.system.step c event = some d →
      (c.created = true → bridge.Configured c) →
        ((d.created = true → bridge.Configured d) ↔ bridge.Harmless c event) := by
    intro c event d hstep h
    obtain rfl : bridge.step c event = d := Option.some.inj hstep
    exact configured_step_iff h
  have hmeets := Transition.System.meets_iff_of_step hstep (s := Bridge.start fields)
    (by simp [Bridge.start]) (exec_eq_run bridge _ events)
  rw [hmeets]
  simp only [exec_eq_run, Option.some.injEq, forall_eq']

/-- After `session.created`, the update that the phone leg sends leaves the bare rule in
force, and an update whose tools are null leaves no tools. -/
theorem configured_is_lost :
    let bridge : Bridge := ⟨some "You are Ada.", none, none, true⟩
    let created : SessionEvent := .backend [("type", .str "session.created")]
    let nullTools : Args := [("type", .str "session.update"), ("session", .obj [("tools", .null)])]
    let phone := bridge.run (Bridge.start fun _ => none) [created, .client Voice.buildSessionUpdate]
    let other := bridge.run (Bridge.start fun _ => none) [created, .client nullTools]
    (phone.created = true ∧ phone.clientInstructions = false ∧
      phone.fields "instructions" = some (.str delegateInstruction) ∧
      ¬ bridge.Configured phone) ∧
    other.created = true ∧ other.fields "tools" = some .null ∧ ¬ bridge.Configured other := by
  intro bridge created nullTools phone other
  have hphone : phone.fields "instructions" = some (.str delegateInstruction) := rfl
  have hother : other.fields "tools" = some .null := rfl
  refine ⟨⟨rfl, rfl, hphone, fun h => ?_⟩, rfl, hother, fun h => ?_⟩
  · have hinstructions := hphone.symm.trans (h.kept rfl)
    have hlost : delegateInstruction = bridge.sessionInstructions :=
      Value.str.inj (Option.some.inj hinstructions)
    exact sessionInstructions_ne_of_instructions bridge rfl hlost.symm
  · obtain ⟨tools, htools, -⟩ := h.tools
    cases hother.symm.trans htools

end Runs

end GraphAgent.Realtime
