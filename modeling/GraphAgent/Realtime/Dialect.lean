import GraphAgent.Realtime.SessionUpdate

/-!
# Two dialects of the realtime backend

`QwenRealtimeBackend` translates what it sends. Whatever a client and a backend send, the
session that Qwen comes to have is at every time the translation of the session that a backend
of the other dialect would have: the same tools with the same meaning, the same instructions,
and no semantic turn detection.
-/

namespace GraphAgent.Realtime

section Source

/-- `_to_qwen_tool`. -/
def toQwenTool (tool : Args) : Args :=
  match Args.get? tool "function" with
  | some (.obj _) => tool
  | _ =>
      [("type", .str "function"),
        ("function", .obj
          [("name", (Args.get? tool "name").getD .null),
            ("description", (Args.get? tool "description").getD (.str "")),
            ("parameters", (Args.get? tool "parameters").getD (.obj []))])]

/-- The dictionaries among some values. -/
def objects (values : List Value) : List Args :=
  values.filterMap fun
    | .obj fields => some fields
    | _ => none

/-- One of the audio formats becomes PCM, where it is given. -/
def withPcm (session : Args) (key : String) : Args :=
  if (Args.get? session key).isSome then session.set key (.str "pcm") else session

/-- `_to_qwen_session`. -/
def toQwenSession (session : Args) : Args :=
  let out := withPcm (withPcm session "input_audio_format") "output_audio_format"
  match Args.get? out "tools" with
  | some (.arr tools) =>
      let tools := (objects tools).map toQwenTool
      let out := out.set "tools" (.arr (tools.map .obj))
      if tools.isEmpty then out else out.set "enable_search" (.bool false)
  | _ => out

/-- `to_qwen`. -/
def toQwen (event : Args) : Args :=
  if isText "session.update" (Args.get? event "type") then
    let session :=
      match Args.get? event "session" with
      | some (.obj session) => session
      | _ => []
    [("type", .str "session.update"), ("session", .obj (toQwenSession session))]
  else event

/-- `build_realtime_backend`: the backends that can be configured. -/
inductive Backend where
  | openai
  | qwen
  deriving DecidableEq

/-- `capabilities.supports_semantic_vad` -/
def Backend.supportsSemanticVad : Backend → Bool
  | .openai => true
  | .qwen => false

/-- What `send` of the backend sends of an event. -/
def Backend.wire : Backend → Args → Args
  | .openai, event => event
  | .qwen, event => toQwen event

/-- The bridge as the backend's capabilities have it. -/
def Backend.bridge (backend : Backend) (bridge : Bridge) : Bridge :=
  { bridge with supportsSemanticVad := backend.supportsSemanticVad }

/-- What the backend is sent on an event of one of the two sides. -/
def Backend.receive (backend : Backend) (bridge : Bridge) (fields : Fields) :
    SessionEvent → Fields
  | .client event => fields.receive (backend.wire ((backend.bridge bridge).forward event))
  | .backend event =>
      if isText "session.created" (Args.get? event "type") then
        fields.receive (backend.wire (backend.bridge bridge).sessionUpdate)
      else fields

/-- The session of the backend after some events. -/
def Backend.session (backend : Backend) (bridge : Bridge) (fields : Fields)
    (events : List SessionEvent) : Fields :=
  events.foldl (backend.receive bridge) fields

end Source

section Meaning

/-- What a tool definition of either shape says: its name, its description and its
parameters. -/
def readTool (tool : Args) : Value × Value × Value :=
  let source :=
    match Args.get? tool "function" with
    | some (.obj nested) => nested
    | _ => tool
  ((Args.get? source "name").getD .null, (Args.get? source "description").getD (.str ""),
    (Args.get? source "parameters").getD (.obj []))

/-- The shape that Qwen reads. -/
def IsNested (tool : Args) : Prop := ∃ nested, Args.get? tool "function" = some (.obj nested)

/-- The turns of a container are not detected by their meaning. -/
def NoSemanticVad (container : Option Value) : Prop :=
  ∀ fields, container = some (.obj fields) →
    isText "semantic_vad" (Args.get? fields "type") = false

/-- A turn detection without semantic VAD. -/
def serverVad : Value → Value
  | .obj detection =>
      if isText "semantic_vad" (Args.get? detection "type") then
        .obj (Args.set detection "type" (.str "server_vad"))
      else .obj detection
  | value => value

/-- The audio settings without semantic VAD of the input. -/
def serverAudio : Value → Value
  | .obj audio =>
      match Args.get? audio "input" with
      | some (.obj input) => .obj (Args.set audio "input" (.obj (normalizeDetection input)))
      | _ => .obj audio
  | value => value

/-- The tools in the shape that Qwen reads. -/
def nestTools : Value → Value
  | .arr tools => .arr (((objects tools).map toQwenTool).map .obj)
  | value => value

/-- The value of a field of the session in the other dialect. -/
def translate (key : String) (value : Value) : Value :=
  if key = "tools" then nestTools value
  else if key = "input_audio_format" ∨ key = "output_audio_format" then .str "pcm"
  else if key = "turn_detection" then serverVad value
  else if key = "audio" then serverAudio value
  else value

/-- One session is the translation of another. -/
def Translates (fields translated : Fields) : Prop :=
  ∀ key, key ≠ "enable_search" → translated key = (fields key).map (translate key)

end Meaning

section Tools

variable {tool : Args}

theorem isNested_toQwenTool (tool : Args) : IsNested (toQwenTool tool) := by
  unfold toQwenTool
  split
  case h_1 nested hnested => exact ⟨nested, hnested⟩
  case h_2 => exact ⟨_, rfl⟩

/-- A tool keeps its meaning. -/
theorem readTool_toQwenTool (tool : Args) : readTool (toQwenTool tool) = readTool tool := by
  cases hfunction : Args.get? tool "function" with
  | none =>
      unfold toQwenTool readTool
      rw [hfunction]
      rfl
  | some value =>
      unfold toQwenTool readTool
      rw [hfunction]
      cases value with
      | obj nested =>
          dsimp only
          rw [hfunction]
      | _ => rfl

/-- The delegate tool stays the delegate tool, and nothing else becomes it. -/
theorem isDelegateTool_toQwenTool (tool : Args) :
    isDelegateTool (.obj (toQwenTool tool)) = isDelegateTool (.obj tool) := by
  have hflat : isDelegateTool (.obj [("type", .str "function"), ("function", .obj
      [("name", (Args.get? tool "name").getD .null),
        ("description", (Args.get? tool "description").getD (.str "")),
        ("parameters", (Args.get? tool "parameters").getD (.obj []))])]) =
      isText delegateToolName (Args.get? tool "name") := by
    have hname : isText delegateToolName (some ((Args.get? tool "name").getD .null)) =
        isText delegateToolName (Args.get? tool "name") := by
      cases Args.get? tool "name" <;> rfl
    exact hname
  cases hfunction : Args.get? tool "function" with
  | none =>
      unfold toQwenTool
      rw [hfunction]
      dsimp only
      rw [hflat, isDelegateTool, hfunction]
      exact (Bool.or_false _).symm
  | some value =>
      unfold toQwenTool
      rw [hfunction]
      cases value with
      | obj nested => rfl
      | _ =>
          dsimp only
          rw [hflat, isDelegateTool, hfunction]
          exact (Bool.or_false _).symm

end Tools

section Updates

variable {session : Args} {key : String}

theorem get?_withPcm (session : Args) (key other : String) :
    Args.get? (withPcm session key) other =
      if other = key then (Args.get? session key).map fun _ => .str "pcm"
      else Args.get? session other := by
  unfold withPcm
  by_cases hother : other = key
  · subst hother
    rw [if_pos rfl]
    cases hgiven : Args.get? session other with
    | none => simp [hgiven]
    | some value => simp [Args.get?_set]
  · rw [if_neg hother]
    split_ifs
    · rw [Args.get?_set, if_neg hother]
    · rfl

/-- The audio formats as Qwen is sent them. -/
theorem get?_withPcm_withPcm (session : Args) (key : String) :
    Args.get? (withPcm (withPcm session "input_audio_format") "output_audio_format") key =
      (Args.get? session key).map fun value =>
        if key = "input_audio_format" ∨ key = "output_audio_format" then .str "pcm"
        else value := by
  have hne : ("output_audio_format" : String) ≠ "input_audio_format" := by decide
  rw [get?_withPcm, get?_withPcm, get?_withPcm, if_neg hne]
  by_cases hout : key = "output_audio_format"
  · simp [hout]
  · by_cases hin : key = "input_audio_format"
    · simp [hin]
    · simp [hout, hin]

/-- The fields that Qwen is sent of a session. -/
theorem get?_toQwenSession (hkey : key ≠ "enable_search") :
    Args.get? (toQwenSession session) key =
      (Args.get? session key).map fun value =>
        if key = "tools" then nestTools value
        else if key = "input_audio_format" ∨ key = "output_audio_format" then .str "pcm"
        else value := by
  have hformats := get?_withPcm_withPcm session
  unfold toQwenSession
  generalize withPcm (withPcm session "input_audio_format") "output_audio_format" = out
    at hformats ⊢
  have hother : ¬ (("tools" : String) = "input_audio_format" ∨ "tools" = "output_audio_format") := by
    decide
  have htools : Args.get? out "tools" = Args.get? session "tools" := by
    rw [hformats]
    simp only [if_neg hother]
    exact Option.map_id'
  dsimp only
  rw [htools]
  by_cases hname : key = "tools"
  · subst hname
    simp only [if_pos]
    cases hgiven : Args.get? session "tools" with
    | none => rw [htools, hgiven]; rfl
    | some value =>
        cases value with
        | arr tools =>
            dsimp only
            split_ifs <;> simp [Args.get?_set, nestTools]
        | _ => rw [htools, hgiven]; rfl
  · simp only [if_neg hname]
    rw [← hformats key]
    cases Args.get? session "tools" with
    | none => rfl
    | some value =>
        cases value with
        | arr tools =>
            dsimp only
            split_ifs <;> simp [Args.get?_set, hname, hkey]
        | _ => rfl

/-- Where Qwen is sent a tool, it is told not to search by itself. -/
theorem search_toQwenSession {tools : List Value} {tool : Args}
    (h : Args.get? session "tools" = some (.arr tools)) (hmem : .obj tool ∈ tools) :
    Args.get? (toQwenSession session) "enable_search" = some (.bool false) := by
  have htools := get?_withPcm_withPcm session "tools"
  rw [h, Option.map_some, if_neg (by decide)] at htools
  have hsome : (objects tools).map toQwenTool ≠ [] := by
    rw [ne_eq, List.map_eq_nil_iff]
    apply List.ne_nil_of_mem (a := tool)
    exact List.mem_filterMap.2 ⟨_, hmem, rfl⟩
  unfold toQwenSession
  dsimp only
  rw [htools]
  dsimp only
  rw [if_neg (by simpa using hsome), Args.get?_set, if_pos rfl]

theorem get?_normalizeDetection_self :
    Args.get? (normalizeDetection session) "turn_detection" =
      (Args.get? session "turn_detection").map serverVad := by
  unfold normalizeDetection
  cases hgiven : Args.get? session "turn_detection" with
  | none => exact hgiven
  | some value =>
      cases value with
      | obj detection =>
          dsimp only [Option.map_some, serverVad]
          split_ifs
          · rw [Args.get?_set, if_pos rfl]
          · exact hgiven
      | _ => exact hgiven

/-- The fields of a session without semantic VAD. -/
theorem get?_normalizeTurnDetection_false :
    Args.get? (normalizeTurnDetection session false) key =
      (Args.get? session key).map fun value =>
        if key = "turn_detection" then serverVad value
        else if key = "audio" then serverAudio value
        else value := by
  have hdetected : ∀ other, Args.get? (normalizeDetection session) other =
      (Args.get? session other).map fun value =>
        if other = "turn_detection" then serverVad value else value := by
    intro other
    by_cases hturn : other = "turn_detection"
    · subst hturn
      simp only [if_pos]
      exact get?_normalizeDetection_self
    · simp only [if_neg hturn]
      rw [get?_normalizeDetection hturn]
      exact Option.map_id'.symm
  have haudio : Args.get? (normalizeDetection session) "audio" = Args.get? session "audio" :=
    get?_normalizeDetection (by decide)
  unfold normalizeTurnDetection
  rw [if_neg (by decide)]
  dsimp only
  rw [haudio]
  by_cases hname : key = "audio"
  · subst hname
    have hne : ("audio" : String) ≠ "turn_detection" := by decide
    simp only [if_neg hne, if_pos]
    cases hgiven : Args.get? session "audio" with
    | none => rw [haudio, hgiven]; rfl
    | some value =>
        cases value with
        | obj audio =>
            dsimp only [Option.map_some, serverAudio]
            cases Args.get? audio "input" with
            | none => rw [haudio, hgiven]
            | some value =>
                cases value with
                | obj input => rw [Args.get?_set, if_pos rfl]
                | _ => rw [haudio, hgiven]
        | _ => rw [haudio, hgiven]; rfl
  · simp only [if_neg hname]
    rw [← hdetected key]
    cases Args.get? session "audio" with
    | none => rfl
    | some value =>
        cases value with
        | obj audio =>
            dsimp only
            split
            · rw [Args.get?_set, if_neg hname]
            · rfl
        | _ => rfl

/-- What Qwen gets of an event. -/
theorem receive_toQwen (fields : Fields) (event : Args) (key : String) :
    fields.receive (toQwen event) key =
      match Bridge.updateOf event with
      | some session => (Args.get? (toQwenSession session) key).or (fields key)
      | none => fields key := by
  cases htype : isText "session.update" (Args.get? event "type") with
  | false =>
      have hupdate : Bridge.updateOf event = none := by
        rw [Bridge.updateOf, htype]
        rfl
      have hsame : toQwen event = event := by
        rw [toQwen, htype]
        rfl
      rw [hsame, Fields.receive, hupdate]
  | true =>
      have hwire : ∀ session, (∀ given, Args.get? event "session" = some (.obj given) →
          session = given) → (Bridge.updateOf event = none → session = []) →
          Bridge.updateOf (toQwen event) = some (toQwenSession session) := by
        intro session hgiven hnone
        rw [toQwen, htype]
        rw [Bridge.updateOf, htype] at hnone
        cases hsession : Args.get? event "session" with
        | none =>
            rw [hsession] at hnone
            rw [hnone rfl]
            rfl
        | some value =>
            cases value with
            | obj given =>
                rw [hgiven given hsession]
                rfl
            | _ =>
                rw [hsession] at hnone
                rw [hnone rfl]
                rfl
      cases hupdate : Bridge.updateOf event with
      | none =>
          have hnothing := hwire [] (fun given hsession => by
            rw [Bridge.updateOf, htype, hsession] at hupdate
            cases hupdate) fun _ => rfl
          rw [Fields.receive, hnothing]
          rfl
      | some session =>
          have hsession := hwire session (fun given hgiven => by
            rw [Bridge.updateOf, htype, hgiven] at hupdate
            exact (Option.some.inj hupdate).symm) fun hnone => by
              rw [hupdate] at hnone
              cases hnone
          rw [Fields.receive, hsession]

variable (bridge : Bridge)

/-- The completed session of the one backend is the translation of that of the other. -/
theorem get?_toQwenSession_complete (hkey : key ≠ "enable_search") :
    Args.get? (toQwenSession ((Backend.qwen.bridge bridge).complete session)) key =
      (Args.get? ((Backend.openai.bridge bridge).complete session) key).map (translate key) := by
  have hsame : (Backend.qwen.bridge bridge).complete session =
      normalizeTurnDetection ((Backend.openai.bridge bridge).complete session) false := rfl
  rw [get?_toQwenSession hkey, hsame, get?_normalizeTurnDetection_false, Option.map_map]
  congr 1
  funext value
  unfold translate
  rw [Function.comp_apply]
  by_cases htools : key = "tools"
  · subst htools
    simp
  · by_cases hformat : key = "input_audio_format" ∨ key = "output_audio_format"
    · rw [if_neg htools, if_neg htools, if_pos hformat]
    · rw [if_neg htools, if_neg htools, if_neg hformat]

end Updates

section Runs

variable {bridge : Bridge} {fields translated : Fields}

/-- An update keeps one session the translation of the other if it is translated itself. -/
theorem Translates.update (h : Translates fields translated) {update sent : Args}
    (hsent : ∀ key, key ≠ "enable_search" →
      Args.get? sent key = (Args.get? update key).map (translate key)) :
    Translates (fun key => (Args.get? update key).or (fields key))
      fun key => (Args.get? sent key).or (translated key) := by
  intro key hkey
  dsimp only
  rw [hsent key hkey, h key hkey]
  cases Args.get? update key <;> rfl

/-- The bridge's own update in both dialects. -/
theorem get?_toQwenSession_own {voice : Option String} {instructions key : String}
    (hkey : key ≠ "enable_search") :
    Args.get? (toQwenSession (ensureVoice
        [("tools", .arr [.obj delegateTool]), ("instructions", .str instructions)] voice)) key =
      (Args.get? (ensureVoice
        [("tools", .arr [.obj delegateTool]), ("instructions", .str instructions)] voice) key).map
          (translate key) := by
  have hnone : ∀ name ∈ ["turn_detection", "audio"], Args.get? (ensureVoice
      [("tools", .arr [.obj delegateTool]), ("instructions", .str instructions)] voice) name =
        none := by
    intro name hname
    simp only [List.mem_cons, List.not_mem_nil, or_false] at hname
    rcases hname with rfl | rfl <;> rw [get?_ensureVoice (by decide)] <;> rfl
  rw [get?_toQwenSession hkey]
  by_cases hturn : key = "turn_detection"
  · rw [hnone key (by simp [hturn])]
    rfl
  · by_cases haudio : key = "audio"
    · rw [hnone key (by simp [haudio])]
      rfl
    · congr 1
      funext value
      unfold translate
      rw [if_neg hturn, if_neg haudio]

/-- What Qwen gets of an event of a client. -/
theorem receive_client (bridge : Bridge) (translated : Fields) (event : Args) :
    Backend.qwen.receive bridge translated (.client event) = fun key =>
      match Bridge.updateOf event with
      | some session =>
          (Args.get? (toQwenSession ((Backend.qwen.bridge bridge).complete session)) key).or
            (translated key)
      | none => translated key := by
  funext key
  have hreceive : Backend.qwen.receive bridge translated (.client event) key =
      translated.receive (toQwen ((Backend.qwen.bridge bridge).forward event)) key := rfl
  rw [hreceive, receive_toQwen, updateOf_forward]
  cases Bridge.updateOf event <;> rfl

/-- The session of the bridge's own update. -/
def ownSession (bridge : Bridge) : Args :=
  ensureVoice [("tools", .arr [.obj delegateTool]), ("instructions", .str
    ((textOrNone (some bridge.sessionInstructions)).getD delegateInstruction))] bridge.voice

/-- What Qwen gets of the bridge's own update. -/
theorem receive_own (bridge : Bridge) (translated : Fields) :
    translated.receive (Backend.qwen.wire (Backend.qwen.bridge bridge).sessionUpdate) = fun key =>
      (Args.get? (toQwenSession (ownSession bridge)) key).or (translated key) := by
  funext key
  have hown : Bridge.updateOf (Backend.qwen.bridge bridge).sessionUpdate =
      some (ownSession bridge) := rfl
  have hwire := receive_toQwen translated (Backend.qwen.bridge bridge).sessionUpdate key
  rwa [hown] at hwire

/-- One event keeps the session of Qwen the translation of the other one. -/
theorem Translates.receive (h : Translates fields translated) (event : SessionEvent) :
    Translates (Backend.openai.receive bridge fields event)
      (Backend.qwen.receive bridge translated event) := by
  cases event with
  | client event =>
      have hopenai : Backend.openai.receive bridge fields (.client event) = fun key =>
          match Bridge.updateOf event with
          | some session =>
              (Args.get? ((Backend.openai.bridge bridge).complete session) key).or (fields key)
          | none => fields key := funext fun key => receive_forward _ key
      rw [hopenai, receive_client]
      cases Bridge.updateOf event with
      | none => exact h
      | some session => exact h.update fun key hkey => get?_toQwenSession_complete bridge hkey
  | backend event =>
      unfold Backend.receive
      dsimp only
      split_ifs
      · rw [receive_own]
        exact h.update fun key hkey => get?_toQwenSession_own hkey
      · exact h

theorem translates_session (h : Translates fields translated) (events : List SessionEvent) :
    Translates (Backend.openai.session bridge fields events)
      (Backend.qwen.session bridge translated events) := by
  induction events generalizing fields translated with
  | nil => exact h
  | cons event events ih => exact ih (h.receive event)

/-- Qwen is told not to search by itself as soon as tools are given. -/
def SearchOff (fields translated : Fields) : Prop :=
  (fields "tools").isSome → translated "enable_search" = some (.bool false)

theorem SearchOff.receive (h : SearchOff fields translated) {event : SessionEvent}
    (hgiven : ∀ message, event = .client message → ∀ session,
      Bridge.updateOf message = some session → Bridge.ToolsGiven session) :
    SearchOff (Backend.openai.receive bridge fields event)
      (Backend.qwen.receive bridge translated event) := by
  cases event with
  | client event =>
      rw [receive_client]
      unfold SearchOff
      dsimp only
      cases hupdate : Bridge.updateOf event with
      | none =>
          have hsame : Backend.openai.receive bridge fields (.client event) "tools" =
              fields "tools" := by
            have hforward : fields.receive ((Backend.openai.bridge bridge).forward event) "tools" =
                _ := receive_forward _ "tools"
            rwa [hupdate] at hforward
          rw [hsame]
          exact h
      | some session =>
          obtain ⟨tools, htools, tool, hmem, hdelegate⟩ := tools_complete_of_given
            (Backend.qwen.bridge bridge) (hgiven event rfl session hupdate)
          intro _
          cases tool with
          | obj tool =>
              dsimp only
              rw [search_toQwenSession htools hmem, Option.some_or]
          | _ => cases hdelegate
  | backend event =>
      unfold Backend.receive
      dsimp only
      split_ifs
      · intro _
        rw [receive_own]
        dsimp only
        have htools : Args.get? (ownSession bridge) "tools" = some (.arr [.obj delegateTool]) := by
          unfold ownSession
          rw [get?_ensureVoice (by decide)]
          rfl
        rw [search_toQwenSession htools (List.mem_singleton_self _), Option.some_or]
      · exact h

theorem searchOff_session (h : SearchOff fields translated) {events : List SessionEvent}
    (hgiven : ∀ event, .client event ∈ events → ∀ session,
      Bridge.updateOf event = some session → Bridge.ToolsGiven session) :
    SearchOff (Backend.openai.session bridge fields events)
      (Backend.qwen.session bridge translated events) := by
  induction events generalizing fields translated with
  | nil => exact h
  | cons event events ih =>
      refine ih (h.receive ?_) fun event hmem => hgiven event (List.mem_cons_of_mem _ hmem)
      rintro message rfl
      exact hgiven message List.mem_cons_self

theorem noSemanticVad_serverVad (value : Option Value) :
    NoSemanticVad (value.map serverVad) := by
  intro fields hfields
  obtain ⟨detection, -, hdetection⟩ := Option.map_eq_some_iff.1 hfields
  cases detection with
  | obj detection =>
      rw [serverVad] at hdetection
      split_ifs at hdetection with hsemantic
      · obtain rfl := Value.obj.inj hdetection
        rw [Args.get?_set, if_pos rfl]
        rfl
      · obtain rfl := Value.obj.inj hdetection
        simpa using hsemantic
  | _ => cases hdetection

theorem any_map_toQwenTool (tools : List Value) :
    (((objects tools).map toQwenTool).any fun tool => isDelegateTool (.obj tool)) =
      tools.any isDelegateTool := by
  induction tools with
  | nil => rfl
  | cons value tools ih =>
      cases value with
      | obj tool =>
          have hobjects : objects (.obj tool :: tools) = tool :: objects tools := rfl
          rw [hobjects, List.map_cons, List.any_cons, List.any_cons, ih, isDelegateTool_toQwenTool]
      | _ =>
          rw [List.any_cons, ← ih]
          rfl

/-- Whatever the client and the backend send, in whatever order: the session of Qwen is the
translation of the session that the other backend has after the same events. No turns are
detected by their meaning; the tools are in the shape that Qwen reads, mean the same in the same
order, and contain the delegate tool where they did. And where there are no tools at first and
updates give lists of tools, Qwen does not search by itself once there are any. -/
theorem qwen_translates (bridge : Bridge) (hstart : Translates fields translated)
    (events : List SessionEvent) :
    let session := Backend.openai.session bridge fields events
    let sent := Backend.qwen.session bridge translated events
    Translates session sent ∧ NoSemanticVad (sent "turn_detection") ∧
      (∀ tools, session "tools" = some (.arr tools) → ∃ nested : List Args,
        sent "tools" = some (.arr (nested.map .obj)) ∧ (∀ tool ∈ nested, IsNested tool) ∧
        nested.map readTool = (objects tools).map readTool ∧
        (nested.any fun tool => isDelegateTool (.obj tool)) = tools.any isDelegateTool) ∧
      (fields "tools" = none →
        (∀ event, .client event ∈ events → ∀ update, Bridge.updateOf event = some update →
          Bridge.ToolsGiven update) → (session "tools").isSome →
            sent "enable_search" = some (.bool false)) := by
  intro session sent
  have htranslates : Translates session sent := translates_session hstart events
  refine ⟨htranslates, ?_, fun tools htools => ?_, fun hnone hgiven => ?_⟩
  · rw [htranslates "turn_detection" (by decide)]
    exact noSemanticVad_serverVad _
  · refine ⟨(objects tools).map toQwenTool, ?_, ?_, ?_, any_map_toQwenTool tools⟩
    · rw [htranslates "tools" (by decide), htools]
      rfl
    · rw [List.forall_mem_map]
      exact fun tool _ => isNested_toQwenTool tool
    · rw [List.map_map]
      exact List.map_congr_left fun tool _ => readTool_toQwenTool tool
  · refine searchOff_session ?_ hgiven
    intro hsome
    rw [hnone] at hsome
    cases hsome

/-- A client adds a tool of its own after the bridge has configured the session, and Qwen does
not search. -/
theorem qwen_translates_clock :
    let bridge : Bridge := ⟨some "You are Ada.", none, none, true⟩
    let clock : Args := [("type", .str "function"), ("name", .str "clock")]
    let update : Args := [("type", .str "session.update"), ("session", .obj
      [("tools", .arr [.obj clock]), ("input_audio_format", .str "pcm16"),
        ("turn_detection", .obj [("type", .str "semantic_vad")])])]
    let events : List SessionEvent :=
      [.backend [("type", .str "session.created")], .client update]
    Translates (Backend.openai.session bridge (fun _ => none) events)
        (Backend.qwen.session bridge (fun _ => none) events) ∧
      NoSemanticVad (Backend.qwen.session bridge (fun _ => none) events "turn_detection") ∧
      Backend.qwen.session bridge (fun _ => none) events "enable_search" =
        some (.bool false) := by
  intro bridge clock update events
  have hstart : Translates (fun _ => none) (fun _ => none) := fun _ _ => rfl
  obtain ⟨htranslates, hvad, -, hsearch⟩ := qwen_translates bridge hstart events
  refine ⟨htranslates, hvad, hsearch rfl ?_ (by decide +kernel)⟩
  intro event hmem session hsession value hvalue
  obtain rfl : event = update := by simpa [events] using hmem
  obtain rfl := Option.some.inj hsession
  exact ⟨_, (Option.some.inj hvalue).symm⟩

end Runs

end GraphAgent.Realtime
