import GraphAgent.Library.Base64
import GraphAgent.Library.Blocks
import GraphAgent.Library.Chunks
import GraphAgent.Tools.Policy
import GraphAgent.Transports.Audio

/-!
# The audio that a call plays

`AudioSocketConnection.send`, which resamples the backend's audio and queues it in frames, and
the pump that takes the frames: what is queued is what was accepted since the user last spoke,
less what the pump has taken.
-/

namespace GraphAgent.Voice

section Connection

/-- `FRAME_SAMPLES` -/
def frameSamples : Nat := 160

/-- `FRAME_BYTES` -/
def frameBytes : Nat := frameSamples * 2

/-- `TELEPHONY_RATE` -/
def telephonyRate : Int := 8000

/-- The rates in `VoiceChannelConfig`. -/
structure VoiceRates where
  sampleRate : Int
  outputSampleRate : Option Int

/-- `config.output_sample_rate or config.sample_rate` -/
def outputRate (rates : VoiceRates) : Int :=
  match rates.outputSampleRate with
  | some rate => if rate = 0 then rates.sampleRate else rate
  | none => rates.sampleRate

/-- What `send` and the pump work on of an `AudioSocketConnection`. -/
structure Connection where
  eventTypes : List (String × Nat)
  audioBytes : Nat
  sendBuffer : List UInt8
  outgoing : List (List UInt8)
  interrupted : Bool
  deriving DecidableEq, Repr

/-- A connection as `__init__` makes it. -/
def freshConnection : Connection := ⟨[], 0, [], [], false⟩

/-- What `send` raises. -/
inductive SendError where
  | delta (error : Base64.DecodeError)
  | audio (error : ResampleError)
  deriving DecidableEq, Repr

/-- `_clear_pending_audio` -/
def clearPendingAudio (connection : Connection) : Connection :=
  { connection with sendBuffer := [], outgoing := [] }

/-- `_queue_audio` -/
def queueAudio (connection : Connection) (audio : List UInt8) : Connection :=
  let (frames, rest) := Chunks.cut frameBytes (connection.sendBuffer ++ audio)
  { connection with sendBuffer := rest, outgoing := connection.outgoing ++ frames }

/-- `_audio_delta` -/
def audioDelta (event : Args) : Option String :=
  match event.get? "type" with
  | some (.str type) =>
      if type ∈ ["response.audio.delta", "response.output_audio.delta"] then
        match event.get? "delta" with
        | some (.str delta) => if delta = "" then none else some delta
        | _ => none
      else none
  | _ => none

/-- `self._event_types[event_type] = self._event_types.get(event_type, 0) + 1` -/
def countEvent (connection : Connection) (type : String) : Connection :=
  { connection with
    eventTypes := Blocks.assign connection.eventTypes
      (type, (connection.eventTypes.lookup type).getD 0 + 1) }

/-- What `_pump_audio` takes from the queue; it waits where there is nothing. -/
def pumpAudio (connection : Connection) : Option (List UInt8 × Connection) :=
  match connection.outgoing with
  | [] => none
  | frame :: rest => some (frame, { connection with outgoing := rest })

variable (py : Python) (resample : List UInt8 → Except ResampleError (List UInt8))

/-- `str(event.get("type"))` -/
def eventType (event : Args) : String := py.str ((event.get? "type").getD .null)

/-- `resample_pcm16(base64.b64decode(delta), self._output_rate, TELEPHONY_RATE)` -/
def deltaAudio (delta : String) : Except SendError (List UInt8) :=
  match Base64.decode delta.toList with
  | .error error => .error (.delta error)
  | .ok data =>
      match resample data with
      | .error error => .error (.audio error)
      | .ok audio => .ok audio

/-- The part of `send` that plays the audio of an event. -/
def playDelta (connection : Connection) (event : Args) : Connection × Option SendError :=
  match audioDelta event with
  | none => (connection, none)
  | some delta =>
      if connection.interrupted then (connection, none)
      else
        match deltaAudio resample delta with
        | .error error => (connection, some error)
        | .ok audio =>
            (queueAudio { connection with audioBytes := connection.audioBytes + audio.length }
              audio, none)

/-- `send`: the connection after it, and what it raises. -/
def send (connection : Connection) (event : Args) : Connection × Option SendError :=
  let type := eventType py event
  let connection := countEvent connection type
  if type = "input_audio_buffer.speech_started" then
    (clearPendingAudio { connection with interrupted := true }, none)
  else if type = "response.created" then
    playDelta resample { connection with interrupted := false } event
  else playDelta resample connection event

end Connection

section History

variable (py : Python) (resample : List UInt8 → Except ResampleError (List UInt8))

def isSpeechStarted (event : Args) : Prop :=
  eventType py event = "input_audio_buffer.speech_started"

instance (event : Args) : Decidable (isSpeechStarted py event) :=
  inferInstanceAs (Decidable (_ = _))

def isResponseCreated (event : Args) : Prop := eventType py event = "response.created"

instance (event : Args) : Decidable (isResponseCreated py event) :=
  inferInstanceAs (Decidable (_ = _))

/-- What has happened since the last `speech_started`: the frames that the pump has taken, the
audio that was accepted, and whether there was no `response.created` so far. -/
structure History where
  taken : List (List UInt8)
  accepted : List UInt8
  silenced : Bool
  deriving DecidableEq, Repr

/-- The resampled audio of an event. -/
def eventAudio (event : Args) : List UInt8 :=
  match audioDelta event with
  | none => []
  | some delta =>
      match deltaAudio resample delta with
      | .error _ => []
      | .ok audio => audio

/-- The audio of an event is accepted where the backend may speak. -/
def acceptedAudio (silenced : Bool) (event : Args) : List UInt8 :=
  if silenced then [] else eventAudio resample event

def History.send (history : History) (event : Args) : History :=
  if isSpeechStarted py event then ⟨[], [], true⟩
  else
    let silenced := history.silenced && !decide (isResponseCreated py event)
    { history with
      accepted := history.accepted ++ acceptedAudio resample silenced event
      silenced := silenced }

/-- A backend event is sent, or the pump has its turn. -/
inductive Step where
  | send (event : Args)
  | pump

/-- A step of the connection, and what is written down of it. -/
def step (state : Connection × History) : Step → Connection × History
  | .send event => ((send py resample state.1 event).1, state.2.send py resample event)
  | .pump =>
      match pumpAudio state.1 with
      | none => state
      | some (frame, connection) =>
          (connection, { state.2 with taken := state.2.taken ++ [frame] })

/-- The connection after some steps, and what happened since the last `speech_started`. -/
def play (steps : List Step) : Connection × History :=
  steps.foldl (step py resample) (freshConnection, ⟨[], [], false⟩)

end History

section Accounts

variable {py : Python} {resample : List UInt8 → Except ResampleError (List UInt8)}
  {connection : Connection} {history : History} {event : Args}

/-- The user who starts to speak stops the playback. -/
theorem send_of_speechStarted (h : isSpeechStarted py event) :
    (send py resample connection event).1.sendBuffer = [] ∧
      (send py resample connection event).1.outgoing = [] ∧
      (send py resample connection event).1.interrupted = true := by
  have hsend : (send py resample connection event).1 =
      clearPendingAudio { countEvent connection (eventType py event) with interrupted := true } :=
    congrArg Prod.fst (if_pos h)
  rw [hsend]
  exact ⟨rfl, rfl, rfl⟩

/-- The audio that is accepted of an event goes behind what is there. -/
theorem playDelta_queues (hshort : connection.sendBuffer.length < frameBytes) :
    (playDelta resample connection event).1.interrupted = connection.interrupted ∧
      ∃ frames,
        (playDelta resample connection event).1.outgoing = connection.outgoing ++ frames ∧
        Chunks.IsCut frameBytes
          (connection.sendBuffer ++ acceptedAudio resample connection.interrupted event) frames
          (playDelta resample connection event).1.sendBuffer := by
  have hnothing : Chunks.IsCut frameBytes (connection.sendBuffer ++ []) []
      connection.sendBuffer := ⟨nofun, hshort, (List.append_nil _).symm⟩
  unfold playDelta acceptedAudio eventAudio
  cases audioDelta event with
  | none =>
      dsimp only
      rw [ite_self]
      exact ⟨rfl, [], (List.append_nil _).symm, hnothing⟩
  | some delta =>
      dsimp only
      by_cases hinterrupted : connection.interrupted = true
      · rw [if_pos hinterrupted, if_pos hinterrupted]
        exact ⟨rfl, [], (List.append_nil _).symm, hnothing⟩
      · rw [if_neg hinterrupted, if_neg hinterrupted]
        cases deltaAudio resample delta with
        | error error => exact ⟨rfl, [], (List.append_nil _).symm, hnothing⟩
        | ok audio => exact ⟨rfl, _, rfl, Chunks.isCut_cut (by decide) _⟩

/-- What any event other than `speech_started` does. -/
theorem send_queues (h : ¬ isSpeechStarted py event)
    (hshort : connection.sendBuffer.length < frameBytes) :
    ∃ silenced, silenced = (connection.interrupted && !decide (isResponseCreated py event)) ∧
      (send py resample connection event).1.interrupted = silenced ∧
      ∃ frames,
        (send py resample connection event).1.outgoing = connection.outgoing ++ frames ∧
        Chunks.IsCut frameBytes
          (connection.sendBuffer ++ acceptedAudio resample silenced event) frames
          (send py resample connection event).1.sendBuffer := by
  refine ⟨_, rfl, ?_⟩
  by_cases hcreated : isResponseCreated py event
  · have hsend : send py resample connection event =
        playDelta resample
          { countEvent connection (eventType py event) with interrupted := false } event :=
      (if_neg h).trans (if_pos hcreated)
    rw [hsend, decide_eq_true hcreated, Bool.not_true, Bool.and_false]
    exact playDelta_queues hshort
  · have hsend : send py resample connection event =
        playDelta resample (countEvent connection (eventType py event)) event :=
      (if_neg h).trans (if_neg hcreated)
    rw [hsend, decide_eq_false hcreated, Bool.not_false, Bool.and_true]
    exact playDelta_queues hshort

/-- What was accepted is cut into the frames that the pump has taken and those in the queue,
and what waits for more; and nothing is there while the backend is silenced. -/
structure Accounted (connection : Connection) (history : History) : Prop where
  cut : Chunks.IsCut frameBytes history.accepted (history.taken ++ connection.outgoing)
    connection.sendBuffer
  interrupted : connection.interrupted = history.silenced
  silent : history.silenced = true → connection.outgoing = [] ∧ connection.sendBuffer = []

theorem accounted_fresh : Accounted freshConnection ⟨[], [], false⟩ :=
  ⟨Chunks.isCut_nil (by decide), rfl, fun _ => ⟨rfl, rfl⟩⟩

theorem Accounted.send (h : Accounted connection history) (event : Args) :
    Accounted (send py resample connection event).1 (history.send py resample event) := by
  by_cases hspeech : isSpeechStarted py event
  · obtain ⟨hbuffer, houtgoing, hinterrupted⟩ :=
      @send_of_speechStarted py resample connection event hspeech
    have hhistory : history.send py resample event = ⟨[], [], true⟩ := if_pos hspeech
    rw [hhistory]
    constructor
    case cut =>
      rw [hbuffer, houtgoing]
      exact Chunks.isCut_nil (by decide)
    case interrupted => exact hinterrupted
    case silent => exact fun _ => ⟨houtgoing, hbuffer⟩
  · obtain ⟨silenced, hsilenced, hinterrupted, frames, houtgoing, hcut⟩ :=
      @send_queues py resample connection event hspeech h.cut.short
    have hhistory : history.send py resample event =
        ⟨history.taken, history.accepted ++ acceptedAudio resample silenced event, silenced⟩ := by
      rw [hsilenced, h.interrupted]
      exact if_neg hspeech
    rw [hhistory]
    constructor
    case cut =>
      rw [houtgoing, ← List.append_assoc]
      exact h.cut.append hcut
    case interrupted => exact hinterrupted
    case silent =>
      intro htrue
      have hbefore : history.silenced = true := by
        rw [hsilenced, h.interrupted] at htrue
        exact (Bool.and_eq_true_iff.mp htrue).1
      obtain ⟨hnone, hempty⟩ := h.silent hbefore
      have haccepted : acceptedAudio resample silenced event = [] := if_pos htrue
      rw [hempty, haccepted] at hcut
      obtain ⟨rfl, hbuffer⟩ := hcut.unique (Chunks.isCut_nil (by decide))
      exact ⟨by rw [houtgoing, hnone, List.nil_append], hbuffer⟩

theorem Accounted.pump (h : Accounted connection history) {frame : List UInt8}
    {connection' : Connection} (hpump : pumpAudio connection = some (frame, connection')) :
    Accounted connection' { history with taken := history.taken ++ [frame] } := by
  unfold pumpAudio at hpump
  split at hpump
  case h_1 => cases hpump
  case h_2 frame rest houtgoing =>
    cases hpump
    constructor
    case cut =>
      have hcut := h.cut
      rwa [houtgoing, ← List.singleton_append, ← List.append_assoc] at hcut
    case interrupted => exact h.interrupted
    case silent =>
      intro htrue
      have hnone := (h.silent htrue).1
      rw [houtgoing] at hnone
      cases hnone

theorem Accounted.step {state : Connection × History} (h : Accounted state.1 state.2)
    (taken : Step) :
    Accounted (step py resample state taken).1 (step py resample state taken).2 := by
  cases taken with
  | send event => exact h.send event
  | pump =>
      unfold Voice.step
      dsimp only
      cases hpump : pumpAudio state.1 with
      | none => exact h
      | some result => exact h.pump hpump

theorem play_append (before steps : List Step) :
    play py resample (before ++ steps) = steps.foldl (step py resample) (play py resample before) :=
  List.foldl_append

theorem accounted_play (steps : List Step) :
    Accounted (play py resample steps).1 (play py resample steps).2 := by
  induction steps using List.reverseRecOn with
  | nil => exact accounted_fresh
  | append_singleton steps last ih =>
      rw [play_append]
      exact ih.step last

/-- The backend stays silenced up to the next `response.created`. -/
theorem silenced_foldl {state : Connection × History} (hstate : state.2.silenced = true)
    {steps : List Step} (h : ∀ event, .send event ∈ steps → ¬ isResponseCreated py event) :
    (steps.foldl (step py resample) state).2.silenced = true := by
  induction steps generalizing state with
  | nil => exact hstate
  | cons first rest ih =>
      apply ih
      case h => exact fun event hevent => h event (List.mem_cons_of_mem _ hevent)
      case hstate =>
        cases first with
        | send event =>
            have hcreated := h event List.mem_cons_self
            change (state.2.send py resample event).silenced = true
            unfold History.send
            split
            · rfl
            · rw [hstate, decide_eq_false hcreated]
              rfl
        | pump =>
            unfold step
            dsimp only
            cases pumpAudio state.1 with
            | none => exact hstate
            | some result => exact hstate

end Accounts

section Result

variable (py : Python) (resample : List UInt8 → Except ResampleError (List UInt8))

/-- In whatever order the backend sends and the pump takes: frames are whole and what waits is
less than one; what was taken, what is queued and what waits are what was accepted since the
last `speech_started`; and after a `speech_started` there is nothing to play until the next
`response.created`. -/
theorem play_accounts (steps : List Step) :
    (∀ frame ∈ (play py resample steps).1.outgoing, frame.length = frameBytes) ∧
    (play py resample steps).1.sendBuffer.length < frameBytes ∧
    (play py resample steps).2.taken.flatten ++ (play py resample steps).1.outgoing.flatten ++
      (play py resample steps).1.sendBuffer = (play py resample steps).2.accepted ∧
    ∀ front event back, steps = front ++ .send event :: back → isSpeechStarted py event →
      (∀ other, .send other ∈ back → ¬ isResponseCreated py other) →
      (play py resample steps).1.outgoing = [] ∧ (play py resample steps).1.sendBuffer = [] := by
  have h := @accounted_play py resample steps
  refine ⟨fun frame hframe => h.cut.whole frame (List.mem_append_right _ hframe), h.cut.short,
    ?_, ?_⟩
  · rw [← List.flatten_append]
    exact h.cut.joined
  · rintro front event back rfl hspeech hback
    apply h.silent
    rw [play_append, List.foldl_cons]
    apply silenced_foldl
    case hstate =>
      have hhistory : ∀ history : History,
          (history.send py resample event).silenced = true := by
        intro history
        rw [History.send, if_pos hspeech]
      exact hhistory _
    case h => exact hback

/-- Python's text functions on ASCII. -/
def plainPython : Python := ⟨Text.lower, fun c => c.isAlphanum || c = '_', fun _ => ""⟩

/-- Some audio of the backend: a frame and the beginning of the next one. -/
def answerAudio : List Step :=
  [.send [("type", .str "response.created")],
    .send [("type", .str "response.audio.delta"), ("delta", .str "AQID")]]

/-- A resampler that makes 110 bytes of one. -/
def stretched (data : List UInt8) : Except ResampleError (List UInt8) :=
  .ok (data.flatMap fun byte => List.replicate 110 byte)

example : (play plainPython stretched answerAudio).1.outgoing.map List.length = [320] ∧
    (play plainPython stretched answerAudio).1.sendBuffer = List.replicate 10 3 ∧
    (play plainPython stretched (answerAudio ++ [.pump])).1.outgoing = [] ∧
    (play plainPython stretched (answerAudio ++ [.pump])).2.taken.map List.length = [320] := by
  decide +kernel

end Result

end GraphAgent.Voice
