import GraphAgent.Realtime.SessionUpdate
import GraphAgent.Transports.AudioSocket
import GraphAgent.Transports.Playback

/-!
# The phone leg of a call

`AudioSocketConnection.events` on the bytes that Asterisk sends, and what the bridge sends on
to the realtime backend: the session, the greeting, and the audio of the call until it is hung
up, in order. A frame of less than one sample has no audio at another rate.
-/

namespace GraphAgent.Voice

section Events

/-- `MESSAGE_TYPE_HANGUP` -/
def messageTypeHangup : Int := 0

/-- `MESSAGE_TYPE_AUDIO` -/
def messageTypeAudio : Int := 16

/-- `build_greeting_events` -/
def buildGreetingEvents (greeting : String) : List Args :=
  [[("type", .str "conversation.item.create"),
    ("item", .obj
      [("type", .str "message"), ("role", .str "user"),
        ("content", .arr [.obj [("type", .str "input_text"), ("text", .str greeting)]])])],
    [("type", .str "response.create"), ("response", .obj [("tool_choice", .str "none")])]]

/-- The event for the audio of a frame. -/
def appendEvent (audio : List UInt8) : Args :=
  [("type", .str "input_audio_buffer.append"),
    ("audio", .str (String.ofList (Base64.encode audio)))]

/-- The events of a connection, and what their iterator raises in the end. -/
structure Leg where
  events : List Args
  raised : Option ResampleError

def Leg.after (leg : Leg) (events : List Args) : Leg := { leg with events := events ++ leg.events }

/-- The loop of `events`, which may take the given number of rounds; `closed` says in which of
them `_closed` is set. -/
def listen (rates : VoiceRates) (closed : Nat → Bool) : Nat → Nat → List UInt8 → Option Leg
  | _, 0, _ => none
  | turn, rounds + 1, buffer =>
      if closed turn then some ⟨[], none⟩
      else
        match readFrame buffer with
        | (none, _) => some ⟨[], none⟩
        | (some message, rest) =>
            if message.messageType = messageTypeAudio then
              match resamplePcm16 message.payload telephonyRate rates.sampleRate with
              | .error error => some ⟨[], some error⟩
              | .ok audio =>
                  (listen rates closed (turn + 1) rounds rest).map fun leg =>
                    leg.after (if audio = [] then [] else [appendEvent audio])
            else if message.messageType = messageTypeHangup then some ⟨[], none⟩
            else listen rates closed (turn + 1) rounds rest

/-- The greeting events of a connection, if it has got a greeting. -/
def greetingEvents (greeting : Option String) : List Args :=
  if greeting.getD "" = "" then [] else buildGreetingEvents (greeting.getD "")

/-- `events` -/
def legEvents (rates : VoiceRates) (greeting : Option String) (closed : Nat → Bool) (rounds : Nat)
    (buffer : List UInt8) : Option Leg :=
  (listen rates closed 0 rounds buffer).map fun leg =>
    leg.after (buildSessionUpdate :: greetingEvents greeting)

end Events

section Calls

/-- The messages that are heard of a call: those before the hangup, as long as the connection
is not closed. -/
def heard (closed : Nat → Bool) (turn : Nat) (messages : List Message) : List Message :=
  ((messages.zipIdx turn).takeWhile fun entry =>
    !closed entry.2 && entry.1.messageType ≠ messageTypeHangup).map Prod.fst

/-- The audio of a message at the rate of the backend. -/
def audioOf (rates : VoiceRates) (message : Message) : Option (List UInt8) :=
  if message.messageType = messageTypeAudio then
    match resamplePcm16 message.payload telephonyRate rates.sampleRate with
    | .ok audio => if audio = [] then none else some audio
    | .error _ => none
  else none

/-- The audio that the backend reads out of an event. -/
def appendedAudio (event : Args) : Option (List UInt8) :=
  match event.get? "type", event.get? "audio" with
  | some (.str "input_audio_buffer.append"), some (.str audio) =>
      (Base64.decode audio.toList).toOption
  | _, _ => none

theorem appendedAudio_appendEvent (audio : List UInt8) :
    appendedAudio (appendEvent audio) = some audio := by
  have hdecode : Base64.decode (String.ofList (Base64.encode audio)).toList = .ok audio := by
    rw [String.toList_ofList, Base64.decode_encode]
  show (Base64.decode (String.ofList (Base64.encode audio)).toList).toOption = some audio
  rw [hdecode]
  rfl

variable {rates : VoiceRates} {closed : Nat → Bool} {turn : Nat} {message : Message}
  {messages : List Message} {buffer : List UInt8}

/-- The bytes that a frame needs to be heard: one sample, where the audio is resampled. -/
def fewestBytes (rates : VoiceRates) : Nat := if telephonyRate = rates.sampleRate then 1 else 2

/-- With a rate that is not 0 audio can be resampled, and some is left of a whole sample. -/
theorem exists_resamplePcm16 (hrate : rates.sampleRate ≠ 0) (data : List UInt8) :
    ∃ audio, resamplePcm16 data telephonyRate rates.sampleRate = .ok audio ∧
      (audio = [] ↔ data.length < fewestBytes rates) := by
  unfold fewestBytes
  by_cases hsame : telephonyRate = rates.sampleRate
  · refine ⟨data, by rw [resamplePcm16, if_pos (.inl hsame)]; rfl, ?_⟩
    rw [if_pos hsame, Nat.lt_one_iff, List.length_eq_zero_iff]
  rw [if_neg hsame]
  by_cases hdata : 2 ≤ data.length
  · obtain ⟨out, hout, hlength, -⟩ := resamplePcm16_ok hdata (by decide) hrate hsame
    have hone : 1 ≤ outCount (samplesOf data).length telephonyRate rates.sampleRate :=
      le_max_left _ _
    refine ⟨_, hout, iff_of_false (fun hnil => ?_) (Nat.not_lt.2 hdata)⟩
    have hbytes := congrArg List.length hnil
    rw [length_tobytes, List.length_nil] at hbytes
    omega
  · refine ⟨[], ?_, iff_of_true rfl (Nat.not_le.1 hdata)⟩
    unfold resamplePcm16
    split
    case isTrue hnil =>
      rw [hnil.resolve_left hsame]
      rfl
    case isFalse =>
      have hcount : (samplesOf data).length = 0 := by
        rw [length_samplesOf]
        omega
      dsimp only
      rw [if_pos hcount]
      rfl

/-- A frame of audio is heard if it has bytes enough. -/
theorem isSome_audioOf (hrate : rates.sampleRate ≠ 0)
    (haudio : message.messageType = messageTypeAudio) :
    (audioOf rates message).isSome = true ↔ fewestBytes rates ≤ message.payload.length := by
  obtain ⟨audio, hresample, hempty⟩ := exists_resamplePcm16 hrate message.payload
  unfold audioOf
  rw [if_pos haudio, hresample, ← Nat.not_lt, ← hempty]
  by_cases hnil : audio = [] <;> simp [hnil]

example : audioOf ⟨16000, none⟩ ⟨messageTypeAudio, [7]⟩ = none := rfl

/-- Every stream of bytes is a list of messages, and behind them too little for one more. -/
theorem exists_messages (buffer : List UInt8) : ∃ (messages : List Message) (tail : List UInt8),
    (∀ message ∈ messages, message.InRange) ∧
      buffer = messages.flatMap Message.bytes ++ tail ∧ (readFrame tail).1 = none := by
  induction hlength : buffer.length using Nat.strong_induction_on generalizing buffer with
  | h n ih =>
      cases hread : readFrame buffer with
      | mk first rest =>
          cases first with
          | none => exact ⟨[], buffer, by simp, by simp, by rw [hread]⟩
          | some message =>
              obtain ⟨hrange, hbuffer⟩ := eq_bytes_of_readFrame hread
              have hshort : rest.length < n := by
                rw [← hlength, hbuffer, List.length_append, Message.bytes, List.length_append,
                  length_header, headerSize]
                omega
              obtain ⟨messages, tail, hranges, hrest, htail⟩ := ih rest.length hshort rest rfl
              refine ⟨message :: messages, tail, ?_, ?_, htail⟩
              · simpa using ⟨hrange, hranges⟩
              · rw [hbuffer, List.flatMap_cons, List.append_assoc, ← hrest]

theorem heard_nil : heard closed turn [] = [] := rfl

theorem heard_cons : heard closed turn (message :: messages) =
    if closed turn = false ∧ message.messageType ≠ messageTypeHangup then
      message :: heard closed (turn + 1) messages else [] := by
  unfold heard
  rw [List.zipIdx_cons, List.takeWhile_cons]
  by_cases hclosed : closed turn = true
  · simp [hclosed]
  · by_cases hhangup : message.messageType = messageTypeHangup
    · simp [hhangup]
    · simp [hclosed, hhangup]

/-- The loop over a stream whose messages are known: it ends within one round more than there
are messages. -/
theorem listen_messages (hrate : rates.sampleRate ≠ 0) (closed : Nat → Bool) (turn : Nat)
    {tail : List UInt8} {rounds : Nat} (hrange : ∀ message ∈ messages, message.InRange)
    (htail : (readFrame tail).1 = none)
    (hrounds : messages.length < rounds) :
    listen rates closed turn rounds (messages.flatMap Message.bytes ++ tail) =
      some ⟨((heard closed turn messages).filterMap (audioOf rates)).map appendEvent, none⟩ := by
  induction messages generalizing turn rounds with
  | nil =>
      obtain ⟨rounds, rfl⟩ := Nat.exists_eq_succ_of_ne_zero (Nat.ne_of_gt hrounds)
      rw [List.flatMap_nil, List.nil_append, listen, heard_nil]
      split
      case isTrue => rfl
      case isFalse =>
        cases hread : readFrame tail with
        | mk first rest =>
            obtain rfl : first = none := by rw [hread] at htail; exact htail
            rfl
  | cons message messages ih =>
      obtain ⟨rounds, rfl⟩ := Nat.exists_eq_succ_of_ne_zero (Nat.ne_zero_of_lt hrounds)
      have hrest : listen rates closed (turn + 1) rounds (messages.flatMap Message.bytes ++ tail) =
          some ⟨((heard closed (turn + 1) messages).filterMap (audioOf rates)).map appendEvent,
            none⟩ :=
        ih (turn + 1) (fun other hother => hrange other (List.mem_cons_of_mem _ hother))
          (Nat.lt_of_succ_lt_succ hrounds)
      rw [List.flatMap_cons, List.append_assoc, listen, heard_cons,
        readFrame_bytes (hrange message List.mem_cons_self)]
      by_cases hclosed : closed turn = true
      · simp [hclosed]
      have hopen : closed turn = false := by simpa using hclosed
      dsimp only
      rw [if_neg hclosed, hrest]
      by_cases haudio : message.messageType = messageTypeAudio
      · have hstays : message.messageType ≠ messageTypeHangup := by rw [haudio]; decide
        obtain ⟨audio, hresample, -⟩ := exists_resamplePcm16 hrate message.payload
        rw [if_pos haudio, if_pos ⟨hopen, hstays⟩, hresample]
        by_cases hempty : audio = [] <;> simp [audioOf, haudio, hresample, hempty, Leg.after]
      · rw [if_neg haudio]
        by_cases hhangup : message.messageType = messageTypeHangup
        · rw [if_pos hhangup, if_neg fun hboth => hboth.2 hhangup]
          rfl
        · rw [if_neg hhangup, if_pos ⟨hopen, hhangup⟩]
          simp [audioOf, haudio]

end Calls

section Backend

variable {rates : VoiceRates} {greeting : Option String}

/-- The bridge passes on as they are all events that update no session. -/
theorem forward_of_updateOf {bridge : Realtime.Bridge} {event : Args}
    (h : Realtime.Bridge.updateOf event = none) : bridge.forward event = event := by
  rw [Realtime.Bridge.forward, h]

theorem forward_greetingEvents (bridge : Realtime.Bridge) :
    (greetingEvents greeting).map bridge.forward = greetingEvents greeting := by
  unfold greetingEvents
  split <;> rfl

theorem forward_appendEvent (bridge : Realtime.Bridge) (audio : List (List UInt8)) :
    (audio.map appendEvent).map bridge.forward = audio.map appendEvent := by
  rw [List.map_map]
  exact List.map_congr_left fun _ _ => forward_of_updateOf rfl

theorem appendedAudio_greetingEvents : (greetingEvents greeting).filterMap appendedAudio = [] := by
  unfold greetingEvents
  split <;> rfl

theorem filterMap_appendedAudio (audio : List (List UInt8)) :
    (audio.map appendEvent).filterMap appendedAudio = audio := by
  rw [List.filterMap_map, Function.comp_def]
  simp only [appendedAudio_appendEvent, List.filterMap_some]

/-- A frame of audio, a hangup, and a byte that nobody reads. -/
def hungUp : List UInt8 := [16, 0, 2, 1, 2, 0, 0, 0, 7]

/-- The bridge of a channel without any settings. -/
def plainBridge : Realtime.Bridge := ⟨none, none, none, true⟩

end Backend

end GraphAgent.Voice
