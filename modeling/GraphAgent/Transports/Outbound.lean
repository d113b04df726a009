import GraphAgent.Library.Dictionaries
import GraphAgent.Library.Hex
import GraphAgent.Library.Transition
import GraphAgent.Transports.Ami
import GraphAgent.Transports.AudioSocket

/-!
# Greetings of outbound calls

`OutboundCaller` registers a greeting under the id of a call before it asks Asterisk to dial,
and takes it back where that fails; `AudioSocketServer` hands it to the connection that opens
with the id. Calls and connections come in any order.
-/

namespace GraphAgent.Voice

section Ids

/-- `uuid4()`, which is a number of 128 bits. -/
abbrev Uuid := Fin (2 ^ 128)

/-- The groups 8-4-4-4-12 of 32 digits. -/
def hyphenated (digits : List Char) : List Char :=
  digits.take 8 ++ '-' :: (digits.drop 8).take 4 ++ '-' :: (digits.drop 12).take 4 ++
    '-' :: (digits.drop 16).take 4 ++ '-' :: (digits.drop 20).take 12

/-- `str(uuid)` -/
def Uuid.text (id : Uuid) : String := String.ofList (hyphenated (Hex.ofNat 32 id))

/-- `uuid.bytes`, with which Asterisk opens the connection of a call. -/
def Uuid.bytes (id : Uuid) : List UInt8 := Hex.toBytes 16 id

/-- `UUID_BYTES` -/
def uuidBytes : Nat := 16

/-- `format_call_id` -/
def formatCallId (payload : List UInt8) : String :=
  let raw := Hex.ofBytes payload
  String.ofList (if raw.length ≠ uuidBytes * 2 then raw else hyphenated raw)

theorem formatCallId_bytes (id : Uuid) : formatCallId id.bytes = id.text := by
  have hdigits : Hex.ofBytes id.bytes = Hex.ofNat 32 id := (Hex.ofNat_eq 16 id).symm
  rw [formatCallId, if_neg (by simp [Uuid.bytes, uuidBytes]), hdigits, Uuid.text]

/-- Without its hyphens a text is what has been put in groups. -/
theorem filter_hyphenated {digits : List Char} (hlength : digits.length = 32)
    (hdash : '-' ∉ digits) : (hyphenated digits).filter (· ≠ '-') = digits := by
  have hkeep : ∀ n m : Nat, ((digits.drop n).take m).filter (· ≠ '-') = (digits.drop n).take m := by
    refine fun n m => List.filter_eq_self.2 fun c hc => decide_eq_true fun heq => hdash ?_
    exact heq ▸ List.mem_of_mem_drop (List.mem_of_mem_take hc)
  have hsplit : ∀ n m : Nat, (digits.drop n).take m ++ digits.drop (n + m) = digits.drop n := by
    intro n m
    rw [← List.drop_drop, List.take_append_drop]
  have hlast : (digits.drop 20).take 12 = digits.drop 20 := List.take_of_length_le (by simp [hlength])
  have hfirst : digits.take 8 = (digits.drop 0).take 8 := rfl
  simp only [hyphenated, hfirst, List.filter_append, hkeep, List.append_assoc, List.filter_cons,
    ne_eq, not_true_eq_false, decide_false, Bool.false_eq_true, if_false, List.cons_append]
  rw [hlast, hsplit 16 4, hsplit 12 4, hsplit 8 4, hsplit 0 8, List.drop_zero]

/-- Different payloads have different texts. -/
theorem formatCallId_injective : Function.Injective formatCallId := by
  have hfilter : ∀ payload, (formatCallId payload).toList.filter (· ≠ '-') = Hex.ofBytes payload := by
    intro payload
    rw [formatCallId, String.toList_ofList]
    split
    case isTrue =>
      refine List.filter_eq_self.2 fun c hc => decide_eq_true fun heq => ?_
      exact Hex.dash_not_mem payload (heq ▸ hc)
    case isFalse hlength =>
      exact filter_hyphenated (not_not.1 hlength) (Hex.dash_not_mem payload)
  intro payload other h
  refine Hex.ofBytes_injective ?_
  rw [← hfilter payload, h, hfilter other]

theorem Uuid.bytes_injective : Function.Injective Uuid.bytes := by
  intro id other h
  have hbytes : Hex.toBytes 16 id.val = Hex.toBytes 16 other.val := h
  exact Fin.ext (Hex.toBytes_inj (by omega) (by omega) hbytes)

end Ids

section Callers

/-- What `OutboundCaller` and `AudioSocketServer` read of `VoiceChannelConfig`. -/
structure OutboundConfig where
  voice : VoiceChannelConfig
  greeting : Option String

/-- `value if isinstance(value, str) and value.strip() else None` -/
def spoken : Option Value → Option String
  | some (.str text) => if Text.strip text = "" then none else some text
  | _ => none

/-- The callers of `OutboundCaller.call`: `CallPhoneTool.execute`, `VoiceSink.send` and
`VoiceSink.send_file`. -/
inductive Caller where
  | tool (args : Args)
  | send (text : String)
  | sendFile (path : String) (caption : Option String)

/-- The `number` of a caller. -/
def Caller.number : Caller → Option String
  | .tool args => spoken (args.get? "number")
  | _ => none

/-- The `greeting` of a caller. -/
def Caller.greeting : Caller → Option String
  | .tool args => spoken (args.get? "greeting")
  | .send text => some text
  | .sendFile path caption =>
      some (if caption.getD "" = "" then "I have a file to tell you about: " ++ path
        else caption.getD "")

variable (config : OutboundConfig)

/-- `greeting or self._config.greeting` -/
def callGreeting (greeting : Option String) : Option String :=
  if greeting.getD "" = "" then config.greeting else greeting

/-- The greeting of an `AudioSocketConnection`. -/
def connectionGreeting (greeting : Option String) : Option String :=
  greeting.orElse fun _ => config.greeting

end Callers

section System

/-- What has happened to the greetings. -/
inductive Moment where
  | registered (id : Uuid) (greeting : Option String)
  | withdrawn (id : Uuid)
  | connected (payload : List UInt8) (outbound : Bool) (greeting : Option String)
  deriving DecidableEq, Repr

/-- How the `originate` of a call ends: the call is placed, an exception is raised, or the task
that waits for it is cancelled, which is no `Exception`. -/
inductive Dialed where
  | placed
  | raised
  | abandoned

/-- The pending greetings, the calls whose `originate` goes on, and what has happened. -/
structure Telephony where
  pendingGreetings : List (String × Option String)
  dialing : List Uuid
  history : List Moment

/-- What can happen next: a call, the end of its `originate`, or a connection, whose first frame
has been read. -/
inductive Telephony.Act where
  | call (caller : Caller) (id : Uuid)
  | dialed (id : Uuid) (how : Dialed)
  | handle (frame : Option Message)

/-- `MESSAGE_TYPE_UUID` -/
def messageTypeUuid : Int := 1

namespace Telephony

variable (config : OutboundConfig)

/-- The first part of `OutboundCaller.call`; without a number to call it raises. -/
def call (s : Telephony) (caller : Caller) (id : Uuid) : Telephony :=
  if target config.voice caller.number = "" then s
  else
    let greeting := callGreeting config caller.greeting
    { pendingGreetings := Blocks.assign s.pendingGreetings (id.text, greeting)
      dialing := s.dialing ++ [id]
      history := s.history ++ [.registered id greeting] }

/-- The second part of `OutboundCaller.call`. -/
def dialed (s : Telephony) (id : Uuid) : Dialed → Telephony
  | .raised =>
      { pendingGreetings := Dictionary.pop s.pendingGreetings id.text
        dialing := s.dialing.erase id
        history := s.history ++ [.withdrawn id] }
  | _ => { s with dialing := s.dialing.erase id }

/-- `AudioSocketServer._handle` up to the connection that it starts. -/
def handle (s : Telephony) : Option Message → Telephony
  | none => s
  | some frame =>
      if frame.messageType ≠ messageTypeUuid then s
      else
        let callId := formatCallId frame.payload
        let found := s.pendingGreetings.lookup callId
        let greeting := connectionGreeting config (found.getD config.greeting)
        { s with
          pendingGreetings := Dictionary.pop s.pendingGreetings callId
          history := s.history ++ [.connected frame.payload found.isSome greeting] }

/-- The calls and connections of a server. -/
def system : Transition.System Telephony Act where
  init s := s = ⟨[], [], []⟩
  step s
    | .call caller id => some (s.call config caller id)
    | .dialed id how => if id ∈ s.dialing then some (s.dialed id how) else none
    | .handle frame => some (s.handle config frame)

/-- No id has been drawn before. -/
def Fresh (s : Telephony) : Act → Prop
  | .call _ id => ∀ greeting, .registered id greeting ∉ s.history
  | _ => True

end Telephony

end System

section Greetings

variable {config : OutboundConfig} {history before after : List Moment} {id : Uuid}
  {greeting : Option String}

/-- The greeting of a call is there to be taken: the call has neither failed nor been
connected. -/
def Awaits (history : List Moment) (id : Uuid) (greeting : Option String) : Prop :=
  .registered id greeting ∈ history ∧ .withdrawn id ∉ history ∧
    ∀ said, .connected id.bytes true said ∉ history

/-- A connection has got the greeting that is due to it after what has happened: the one that
awaits its id, or else the one of the configuration. -/
def Due (config : OutboundConfig) (before : List Moment) (payload : List UInt8)
    (outbound : Bool) (said : Option String) : Prop :=
  if outbound then ∃ id greeting, payload = id.bytes ∧ Awaits before id greeting ∧
    said = connectionGreeting config greeting
  else (∀ id greeting, payload = id.bytes → ¬ Awaits before id greeting) ∧ said = config.greeting

/-- Every connection has got the greeting that was due to it. -/
def Greeted (config : OutboundConfig) (history : List Moment) : Prop :=
  ∀ before after payload outbound said,
    history = before ++ .connected payload outbound said :: after →
      Due config before payload outbound said

theorem Greeted.snoc (h : Greeted config history) {moment : Moment}
    (hlast : ∀ payload outbound said, moment = .connected payload outbound said →
      Due config history payload outbound said) : Greeted config (history ++ [moment]) := by
  intro before after payload outbound said hsplit
  rcases List.eq_nil_or_concat after with rfl | ⟨rest, last, rfl⟩
  · obtain ⟨rfl, hmoment⟩ := List.append_inj' hsplit rfl
    exact hlast _ _ _ (List.singleton_inj.1 hmoment)
  · rw [List.concat_eq_append, ← List.cons_append, ← List.append_assoc] at hsplit
    exact h before rest payload outbound said (List.append_inj' hsplit rfl).1

/-- The pending greetings are those that await their calls, and what has happened fits
together: only registered calls are dialing, withdrawn or connected. -/
structure Held (s : Telephony) : Prop where
  pending : ∀ id greeting, s.pendingGreetings.lookup id.text = some greeting ↔
    Awaits s.history id greeting
  keys : ∀ key, s.pendingGreetings.lookup key ≠ none → ∃ id : Uuid, key = id.text
  dialing : ∀ id ∈ s.dialing, ∃ greeting, .registered id greeting ∈ s.history
  withdrawn : ∀ id, .withdrawn id ∈ s.history → ∃ greeting, .registered id greeting ∈ s.history
  connected : ∀ id said, .connected id.bytes true said ∈ s.history →
    ∃ greeting, .registered id greeting ∈ s.history

/-- With different ids the calls know themselves by different texts. -/
theorem text_inj {other : Uuid} : id.text = other.text ↔ id = other := by
  rw [← formatCallId_bytes, ← formatCallId_bytes]
  exact (formatCallId_injective.comp Uuid.bytes_injective).eq_iff

theorem Held.fresh : Held ⟨[], [], []⟩ where
  pending := by simp [Awaits]
  keys := by simp
  dialing := by simp
  withdrawn := by simp
  connected := by simp

theorem Held.call {s : Telephony} (h : Held s) {caller : Caller}
    (hnew : ∀ greeting, .registered id greeting ∉ s.history) : Held (s.call config caller id) := by
  unfold Telephony.call
  split
  case isTrue => exact h
  case isFalse =>
    refine ⟨fun other said => ?_, fun key hkey => ?_, fun other hother => ?_, fun other hother => ?_,
      fun other said hother => ?_⟩
    · rw [Dictionary.lookup_assign]
      split
      case isTrue hsame =>
        obtain rfl := text_inj.1 hsame
        constructor
        · intro heq
          obtain rfl := Option.some.inj heq
          refine ⟨by simp, fun hmem => ?_, fun said hmem => ?_⟩
          · obtain ⟨greeting, hold⟩ := h.withdrawn other (by simpa using hmem)
            exact hnew greeting hold
          · obtain ⟨greeting, hold⟩ := h.connected other said (by simpa using hmem)
            exact hnew greeting hold
        · rintro ⟨hmem, -⟩
          have hlast : said = callGreeting config caller.greeting := by
            simpa [hnew] using hmem
          rw [hlast]
      case isFalse hother =>
        have hne : other ≠ id := fun heq => hother (congrArg _ heq)
        rw [h.pending]
        simp [Awaits, hne]
    · rw [Dictionary.lookup_assign] at hkey
      split at hkey
      case isTrue hsame => exact ⟨id, hsame⟩
      case isFalse => exact h.keys key hkey
    · rcases List.mem_append.1 hother with hold | hlast
      · obtain ⟨greeting, hgreeting⟩ := h.dialing other hold
        exact ⟨greeting, List.mem_append_left _ hgreeting⟩
      · obtain rfl := List.mem_singleton.1 hlast
        exact ⟨_, List.mem_append_right _ (List.mem_singleton_self _)⟩
    · obtain ⟨greeting, hgreeting⟩ := h.withdrawn other (by simpa using hother)
      exact ⟨greeting, List.mem_append_left _ hgreeting⟩
    · obtain ⟨greeting, hgreeting⟩ := h.connected other said (by simpa using hother)
      exact ⟨greeting, List.mem_append_left _ hgreeting⟩

theorem Held.dialed {s : Telephony} (h : Held s) (hid : id ∈ s.dialing) (how : Dialed) :
    Held (s.dialed id how) := by
  have hdialing : ∀ other ∈ s.dialing.erase id, ∃ greeting, .registered other greeting ∈ s.history :=
    fun other hother => h.dialing other (List.mem_of_mem_erase hother)
  cases how with
  | placed | abandoned => exact ⟨h.pending, h.keys, hdialing, h.withdrawn, h.connected⟩
  | raised =>
      refine ⟨fun other said => ?_, fun key hkey => ?_, fun other hother => ?_,
        fun other hother => ?_, fun other said hother => ?_⟩
      · rw [Telephony.dialed, Dictionary.lookup_pop]
        split
        case isTrue hsame => simp [Awaits, text_inj.1 hsame]
        case isFalse hother =>
          have hne : other ≠ id := fun heq => hother (congrArg _ heq)
          rw [h.pending]
          simp [Awaits, hne]
      · rw [Telephony.dialed, Dictionary.lookup_pop] at hkey
        split at hkey
        case isTrue => exact absurd rfl hkey
        case isFalse => exact h.keys key hkey
      · obtain ⟨greeting, hgreeting⟩ := hdialing other hother
        exact ⟨greeting, List.mem_append_left _ hgreeting⟩
      · rcases List.mem_append.1 hother with hold | hlast
        · obtain ⟨greeting, hgreeting⟩ := h.withdrawn other hold
          exact ⟨greeting, List.mem_append_left _ hgreeting⟩
        · obtain rfl : other = id := by simpa using hlast
          obtain ⟨greeting, hgreeting⟩ := h.dialing other hid
          exact ⟨greeting, List.mem_append_left _ hgreeting⟩
      · obtain ⟨greeting, hgreeting⟩ := h.connected other said
          (by simpa [Telephony.dialed] using hother)
        exact ⟨greeting, List.mem_append_left _ hgreeting⟩

theorem text_eq_formatCallId {payload : List UInt8} :
    id.text = formatCallId payload ↔ payload = id.bytes := by
  rw [← formatCallId_bytes, formatCallId_injective.eq_iff, eq_comm]

theorem Awaits.of_snoc {moment : Moment} (h : Awaits (history ++ [moment]) id greeting)
    (hother : moment ≠ .registered id greeting) : Awaits history id greeting := by
  obtain ⟨hregistered, hwithdrawn, hconnected⟩ := h
  refine ⟨?_, fun hmem => hwithdrawn (List.mem_append_left _ hmem),
    fun said hmem => hconnected said (List.mem_append_left _ hmem)⟩
  simpa [hother.symm] using hregistered

theorem Held.connect {s : Telephony} (h : Held s) (payload : List UInt8) (said : Option String) :
    Held { s with
      pendingGreetings := Dictionary.pop s.pendingGreetings (formatCallId payload)
      history := s.history ++
        [.connected payload (s.pendingGreetings.lookup (formatCallId payload)).isSome said] } := by
  refine ⟨fun other greeting => ?_, fun key hkey => ?_, fun other hother => ?_,
    fun other hother => ?_, fun other said' hother => ?_⟩
  · rw [Dictionary.lookup_pop]
    split
    case isTrue hsame =>
      refine ⟨fun hnone => (by cases hnone), fun hawaits => ?_⟩
      obtain rfl := text_eq_formatCallId.1 hsame
      have hfound := (h.pending other greeting).2 (hawaits.of_snoc (by simp))
      rw [← hsame, hfound] at hawaits
      exact absurd (List.mem_append_right _ (List.mem_singleton_self _)) (hawaits.2.2 said)
    case isFalse hother =>
      have hne : payload ≠ other.bytes := fun heq => hother (text_eq_formatCallId.2 heq)
      rw [h.pending]
      simp [Awaits, hne.symm]
  · rw [Dictionary.lookup_pop] at hkey
    split at hkey
    case isTrue => exact absurd rfl hkey
    case isFalse => exact h.keys key hkey
  · obtain ⟨greeting, hgreeting⟩ := h.dialing other hother
    exact ⟨greeting, List.mem_append_left _ hgreeting⟩
  · obtain ⟨greeting, hgreeting⟩ := h.withdrawn other (by simpa using hother)
    exact ⟨greeting, List.mem_append_left _ hgreeting⟩
  · rcases List.mem_append.1 hother with hold | hlast
    · obtain ⟨greeting, hgreeting⟩ := h.connected other said' hold
      exact ⟨greeting, List.mem_append_left _ hgreeting⟩
    · simp only [List.mem_singleton, Moment.connected.injEq] at hlast
      obtain ⟨rfl, hfound, -⟩ := hlast
      rw [formatCallId_bytes] at hfound
      obtain ⟨greeting, hlookup⟩ := Option.isSome_iff_exists.1 hfound.symm
      exact ⟨greeting, List.mem_append_left _ ((h.pending other greeting).1 hlookup).1⟩

/-- A connection takes the greeting that is due to it. -/
theorem Held.due {s : Telephony} (h : Held s) (config : OutboundConfig) (payload : List UInt8) :
    Due config s.history payload (s.pendingGreetings.lookup (formatCallId payload)).isSome
      (connectionGreeting config
        ((s.pendingGreetings.lookup (formatCallId payload)).getD config.greeting)) := by
  cases hfound : s.pendingGreetings.lookup (formatCallId payload) with
  | some greeting =>
      obtain ⟨id, hid⟩ := h.keys (formatCallId payload) (by simp [hfound])
      rw [hid] at hfound
      exact ⟨id, greeting, text_eq_formatCallId.1 hid.symm, (h.pending id greeting).1 hfound, rfl⟩
  | none =>
      refine ⟨fun id greeting hpayload hawaits => ?_, ?_⟩
      · rw [hpayload, formatCallId_bytes, (h.pending id greeting).2 hawaits] at hfound
        cases hfound
      · cases hgreeting : config.greeting <;> simp [connectionGreeting, hgreeting]

/-- A greeting is said to no more than one connection. -/
theorem greeted_once (h : Greeted config history) {payload : List UInt8}
    {said : Option String}
    (hsplit : history = before ++ .connected payload true said :: after) :
    ∀ other, .connected payload true other ∉ before := by
  obtain ⟨id, greeting, rfl, hawaits, -⟩ := h before after payload true said hsplit
  exact hawaits.2.2

/-- In every order of calls, of answers to them and of connections, where no id is drawn twice:
a connection is taken for an outbound call exactly if a greeting awaits its id, says that
greeting, and any other connection says the greeting of the configuration. So a greeting is
said at most once, and what is pending at any time is what still awaits its call. -/
theorem greetings_due {s : Telephony}
    (h : (Telephony.system config).ReachableWithin Telephony.Fresh s) :
    Greeted config s.history ∧
      (∀ before after payload said, s.history = before ++ .connected payload true said :: after →
        ∀ other, .connected payload true other ∉ before) ∧
      ∀ id greeting, s.pendingGreetings.lookup id.text = some greeting ↔
        Awaits s.history id greeting := by
  have hinvariant : Held s ∧ Greeted config s.history := by
    refine h.invariant (I := fun s => Held s ∧ Greeted config s.history) ?_ ?_
    · rintro s rfl
      exact ⟨.fresh, fun before after _ _ _ hsplit => by simp at hsplit⟩
    · intro s act t ⟨hheld, hgreeted⟩ hfresh hstep
      cases act with
      | call caller id =>
          obtain rfl := Option.some.inj hstep
          refine ⟨hheld.call hfresh, ?_⟩
          unfold Telephony.call
          split
          · exact hgreeted
          · exact hgreeted.snoc (by simp)
      | dialed id how =>
          by_cases hid : id ∈ s.dialing
          · obtain rfl := Option.some.inj ((if_pos hid).symm.trans hstep)
            refine ⟨hheld.dialed hid how, ?_⟩
            cases how with
            | placed | abandoned => exact hgreeted
            | raised => exact hgreeted.snoc (by simp)
          · cases (if_neg hid).symm.trans hstep
      | handle frame =>
          obtain rfl := Option.some.inj hstep
          cases frame with
          | none => exact ⟨hheld, hgreeted⟩
          | some frame =>
              unfold Telephony.handle
              dsimp only
              split
              · exact ⟨hheld, hgreeted⟩
              · refine ⟨hheld.connect frame.payload _, hgreeted.snoc ?_⟩
                rintro payload outbound said ⟨⟩
                exact hheld.due config frame.payload
  exact ⟨hinvariant.2, fun _ _ _ _ hsplit => greeted_once hinvariant.2 hsplit,
    hinvariant.1.pending⟩

/-- A voice channel that dials one number. -/
def oneNumber : OutboundConfig := ⟨⟨8101, "trunk", none, none, some "100"⟩, some "hello"⟩

/-- A call that is answered before its `originate` fails, and then answered once more. -/
def answeredTwice : List Telephony.Act :=
  [.call (.send "wake up") 7, .handle (some ⟨1, Uuid.bytes 7⟩), .dialed 7 .raised,
    .handle (some ⟨1, Uuid.bytes 7⟩)]

theorem greetings_due_answeredTwice : ∃ s,
    (Telephony.system oneNumber).exec ⟨[], [], []⟩ answeredTwice = some s ∧
    s.history = [.registered 7 (some "wake up"), .connected (Uuid.bytes 7) true (some "wake up"),
      .withdrawn 7, .connected (Uuid.bytes 7) false (some "hello")] ∧
    Greeted oneNumber s.history := by
  have h : (Telephony.system oneNumber).exec ⟨[], [], []⟩ answeredTwice = some _ := rfl
  refine ⟨_, h, by rfl, ?_⟩
  have hmeets : (Telephony.system oneNumber).Meets Telephony.Fresh ⟨[], [], []⟩ answeredTwice := by
    refine ⟨fun _ hmem => by simp at hmem, fun t _ => ⟨trivial, fun t _ => ⟨trivial, fun t _ => ?_⟩⟩⟩
    exact ⟨trivial, fun _ _ => trivial⟩
  exact (greetings_due ⟨_, _, rfl, Transition.System.run_of_exec h hmeets⟩).1

end Greetings

end GraphAgent.Voice
