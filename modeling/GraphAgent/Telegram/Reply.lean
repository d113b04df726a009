import GraphAgent.Telegram.PlainText
import GraphAgent.Telegram.Split
import GraphAgent.Transports.Consumers
import Mathlib.Algebra.Order.Field.Rat

/-!
# The reply to a message

`_stream_reply`: a silent placeholder follows the text of the run while it is written, and
what stays in the chat is the final text, the files and the approval request. Telegram may
refuse any of the requests, and its answers, like the readings of the clock, are arbitrary.
-/

namespace GraphAgent.Telegram

section Previews

/-- `TELEGRAM_MAX_CHARS` -/
def telegramMaxChars : Nat := 4096

/-- `_clip_preview` -/
def clipPreview (text : List Char) : List Char :=
  if text.length ≤ telegramMaxChars then text
  else '…' :: text.drop (text.length - (telegramMaxChars - 1))

/-- `_preview` -/
def preview (text : List Char) (status : Option (List Char)) : List Char :=
  let status := status.getD []
  clipPreview
    (if status ≠ [] then if text ≠ [] then text ++ "\n\n".toList ++ status else status else text)

/-- `WORKING_STATUS.format(name=name)` -/
def workingStatus (name : String) : List Char := "Working: ".toList ++ name.toList ++ ['…']

/-- The text of a reply for an `ErrorEvent`. -/
def errorPart (message : String) : List Char := "\n[error] ".toList ++ message.toList

end Previews

section Indented

/-- The line break before an item at the given depth. -/
def newline (depth : Nat) : String := "\n" ++ String.ofList (List.replicate (2 * depth) ' ')

mutual
/-- `json.dumps(value, ensure_ascii=False, indent=2)`, at a depth of nesting. -/
def dumpsIndented (depth : Nat) : Value → String
  | .arr (item :: items) =>
      "[" ++ newline (depth + 1) ++
        ("," ++ newline (depth + 1)).intercalate (indentedItems (depth + 1) (item :: items)) ++
        newline depth ++ "]"
  | .obj (field :: fields) =>
      "\x7b" ++ newline (depth + 1) ++
        ("," ++ newline (depth + 1)).intercalate (indentedFields (depth + 1) (field :: fields)) ++
        newline depth ++ "\x7d"
  | value => Json.dumps ⟨false, false⟩ value

def indentedItems (depth : Nat) : List Value → List String
  | [] => []
  | item :: items => dumpsIndented depth item :: indentedItems depth items

def indentedFields (depth : Nat) : List (String × Value) → List String
  | [] => []
  | (key, value) :: fields =>
      (Json.quote false key ++ ": " ++ dumpsIndented depth value) :: indentedFields depth fields
end

end Indented

section Requests

/-- `APPROVE_PREFIX` -/
def approvePrefix : String := "approve:"

/-- `DENY_PREFIX` -/
def denyPrefix : String := "deny:"

/-- A button of an `InlineKeyboardMarkup`. -/
structure Button where
  text : String
  callbackData : String
  deriving DecidableEq, Repr

/-- What the bot asks of Telegram in the chat. A placeholder is sent with
`disable_notification`; edits and deletions name the message by its id. -/
inductive Request where
  | placeholder (text : List Char)
  | edit (messageId : Nat) (text : List Char)
  | delete (messageId : Nat)
  | document (path : String) (caption : Option String)
  | html (text : List Char)
  | plain (text : List Char)
  | approval (html : Bool) (text : List Char) (keyboard : List Button)
  deriving DecidableEq, Repr

/-- What Telegram answers: the request is granted, `TelegramBadRequest`, `TelegramRetryAfter`,
or another exception. -/
inductive Answer where
  | granted
  | badRequest
  | retryAfter
  | failed
  deriving DecidableEq, Repr

/-- The world of a reply: Telegram's answer to the nth request, and the nth reading of
`time.monotonic()`, in seconds. -/
structure World where
  answer : Nat → Answer
  clock : Nat → Rat

end Requests

section Streaming

/-- `STREAM_EDIT_INTERVAL` -/
def streamEditInterval : Rat := 1

/-- `STREAM_EDIT_MAX_INTERVAL` -/
def streamEditMaxInterval : Rat := 8

/-- The variables of `_stream_reply`, with the requests that were made and their answers. A
message has the number of the request that sent it as its id. -/
structure ChatReply where
  requests : List (Request × Answer)
  readings : Nat
  placeholder : Option Nat
  textParts : List (List Char)
  status : Option (List Char)
  approval : Option ApprovalPayload
  cancelled : Bool
  lastEdit : Rat
  interval : Rat

/-- The variables before the first event. -/
def freshChatReply : ChatReply where
  requests := []
  readings := 0
  placeholder := none
  textParts := []
  status := none
  approval := none
  cancelled := false
  lastEdit := 0
  interval := streamEditInterval

namespace ChatReply

variable (world : World) (s : ChatReply)

/-- The answer to the next request. -/
def answered : Answer := world.answer s.requests.length

/-- Make a request. -/
def ask (request : Request) : ChatReply :=
  { s with requests := s.requests ++ [(request, s.answered world)] }

/-- `last_edit = time.monotonic()` -/
def stamp : ChatReply := { s with lastEdit := world.clock s.readings, readings := s.readings + 1 }

/-- The text of the current preview. -/
def current : List Char := preview s.textParts.flatten s.status

/-- The call of `edit_message_text`. -/
def edit (messageId : Nat) : Except ChatReply ChatReply :=
  let after := s.ask world (.edit messageId s.current)
  match s.answered world with
  | .granted => .ok ({ after with interval := streamEditInterval }.stamp world)
  | .retryAfter =>
      .ok ({ after with interval := min (s.interval * 2) streamEditMaxInterval }.stamp world)
  | .badRequest => .ok (after.stamp world)
  | .failed => .error after

/-- `show`, which raises in the state of an error. -/
def showPreview (force : Bool) : Except ChatReply ChatReply :=
  if s.current = [] then .ok s
  else
    match s.placeholder with
    | none =>
        let after := s.ask world (.placeholder s.current)
        match s.answered world with
        | .granted => .ok ({ after with placeholder := some s.requests.length }.stamp world)
        | _ => .error after
    | some messageId =>
        if force then s.edit world messageId
        else
          let read := { s with readings := s.readings + 1 }
          if world.clock s.readings - s.lastEdit < s.interval then .ok read
          else read.edit world messageId

/-- One event that is not a `CancelledEvent`. -/
def on : Event → Except ChatReply ChatReply
  | .token delta =>
      { s with textParts := s.textParts ++ [delta.toList], status := none }.showPreview world false
  | .toolCall _ name _ => { s with status := some (workingStatus name) }.showPreview world true
  | .error message _ =>
      .ok { s with textParts := s.textParts ++ [errorPart message] }
  | .file path caption =>
      let after := s.ask world (.document path caption)
      if s.answered world = .granted then .ok after else .error after
  | .approvalRequest approvalId toolCallId name args =>
      .ok { s with approval := some ⟨approvalId, toolCallId, name, args⟩ }
  | _ => .ok s

/-- The loop over the stream, which may raise after its last event. -/
def read (raises : Bool) (s : ChatReply) : List Event → Except ChatReply ChatReply
  | [] => if raises then .error s else .ok s
  | .cancelled _ :: _ => .ok { s with cancelled := true }
  | event :: events => (s.on world event).bind fun t => t.read raises events

end ChatReply

end Streaming

section Closing

namespace ChatReply

variable (py : Classes) (world : World) (s : ChatReply)

/-- `_delete_message` -/
def deleteMessage (messageId : Nat) : Except ChatReply ChatReply :=
  let after := s.ask world (.delete messageId)
  match s.answered world with
  | .granted | .badRequest => .ok after
  | _ => .error after

/-- `_delete_message`, where there is a placeholder. -/
def deletePlaceholder : Except ChatReply ChatReply :=
  match s.placeholder with
  | some messageId => s.deleteMessage world messageId
  | none => .ok s

/-- A message that is sent as HTML and, where Telegram calls that a bad request, once more. -/
def sendTwice (first second : Request) : Except ChatReply ChatReply :=
  let after := s.ask world first
  match s.answered world with
  | .granted => .ok after
  | .badRequest =>
      let again := after.ask world second
      if after.answered world = .granted then .ok again else .error again
  | _ => .error after

/-- The loop of `send_telegram_html` over the chunks. -/
def sendChunks (s : ChatReply) : List (List Char) → Except ChatReply ChatReply
  | [] => .ok s
  | chunk :: chunks =>
      (s.sendTwice world (.html chunk) (.plain (htmlToPlain chunk))).bind fun t =>
        t.sendChunks chunks

/-- The chunks of `send_telegram_html`, where the split ends within the given rounds. -/
def chunksOf (rounds : Nat) (text : List Char) : Option (List (List Char)) :=
  splitTelegramHtml 4096 rounds (markdownToTelegramHtml py text)

/-- The caption of an approval request. -/
def approvalCaption (approval : ApprovalPayload) : List Char :=
  "<b>Approval required:</b> ".toList ++ escapeHtml approval.name.toList ++ "\n<pre>".toList ++
    escapeHtml (dumpsIndented 0 (.obj approval.args)).toList ++ "</pre>".toList

/-- The keyboard of an approval request. -/
def approvalKeyboard (approval : ApprovalPayload) : List Button :=
  [⟨"Approve", approvePrefix ++ approval.approvalId⟩, ⟨"Deny", denyPrefix ++ approval.approvalId⟩]

/-- `_send_approval_request` -/
def sendApprovalRequest (approval : ApprovalPayload) : Except ChatReply ChatReply :=
  let send (html : Bool) : Request :=
    .approval html (approvalCaption approval) (approvalKeyboard approval)
  s.sendTwice world (send true) (send false)

/-- The approval request after the text, where the stream asked for one. -/
def close (approval : Option ApprovalPayload) : Except ChatReply ChatReply :=
  match approval with
  | some approval => s.sendApprovalRequest world approval
  | none => .ok s

/-- `final_text` -/
def finalText : List Char := Text.stripChars s.textParts.flatten

/-- What `_stream_reply` does after the stream, unless the split never ends. -/
def finish (rounds : Nat) : Option (Except ChatReply ChatReply) :=
  match s.deletePlaceholder world with
  | .error t => some (.error t)
  | .ok t =>
      if s.cancelled then some (.ok t)
      else if s.finalText = [] then some (t.close world s.approval)
      else
        (chunksOf py rounds s.finalText).map fun chunks =>
          (t.sendChunks world chunks).bind fun u => u.close world s.approval

end ChatReply

/-- `_stream_reply`. The split of the final text may take the given rounds. -/
def streamReply (py : Classes) (world : World) (rounds : Nat) (raises : Bool)
    (events : List Event) : Option (Except ChatReply ChatReply) :=
  match freshChatReply.read world raises events with
  | .error s => some (.error s)
  | .ok s => s.finish py world rounds

end Closing

section Steps

/-- The event ends the loop over the stream. -/
def isCancelled : Event → Bool
  | .cancelled _ => true
  | _ => false

/-- The event makes `show` edit the placeholder at once. -/
def isToolCall : Event → Bool
  | .toolCall .. => true
  | _ => false

/-- The event sends a document. -/
def isFile : Event → Bool
  | .file .. => true
  | _ => false

/-- The events that the loop takes, but for a `CancelledEvent` that ends it. -/
def taken (events : List Event) : List Event := events.takeWhile fun event => !isCancelled event

namespace ChatReply

variable {world : World} {s t : ChatReply} {force raises : Bool} {events done : List Event}

/-- An edit is due: a tool has been called, or the clock has been read and the interval is over. -/
def Due (world : World) (force : Bool) (s : ChatReply) (readings : Nat) : Prop :=
  force = true ∧ readings = s.readings ∨
    readings = s.readings + 1 ∧ s.interval ≤ world.clock s.readings - s.lastEdit

/-- The requests of `show`, with the number of times that the clock has been read before. -/
inductive Drafts (world : World) (force : Bool) (s : ChatReply) : Nat → Request → Prop
  | placeholder (new : s.placeholder = none) :
      Drafts world force s s.readings (.placeholder s.current)
  | edit (messageId readings : Nat) (old : s.placeholder = some messageId)
      (due : s.Due world force readings) : Drafts world force s readings (.edit messageId s.current)

/-- What `show` may do: nothing but look at the clock, send the placeholder, or edit it. -/
inductive Shows (world : World) (force : Bool) (s : ChatReply) : ChatReply → Prop
  | still (readings : Nat) (later : s.readings ≤ readings) : Shows world force s { s with readings }
  | placed (new : s.placeholder = none) (text : s.current ≠ [])
      (granted : s.answered world = .granted) :
      Shows world force s
        ({ s.ask world (.placeholder s.current) with
            placeholder := some s.requests.length }.stamp world)
  | edited (messageId readings : Nat) (interval : Rat) (old : s.placeholder = some messageId)
      (text : s.current ≠ []) (bounds : interval = s.interval ∨ interval = streamEditInterval ∨
        interval = min (s.interval * 2) streamEditMaxInterval)
      (due : s.Due world force readings) :
      Shows world force s
        ({ s.ask world (.edit messageId s.current) with readings, interval }.stamp world)

/-- Where `edit_message_text` raises, it has made its request. -/
theorem edit_cases (world : World) (s : ChatReply) (messageId : Nat) :
    (∃ interval, s.edit world messageId =
        .ok ({ s.ask world (.edit messageId s.current) with interval }.stamp world) ∧
      (interval = s.interval ∨ interval = streamEditInterval ∨
        interval = min (s.interval * 2) streamEditMaxInterval)) ∨
      s.answered world ≠ .granted ∧
        s.edit world messageId = .error (s.ask world (.edit messageId s.current)) := by
  unfold edit
  dsimp only
  cases s.answered world with
  | granted => exact .inl ⟨_, rfl, .inr (.inl rfl)⟩
  | badRequest => exact .inl ⟨_, rfl, .inl rfl⟩
  | retryAfter => exact .inl ⟨_, rfl, .inr (.inr rfl)⟩
  | failed => exact .inr ⟨by simp, rfl⟩

/-- What `show` does where it does not raise, and its request where it raises. -/
theorem showPreview_cases (world : World) (s : ChatReply) (force : Bool) :
    (∃ t, s.showPreview world force = .ok t ∧ Shows world force s t) ∨
      s.current ≠ [] ∧ s.answered world ≠ .granted ∧ ∃ readings request,
        s.Drafts world force readings request ∧
        s.showPreview world force = .error { s.ask world request with readings } := by
  unfold showPreview
  split
  case isTrue => exact .inl ⟨s, rfl, .still s.readings le_rfl⟩
  case isFalse htext =>
    split
    case h_1 hnew =>
      cases hanswer : s.answered world with
      | granted => exact .inl ⟨_, rfl, .placed hnew htext hanswer⟩
      | badRequest | retryAfter | failed =>
          exact .inr ⟨htext, by simp, s.readings, _, .placeholder hnew, rfl⟩
    case h_2 messageId hold =>
      split
      case isTrue hforce =>
        rcases edit_cases world s messageId with
          ⟨interval, hedit, hbounds⟩ | ⟨hrefused, hedit⟩
        · exact .inl ⟨_, hedit, .edited messageId s.readings interval hold htext hbounds
            (.inl ⟨hforce, rfl⟩)⟩
        · exact .inr ⟨htext, hrefused, s.readings, _,
            .edit messageId s.readings hold (.inl ⟨hforce, rfl⟩), hedit⟩
      case isFalse =>
        dsimp only
        split
        case isTrue => exact .inl ⟨_, rfl, .still _ (Nat.le_succ _)⟩
        case isFalse hlate =>
          rcases edit_cases world { s with readings := s.readings + 1 } messageId with
            ⟨interval, hedit, hbounds⟩ | ⟨hrefused, hedit⟩
          · exact .inl ⟨_, hedit, .edited messageId (s.readings + 1) interval hold htext hbounds
              (.inr ⟨rfl, not_lt.1 hlate⟩)⟩
          · exact .inr ⟨htext, hrefused, s.readings + 1, _,
              .edit messageId (s.readings + 1) hold (.inr ⟨rfl, not_lt.1 hlate⟩), hedit⟩

/-- The variables after an event has been taken note of, before anything is sent. -/
def note (s : ChatReply) : Event → ChatReply
  | .token delta => { s with textParts := s.textParts ++ [delta.toList], status := none }
  | .toolCall _ name _ => { s with status := some (workingStatus name) }
  | .error message _ => { s with textParts := s.textParts ++ [errorPart message] }
  | .approvalRequest approvalId toolCallId name args =>
      { s with approval := some ⟨approvalId, toolCallId, name, args⟩ }
  | _ => s

/-- What the loop may do with an event. -/
inductive Reads (world : World) (s : ChatReply) : Event → ChatReply → Prop
  | shown {event : Event} {t : ChatReply} (notFile : isFile event = false)
      (shows : (s.note event).Shows world (isToolCall event) t) : Reads world s event t
  | sent (path : String) (caption : Option String) (granted : s.answered world = .granted) :
      Reads world s (.file path caption) (s.ask world (.document path caption))

/-- How the loop may raise at an event: the request that it makes is not granted. -/
inductive Fails (world : World) (s : ChatReply) : Event → ChatReply → Prop
  | draft {event : Event} (readings : Nat) (request : Request) (text : (s.note event).current ≠ [])
      (refused : s.answered world ≠ .granted)
      (form : (s.note event).Drafts world (isToolCall event) readings request) :
      Fails world s event { (s.note event).ask world request with readings }
  | document (path : String) (caption : Option String) (refused : s.answered world ≠ .granted) :
      Fails world s (.file path caption) (s.ask world (.document path caption))

theorem on_cases (world : World) (s : ChatReply) (event : Event) :
    (∃ t, s.on world event = .ok t ∧ Reads world s event t) ∨
      ∃ t, s.on world event = .error t ∧ Fails world s event t := by
  have hshow : ∀ force, isToolCall event = force →
      isFile event = false →
      (∃ t, (s.note event).showPreview world force = .ok t ∧ Reads world s event t) ∨
        ∃ t, (s.note event).showPreview world force = .error t ∧ Fails world s event t := by
    rintro force rfl hfile
    rcases showPreview_cases world (s.note event) (isToolCall event) with
      ⟨t, ht, hshows⟩ | ⟨htext, hrefused, readings, request, hform, ht⟩
    · exact .inl ⟨t, ht, .shown hfile hshows⟩
    · have hnote : (s.note event).answered world = s.answered world := by cases event <;> rfl
      exact .inr ⟨_, ht, .draft readings request htext (hnote ▸ hrefused) hform⟩
  have hstill : isFile event = false → Reads world s event (s.note event) :=
    fun hfile => .shown hfile (.still _ le_rfl)
  cases event with
  | token delta => exact hshow false rfl rfl
  | toolCall id name args => exact hshow true rfl rfl
  | error message code => exact .inl ⟨_, rfl, hstill rfl⟩
  | metrics => exact .inl ⟨_, rfl, hstill rfl⟩
  | approvalRequest approvalId toolCallId name args => exact .inl ⟨_, rfl, hstill rfl⟩
  | toolResult id name result isError => exact .inl ⟨_, rfl, hstill rfl⟩
  | done sessionId finalText => exact .inl ⟨_, rfl, hstill rfl⟩
  | cancelled sessionId => exact .inl ⟨_, rfl, hstill rfl⟩
  | file path caption =>
      by_cases hgranted : s.answered world = .granted
      · exact .inl ⟨_, if_pos hgranted, .sent path caption hgranted⟩
      · exact .inr ⟨_, if_neg hgranted, .document path caption hgranted⟩

/-- The invariant rule of the loop: what every event keeps holds of the events that were taken,
whether the loop ends or raises. -/
theorem read_induction (world : World) (raises : Bool) (events : List Event)
    {I : List Event → ChatReply → Prop} (hs : I done s)
    (hreads : ∀ done s t event, isCancelled event = false → I done s → Reads world s event t →
      I (done ++ [event]) t) :
    (∀ t, s.read world raises events = .ok t → ∃ u, I (done ++ taken events) u ∧
      t = if events.any isCancelled then { u with cancelled := true } else u) ∧
    ∀ t, s.read world raises events = .error t → ∃ front u, front <+: taken events ∧
      I (done ++ front) u ∧ (raises = true ∧ t = u ∨
        ∃ event, front ++ [event] <+: taken events ∧ Fails world u event t) := by
  induction events generalizing done s with
  | nil =>
      cases raises with
      | false =>
          refine ⟨fun t h => ⟨s, by simpa [taken] using hs, ?_⟩, fun t h => ?_⟩
          · simpa [read] using h.symm
          · simp [read] at h
      | true =>
          refine ⟨fun t h => ?_,
            fun t h => ⟨[], s, List.nil_prefix, by simpa using hs, .inl ⟨rfl, ?_⟩⟩⟩
          · simp [read] at h
          · simpa [read] using h.symm
  | cons event events ih =>
      by_cases hcancelled : isCancelled event = true
      · obtain ⟨sessionId, rfl⟩ : ∃ sessionId, event = .cancelled sessionId := by
          cases event <;> simp_all [isCancelled]
        refine ⟨fun t h => ⟨s, by simpa [taken, isCancelled] using hs, ?_⟩, fun t h => ?_⟩
        · simpa [read, isCancelled] using h.symm
        · simp [read] at h
      · have hgoing : isCancelled event = false := by simpa using hcancelled
        have hread : s.read world raises (event :: events) =
            (s.on world event).bind fun t => t.read world raises events := by
          cases event <;> first | rfl | cases hgoing
        have htaken : taken (event :: events) = event :: taken events := by
          simp [taken, hgoing]
        have happend : ∀ front : List Event, done ++ event :: front = done ++ [event] ++ front := by
          simp
        rw [hread, htaken, List.any_cons, hgoing, Bool.false_or]
        rcases on_cases world s event with ⟨t, hok, hreadsEvent⟩ | ⟨t, hraised, hfails⟩
        · rw [hok]
          obtain ⟨hends, hraises⟩ := ih (hreads done s t event hgoing hs hreadsEvent)
          refine ⟨fun u hu => happend _ ▸ hends u hu, fun u hu => ?_⟩
          obtain ⟨front, v, hfront, hv, hform⟩ := hraises u hu
          refine ⟨event :: front, v, List.cons_prefix_cons.2 ⟨rfl, hfront⟩, happend _ ▸ hv, ?_⟩
          rcases hform with hraises | ⟨next, hnext, hfails⟩
          · exact .inl hraises
          · exact .inr ⟨next, List.cons_prefix_cons.2 ⟨rfl, hnext⟩, hfails⟩
        · rw [hraised]
          refine ⟨fun u hu => (by cases hu), fun u hu => ?_⟩
          obtain rfl : t = u := Except.error.inj hu
          refine ⟨[], s, List.nil_prefix, by simpa using hs, .inr ⟨event, ?_, hfails⟩⟩
          exact List.cons_prefix_cons.2 ⟨rfl, List.nil_prefix⟩

end ChatReply

end Steps

section Following

/-- What an event adds to the text of the reply. -/
def replyPart : Event → List Char
  | .token delta => delta.toList
  | .error message _ => errorPart message
  | _ => []

/-- The text of the reply after the events. -/
def replyText (events : List Event) : List Char := events.flatMap replyPart

/-- The status line after the events: the tool that was called since the last token. -/
def statusAfter (events : List Event) : Option (List Char) :=
  events.foldl (fun status event =>
    match event with
    | .token _ => none
    | .toolCall _ name _ => some (workingStatus name)
    | _ => status) none

/-- The preview of a reply after the events. -/
def previewAfter (events : List Event) : List Char :=
  preview (replyText events) (statusAfter events)

/-- The files among the events, as they are to be sent. -/
def documents (events : List Event) : List Request :=
  events.filterMap fun event =>
    match event with
    | .file path caption => some (.document path caption)
    | _ => none

/-- The variables of the loop say what the events so far have been. -/
structure Follows (done : List Event) (s : ChatReply) : Prop where
  text : s.textParts.flatten = replyText done
  status : s.status = statusAfter done
  approval : s.approval = lastApproval done
  going : s.cancelled = false

namespace Follows

variable {world : World} {s t : ChatReply} {force : Bool} {event : Event} {done : List Event}

theorem fresh : Follows [] freshChatReply := ⟨rfl, rfl, rfl, rfl⟩

theorem note (h : Follows done s) (event : Event) : Follows (done ++ [event]) (s.note event) where
  text := by
    have hparts : (s.note event).textParts.flatten = s.textParts.flatten ++ replyPart event := by
      cases event <;> simp only [ChatReply.note, replyPart, List.flatten_append,
        List.flatten_singleton, List.append_nil]
    simp only [hparts, h.text, replyText, List.flatMap_append, List.flatMap_singleton]
  status := by
    rw [statusAfter, List.foldl_append, ← statusAfter, ← h.status]
    cases event <;> rfl
  approval := by
    rw [lastApproval, List.foldl_append, ← lastApproval, ← h.approval]
    cases event <;> rfl
  going := by
    have hgoing := h.going
    cases event <;> exact hgoing

theorem current_eq (h : Follows done s) : s.current = previewAfter done := by
  rw [ChatReply.current, h.text, h.status, previewAfter]

theorem shows (h : Follows done s) (hshows : s.Shows world force t) : Follows done t := by
  cases hshows <;> exact ⟨h.text, h.status, h.approval, h.going⟩

theorem reads (h : Follows done s) (hreads : s.Reads world event t) :
    Follows (done ++ [event]) t := by
  cases hreads with
  | shown notFile hshows => exact (h.note event).shows hshows
  | sent path caption granted =>
      have hnote := h.note (.file path caption)
      exact ⟨hnote.text, hnote.status, hnote.approval, hnote.going⟩

end Follows

end Following

end GraphAgent.Telegram
