import GraphAgent.Library.Board
import GraphAgent.Telegram.Reply

/-!
# What a reply leaves in the chat

The chat as a board of messages: while a reply is streamed it shows the files and at most one
placeholder, and afterwards the files, the final text and the approval request.
-/

namespace GraphAgent.Telegram

section Chat

/-- The request is for a placeholder. -/
def isDraft : Request → Bool
  | .placeholder _ => true
  | _ => false

/-- What an answered request does to the chat. -/
def exchanged : Request × Answer → Board.Op Request
  | (.edit messageId text, .granted) => .replace messageId (.placeholder text)
  | (.delete messageId, .granted) => .remove messageId
  | (request, .granted) => .post request
  | _ => .idle

/-- The operations on the chat. -/
def chatOps (s : ChatReply) : List (Board.Op Request) := s.requests.map exchanged

/-- The placeholders that are in the chat. -/
def draftsShown (s : ChatReply) : List (Nat × Request) := Board.only isDraft (chatOps s)

/-- The other messages that are in the chat, in order. -/
def messagesShown (s : ChatReply) : List Request :=
  (Board.only (fun request => !isDraft request) (chatOps s)).map Prod.snd

variable {world : World} {s t : ChatReply} {request : Request} {messageId : Nat}
  {text : List Char} {answer : Answer}

theorem requests_ask (request : Request) (h : s.answered world = answer) :
    (s.ask world request).requests = s.requests ++ [(request, answer)] := by rw [ChatReply.ask, h]

theorem chatOps_snoc (h : t.requests = s.requests ++ [(request, answer)]) :
    chatOps t = chatOps s ++ [exchanged (request, answer)] := by
  simp [chatOps, h]

theorem length_chatOps (s : ChatReply) : (chatOps s).length = s.requests.length :=
  List.length_map _

/-- A request that is not granted leaves the chat as it is. -/
theorem exchanged_of_ne (h : answer ≠ .granted) : exchanged (request, answer) = .idle := by
  cases answer <;> first | exact absurd rfl h | (cases request <;> rfl)

theorem shown_of_refused (h : t.requests = s.requests ++ [(request, answer)])
    (hrefused : answer ≠ .granted) :
    draftsShown t = draftsShown s ∧ messagesShown t = messagesShown s := by
  simp [draftsShown, messagesShown, chatOps_snoc h, exchanged_of_ne hrefused]

/-- What is sent, other than the placeholder, is the last message. -/
theorem shown_of_sent (h : t.requests = s.requests ++ [(request, .granted)])
    (hpost : exchanged (request, .granted) = .post request) (hother : isDraft request = false) :
    draftsShown t = draftsShown s ∧ messagesShown t = messagesShown s ++ [request] := by
  rw [draftsShown, messagesShown, chatOps_snoc h, hpost]
  refine ⟨Board.only_post_of_not hother, ?_⟩
  rw [Board.only_post_of (p := fun request => !isDraft request) (by simp [hother]),
    List.map_append, List.map_singleton, messagesShown]

theorem shown_of_placed (h : t.requests = s.requests ++ [(.placeholder text, .granted)]) :
    draftsShown t = draftsShown s ++ [(s.requests.length, .placeholder text)] ∧
      messagesShown t = messagesShown s := by
  rw [draftsShown, messagesShown, chatOps_snoc h]
  exact ⟨(Board.only_post_of rfl).trans (by rw [length_chatOps, draftsShown]),
    congrArg _ (Board.only_post_of_not rfl)⟩

theorem shown_of_edited {old : Request} (hold : draftsShown s = [(messageId, old)])
    (h : t.requests = s.requests ++ [(.edit messageId text, .granted)]) :
    draftsShown t = [(messageId, .placeholder text)] ∧ messagesShown t = messagesShown s := by
  rw [draftsShown, messagesShown, chatOps_snoc h]
  exact ⟨Board.only_replace hold rfl, congrArg _ (Board.only_not_replace hold rfl)⟩

theorem shown_of_deleted {old : Request} (hold : draftsShown s = [(messageId, old)])
    (h : t.requests = s.requests ++ [(.delete messageId, .granted)]) :
    draftsShown t = [] ∧ messagesShown t = messagesShown s := by
  rw [draftsShown, messagesShown, chatOps_snoc h]
  exact ⟨Board.only_remove hold, congrArg _ (Board.only_not_remove hold)⟩

theorem documents_snoc {done : List Event} {event : Event} (h : isFile event = false) :
    documents (done ++ [event]) = documents done := by
  cases event with
  | file path caption => cases h
  | _ => simp [documents]

/-- While the stream is read the chat shows the files and at most one placeholder, the one that
the bot knows of. -/
structure Posted (done : List Event) (s : ChatReply) : Prop where
  draft : match s.placeholder with
    | none => draftsShown s = []
    | some messageId => ∃ text, draftsShown s = [(messageId, .placeholder text)]
  files : messagesShown s = documents done

theorem Posted.fresh : Posted [] freshChatReply := ⟨rfl, rfl⟩

theorem Posted.shows {done : List Event} {force : Bool} (h : Posted done s)
    (hshows : s.Shows world force t) : Posted done t := by
  cases hshows with
  | still readings => exact ⟨h.draft, h.files⟩
  | placed new _ granted =>
      have hnone : draftsShown s = [] := by simpa [new] using h.draft
      have hshown := shown_of_placed (requests_ask (.placeholder s.current) granted)
      exact ⟨⟨s.current, hshown.1.trans (by rw [hnone]; rfl)⟩, hshown.2.trans h.files⟩
  | edited messageId readings interval old _ bounds due =>
      obtain ⟨text, hone⟩ : ∃ text, draftsShown s = [(messageId, .placeholder text)] := by
        simpa [old] using h.draft
      have hdraft : ∀ u : ChatReply, u.placeholder = s.placeholder →
          (∃ text, draftsShown u = [(messageId, .placeholder text)]) →
          messagesShown u = messagesShown s → Posted done u := fun u hu hshown hfiles =>
        ⟨by rw [hu, old]; exact hshown, hfiles.trans h.files⟩
      by_cases granted : s.answered world = .granted
      · have hshown := shown_of_edited hone (requests_ask (.edit messageId s.current) granted)
        exact hdraft _ rfl ⟨s.current, hshown.1⟩ hshown.2
      · have hshown := shown_of_refused (requests_ask (.edit messageId s.current) rfl) granted
        exact hdraft _ rfl ⟨text, hshown.1.trans hone⟩ hshown.2

theorem Posted.reads {done : List Event} {event : Event} (h : Posted done s)
    (hreads : s.Reads world event t) : Posted (done ++ [event]) t := by
  cases hreads with
  | shown notFile hshows =>
      refine Posted.shows ⟨?_, ?_⟩ hshows
      · cases event <;> exact h.draft
      · have hfiles : messagesShown (s.note event) = documents done := by
          cases event <;> exact h.files
        rw [hfiles, documents_snoc notFile]
  | sent path caption granted =>
      have hshown := shown_of_sent (requests_ask (.document path caption) granted) rfl rfl
      refine ⟨?_, hshown.2.trans ?_⟩
      · have hdraft := h.draft
        rw [← hshown.1] at hdraft
        exact hdraft
      · simp [h.files, documents]

end Chat

section Closed

variable {world : World} {s t : ChatReply} {request : Request}

/-- The messages of the exchanges that Telegram granted. -/
def granted (exchanges : List (Request × Answer)) : List Request :=
  (exchanges.filter fun exchange => exchange.2 = .granted).map Prod.fst

theorem granted_append (earlier later : List (Request × Answer)) :
    granted (earlier ++ later) = granted earlier ++ granted later := by
  simp [granted]

/-- From one state to another, messages are sent and the placeholder is left as it is. -/
structure Sends (s t : ChatReply) (exchanges : List (Request × Answer)) : Prop where
  drafts : draftsShown t = draftsShown s
  messages : messagesShown t = messagesShown s ++ granted exchanges
  requests : t.requests = s.requests ++ exchanges

theorem Sends.refl (s : ChatReply) : Sends s s [] := ⟨rfl, by simp [granted], by simp⟩

theorem Sends.trans {u : ChatReply} {exchanges later : List (Request × Answer)}
    (h : Sends s t exchanges) (h' : Sends t u later) : Sends s u (exchanges ++ later) where
  drafts := h'.drafts.trans h.drafts
  messages := by rw [h'.messages, h.messages, granted_append, List.append_assoc]
  requests := by rw [h'.requests, h.requests, List.append_assoc]

/-- A message goes out once: as HTML, or as plain text right after Telegram has called the HTML
a bad request. -/
def Delivers (html plain : Request) (exchanges : List (Request × Answer)) : Prop :=
  exchanges = [(html, .granted)] ∨ exchanges = [(html, .badRequest), (plain, .granted)]

theorem sends_sendTwice {first second : Request} (hfirst : isDraft first = false)
    (hsecond : isDraft second = false)
    (hpost : ∀ request ∈ [first, second], exchanged (request, .granted) = .post request)
    (h : s.sendTwice world first second = .ok t) :
    ∃ exchanges, Delivers first second exchanges ∧ Sends s t exchanges := by
  unfold ChatReply.sendTwice at h
  dsimp only at h
  split at h
  case h_1 granted =>
    obtain rfl := Except.ok.inj h
    have hasked := requests_ask first granted
    have hshown := shown_of_sent hasked (hpost first (by simp)) hfirst
    exact ⟨_, .inl rfl, hshown.1, hshown.2, hasked⟩
  case h_2 bad =>
    split at h
    case isTrue granted =>
      obtain rfl := Except.ok.inj h
      have hrefused := requests_ask first bad
      have hbad := shown_of_refused hrefused (by simp)
      have hasked := requests_ask second granted
      have hshown := shown_of_sent hasked (hpost second (by simp)) hsecond
      refine ⟨_, .inr rfl, hshown.1.trans hbad.1, ?_, ?_⟩
      · rw [hshown.2, hbad.2]
        rfl
      · rw [hasked, hrefused, List.append_assoc]
        rfl
    case isFalse => cases h
  case h_3 => cases h

/-- The exchanges bring a chunk of the final text, as HTML or with the tags taken out. -/
def Brings (chunk : List Char) : List (Request × Answer) → Prop :=
  Delivers (.html chunk) (.plain (htmlToPlain chunk))

theorem sends_sendChunks {chunks : List (List Char)} (h : s.sendChunks world chunks = .ok t) :
    ∃ sent, List.Forall₂ Brings chunks sent ∧ Sends s t sent.flatten := by
  induction chunks generalizing s with
  | nil =>
      obtain rfl := Except.ok.inj h
      exact ⟨[], .nil, .refl s⟩
  | cons chunk chunks ih =>
      rw [ChatReply.sendChunks] at h
      cases hsent : s.sendTwice world (.html chunk) (.plain (htmlToPlain chunk)) with
      | error u =>
          rw [hsent] at h
          cases h
      | ok u =>
          rw [hsent] at h
          obtain ⟨sent, hall, hrest⟩ := ih h
          obtain ⟨exchanges, hbrings, hone⟩ := sends_sendTwice rfl rfl (by simp [exchanged]) hsent
          exact ⟨exchanges :: sent, .cons hbrings hall, hone.trans hrest⟩

/-- The exchanges ask for the approval, with a button for either answer. -/
def Asks (approval : ApprovalPayload) : List (Request × Answer) → Prop :=
  let message (html : Bool) : Request :=
    .approval html (ChatReply.approvalCaption approval) (ChatReply.approvalKeyboard approval)
  Delivers (message true) (message false)

/-- The exchanges ask for the approval, if there is one to ask for. -/
def AsksFor : Option ApprovalPayload → List (Request × Answer) → Prop
  | none, exchanges => exchanges = []
  | some approval, exchanges => Asks approval exchanges

/-- What is sent after the stream: the final text in chunks, then the approval request. -/
def Closes (py : Classes) (rounds : Nat) (events : List Event)
    (exchanges : List (Request × Answer)) : Prop :=
  ∃ texts requests, exchanges = texts.flatten ++ requests ∧
    (if Text.stripChars (replyText events) = [] then texts = []
      else ∃ chunks, ChatReply.chunksOf py rounds (Text.stripChars (replyText events)) =
        some chunks ∧ List.Forall₂ Brings chunks texts) ∧
    AsksFor (lastApproval events) requests

/-- Telegram did not grant one of the requests. -/
def Refused (s : ChatReply) : Prop := ∃ exchange ∈ s.requests, exchange.2 ≠ .granted

theorem refused_ask (h : s.answered world ≠ .granted) : Refused (s.ask world request) :=
  ⟨(request, s.answered world), by simp [ChatReply.ask], h⟩

theorem refused_sendTwice {first second : Request}
    (h : s.sendTwice world first second = .error t) : Refused t := by
  unfold ChatReply.sendTwice at h
  dsimp only at h
  split at h
  case h_1 => cases h
  case h_2 =>
    split at h
    case isTrue => cases h
    case isFalse hrefused =>
      obtain rfl := Except.error.inj h
      exact refused_ask hrefused
  case h_3 hgranted _ =>
    obtain rfl := Except.error.inj h
    exact refused_ask hgranted

theorem refused_sendChunks {chunks : List (List Char)}
    (h : s.sendChunks world chunks = .error t) : Refused t := by
  induction chunks generalizing s with
  | nil => cases h
  | cons chunk chunks ih =>
      rw [ChatReply.sendChunks] at h
      cases hsent : s.sendTwice world (.html chunk) (.plain (htmlToPlain chunk)) with
      | error u =>
          rw [hsent] at h
          obtain rfl := Except.error.inj h
          exact refused_sendTwice hsent
      | ok u =>
          rw [hsent] at h
          exact ih h

theorem refused_of_fails {event : Event} (h : s.Fails world event t) : Refused t := by
  cases h with
  | draft readings request text refused form =>
      have hnote : (s.note event).answered world = s.answered world := by cases event <;> rfl
      exact refused_ask (hnote ▸ refused)
  | document path caption refused => exact refused_ask refused

/-- No placeholder is left in the chat, unless Telegram refused to delete it. -/
def Cleared (s : ChatReply) : Prop :=
  draftsShown s = [] ∨ ∃ messageId text, draftsShown s = [(messageId, .placeholder text)] ∧
    (.delete messageId, .badRequest) ∈ s.requests

theorem Sends.cleared {exchanges : List (Request × Answer)} (h : Sends s t exchanges)
    (hs : Cleared s) : Cleared t := by
  rcases hs with hs | ⟨messageId, text, hs, hdelete⟩
  · exact .inl (h.drafts.trans hs)
  · refine .inr ⟨messageId, text, h.drafts.trans hs, ?_⟩
    rw [h.requests]
    exact List.mem_append_left _ hdelete

/-- The placeholder is deleted, and nothing else. -/
theorem deletePlaceholder_cases (world : World) {done : List Event} (h : Posted done s) :
    (∃ t, s.deletePlaceholder world = .ok t ∧ Cleared t ∧ messagesShown t = documents done) ∨
      ∃ t, s.deletePlaceholder world = .error t ∧ Refused t := by
  obtain ⟨hdraft, hfiles⟩ := h
  unfold ChatReply.deletePlaceholder
  split
  case h_2 hnone =>
    rw [hnone] at hdraft
    exact .inl ⟨s, rfl, .inl hdraft, hfiles⟩
  case h_1 messageId hold =>
    rw [hold] at hdraft
    obtain ⟨text, hone⟩ := hdraft
    unfold ChatReply.deleteMessage
    dsimp only
    split
    case h_1 granted =>
      have hshown := shown_of_deleted hone (requests_ask (.delete messageId) granted)
      exact .inl ⟨_, rfl, .inl hshown.1, hshown.2.trans hfiles⟩
    case h_2 bad =>
      have hshown := shown_of_refused (s := s) (t := s.ask world (.delete messageId)) rfl
        (by simp [bad])
      exact .inl ⟨_, rfl, .inr ⟨messageId, text, hshown.1.trans hone, by simp [ChatReply.ask, bad]⟩,
        hshown.2.trans hfiles⟩
    case h_3 hgranted _ => exact .inr ⟨_, rfl, refused_ask hgranted⟩

/-- The approval request ends a reply that asks for one. -/
theorem sends_close {approval : Option ApprovalPayload}
    (h : s.close world approval = .ok t) :
    ∃ requests, Sends s t requests ∧ AsksFor approval requests := by
  cases approval with
  | none =>
      obtain rfl := Except.ok.inj h
      exact ⟨[], .refl s, rfl⟩
  | some approval =>
      obtain ⟨exchanges, hasks, hone⟩ := sends_sendTwice rfl rfl (by simp [exchanged]) h
      exact ⟨exchanges, hone, hasks⟩

theorem refused_close {approval : Option ApprovalPayload}
    (h : s.close world approval = .error t) : Refused t := by
  cases approval with
  | none => cases h
  | some approval => exact refused_sendTwice h

/-- What a reply leaves in the chat: the files, and unless it was cancelled the final text and
the approval request, as Telegram granted them in its last exchanges. -/
def Leaves (py : Classes) (rounds : Nat) (done : List Event) (cancelled : Bool)
    (s : ChatReply) : Prop :=
  Cleared s ∧ ∃ earlier exchanges, s.requests = earlier ++ exchanges ∧
    messagesShown s = documents done ++ granted exchanges ∧
    if cancelled then exchanges = [] else Closes py rounds done exchanges

/-- What follows the stream, from the state in which the loop has left the reply. -/
theorem finish_cases {py : Classes} {rounds : Nat} {done : List Event}
    {outcome : Except ChatReply ChatReply} (hposted : Posted done s)
    (htext : s.finalText = Text.stripChars (replyText done))
    (happroval : s.approval = lastApproval done) (h : s.finish py world rounds = some outcome) :
    (∃ t, outcome = .ok t ∧ Leaves py rounds done s.cancelled t) ∨
      ∃ t, outcome = .error t ∧ Refused t := by
  unfold ChatReply.finish at h
  rw [htext, happroval] at h
  rcases deletePlaceholder_cases world hposted with
    ⟨u, hdelete, hcleared, hfiles⟩ | ⟨u, hdelete, hrefused⟩
  · rw [hdelete] at h
    dsimp only at h
    split at h
    case isTrue hcancelled =>
      exact .inl ⟨u, (Option.some.inj h).symm, hcleared, u.requests, [], by simp,
        by simpa [granted] using hfiles, by simp [hcancelled]⟩
    case isFalse hgoing =>
      have hleaves : ∀ {t : ChatReply} {exchanges : List (Request × Answer)},
          Sends u t exchanges → Closes py rounds done exchanges →
          Leaves py rounds done s.cancelled t := fun hsends hcloses =>
        ⟨hsends.cleared hcleared, _, _, hsends.requests, by rw [hsends.messages, hfiles],
          by simpa [hgoing] using hcloses⟩
      split at h
      case isTrue hempty =>
        have hclose := Option.some.inj h
        cases outcome with
        | error t => exact .inr ⟨t, rfl, refused_close hclose⟩
        | ok t =>
            obtain ⟨requests, hsends, hasks⟩ := sends_close hclose
            exact .inl ⟨t, rfl, hleaves hsends ⟨[], requests, rfl, by simp [hempty], hasks⟩⟩
      case isFalse htexts =>
        obtain ⟨chunks, hchunks, hclose⟩ := Option.map_eq_some_iff.1 h
        cases hsent : u.sendChunks world chunks with
        | error v =>
            rw [hsent] at hclose
            exact .inr ⟨v, hclose.symm, refused_sendChunks hsent⟩
        | ok v =>
            rw [hsent] at hclose
            obtain ⟨texts, hall, hsendsTexts⟩ := sends_sendChunks hsent
            cases outcome with
            | error t => exact .inr ⟨t, rfl, refused_close hclose⟩
            | ok t =>
                obtain ⟨requests, hsends, hasks⟩ := sends_close hclose
                exact .inl ⟨t, rfl, hleaves (hsendsTexts.trans hsends)
                  ⟨texts, requests, rfl, by simpa [htexts] using ⟨chunks, hchunks, hall⟩, hasks⟩⟩
  · rw [hdelete] at h
    exact .inr ⟨u, (Option.some.inj h).symm, hrefused⟩

/-- A reply that returns leaves in the chat the files of the stream, the final text in its
chunks and the approval request, each once and in this order, and in plain form only where the
HTML was a bad request, but nothing except the files if the run was cancelled; the placeholder is
gone unless Telegram refused to delete it. A reply raises only where the stream raised or Telegram
did not grant a request. -/
theorem streamReply_chat {py : Classes} {rounds : Nat} {raises : Bool} {events : List Event}
    {outcome : Except ChatReply ChatReply}
    (h : streamReply py world rounds raises events = some outcome) :
    (∃ s, outcome = .ok s ∧ Leaves py rounds (taken events) (events.any isCancelled) s) ∨
      ∃ s, outcome = .error s ∧ (raises = true ∨ Refused s) := by
  have hrule := ChatReply.read_induction world raises events
    (I := fun done s => Follows done s ∧ Posted done s) ⟨.fresh, .fresh⟩
    fun done s t event _ hs hreads => ⟨hs.1.reads hreads, hs.2.reads hreads⟩
  unfold streamReply at h
  cases hread : freshChatReply.read world raises events with
  | error t =>
      rw [hread] at h
      refine .inr ⟨t, (Option.some.inj h).symm, ?_⟩
      obtain ⟨front, u, -, -, ⟨hraises, -⟩ | ⟨event, -, hfails⟩⟩ := hrule.2 t hread
      · exact .inl hraises
      · exact .inr (refused_of_fails hfails)
  | ok t =>
      rw [hread] at h
      obtain ⟨u, ⟨hfollows, hposted⟩, hu⟩ := hrule.1 t hread
      rw [List.nil_append] at hfollows hposted
      have hcancelled : t.cancelled = events.any isCancelled := by
        rw [hu]
        split
        case isTrue hany => exact hany.symm
        case isFalse hany => exact hfollows.going.trans (Bool.not_eq_true _ ▸ hany).symm
      have htext : t.finalText = Text.stripChars (replyText (taken events)) := by
        rw [← hfollows.text, hu]
        split <;> rfl
      have happroval : t.approval = lastApproval (taken events) := by
        rw [← hfollows.approval, hu]
        split <;> rfl
      have hpostedT : Posted (taken events) t := by
        rw [hu]
        split
        · exact ⟨hposted.draft, hposted.files⟩
        · exact hposted
      rcases finish_cases hpostedT htext happroval h with ⟨s, hs, hleaves⟩ | ⟨s, hs, hrefused⟩
      · exact .inl ⟨s, hs, hcancelled ▸ hleaves⟩
      · exact .inr ⟨s, hs, .inr hrefused⟩

/-- A chat that refuses the first edit and everything in HTML. -/
def plainWorld : World where
  answer n := if n = 1 ∨ n = 4 ∨ n = 6 then .badRequest else .granted
  clock _ := 0

/-- A stream with a tool call, a file and an approval request. -/
def asking : List Event :=
  [.token "hi", .toolCall "c1" "shell" [], .file "a.txt" none,
    .approvalRequest "a1" "c1" "shell" []]

theorem streamReply_chat_plain : ∃ s,
    streamReply asciiClasses plainWorld 0 false asking = some (.ok s) ∧
    messagesShown s = [.document "a.txt" none, .plain "hi".toList,
      .approval false (ChatReply.approvalCaption ⟨"a1", "c1", "shell", []⟩)
        [⟨"Approve", "approve:a1"⟩, ⟨"Deny", "deny:a1"⟩]] ∧
    Cleared s := by
  have h : streamReply asciiClasses plainWorld 0 false asking = some (.ok _) := rfl
  refine ⟨_, h, by rfl, ?_⟩
  rcases streamReply_chat h with ⟨s, hs, hleaves⟩ | ⟨s, hs, -⟩
  · exact Except.ok.inj hs ▸ hleaves.1
  · cases hs

end Closed

end GraphAgent.Telegram
