import GraphAgent.Telegram.Reply
import Mathlib.Tactic.Linarith
import Mathlib.Tactic.Positivity

/-!
# The drafts of a reply

What is to be seen in the placeholder while a reply is streamed: previews of the text so far,
in the order of the stream and at a bounded rate.
-/

namespace GraphAgent.Telegram

section Drafts

/-- The text that a request puts in the placeholder. -/
def draftText : Request → Option (List Char)
  | .placeholder text => some text
  | .edit _ text => some text
  | _ => none

/-- The texts that were to be seen in the placeholder, in order. -/
def drafts (requests : List (Request × Answer)) : List (List Char) :=
  requests.filterMap fun exchange => draftText exchange.1

theorem length_clipPreview (text : List Char) : (clipPreview text).length ≤ telegramMaxChars := by
  have hpos : 0 < telegramMaxChars := by decide
  unfold clipPreview
  split
  case isTrue hshort => exact hshort
  case isFalse hlong =>
    rw [List.length_cons, List.length_drop]
    omega

/-- The drafts were previews after ever more of the events, and none of them was empty. -/
def Drafted (done : List Event) (s : ChatReply) : Prop :=
  ∃ fronts : List (List Event), fronts.Pairwise (fun a b => a <+: b ∧ a ≠ b) ∧
    (∀ front ∈ fronts, front <+: done ∧ previewAfter front ≠ []) ∧
    drafts s.requests = fronts.map previewAfter

namespace Drafted

variable {world : World} {s t : ChatReply} {force : Bool} {event : Event} {done : List Event}

theorem fresh : Drafted [] freshChatReply := ⟨[], .nil, by simp, rfl⟩

theorem later (h : Drafted done s) (hrequests : t.requests = s.requests) :
    Drafted (done ++ [event]) t := by
  obtain ⟨fronts, hchain, hfronts, hdrafts⟩ := h
  refine ⟨fronts, hchain, fun front hfront => ?_, hrequests ▸ hdrafts⟩
  exact ⟨(hfronts front hfront).1.trans (List.prefix_append _ _), (hfronts front hfront).2⟩

/-- A request that is no draft. -/
theorem other (h : Drafted done s) {request : Request} {answer : Answer}
    (hother : draftText request = none)
    (hrequests : t.requests = s.requests ++ [(request, answer)]) :
    Drafted (done ++ [event]) t := by
  obtain ⟨fronts, hchain, hfronts, hdrafts⟩ := h
  refine ⟨fronts, hchain, fun front hfront => ?_, ?_⟩
  · exact ⟨(hfronts front hfront).1.trans (List.prefix_append _ _), (hfronts front hfront).2⟩
  · rw [hrequests, drafts, List.filterMap_append, ← drafts, hdrafts]
    simp [hother]

/-- A draft shows the preview after all of the events. -/
theorem draft (h : Drafted done s) {request : Request} {answer : Answer}
    (hrequests : t.requests = s.requests ++ [(request, answer)])
    (htext : previewAfter (done ++ [event]) ≠ [])
    (hdraft : draftText request = some (previewAfter (done ++ [event]))) :
    Drafted (done ++ [event]) t := by
  obtain ⟨fronts, hchain, hfronts, hdrafts⟩ := h
  refine ⟨fronts ++ [done ++ [event]], ?_, ?_, ?_⟩
  · refine List.pairwise_append.2 ⟨hchain, List.pairwise_singleton _ _, ?_⟩
    intro front hfront last hlast
    obtain rfl := List.mem_singleton.1 hlast
    have hle := (hfronts front hfront).1
    refine ⟨hle.trans (List.prefix_append _ _), fun heq => ?_⟩
    have hlength := hle.length_le
    simp [heq] at hlength
  · intro front hfront
    rcases List.mem_append.1 hfront with hfront | hfront
    · exact ⟨(hfronts front hfront).1.trans (List.prefix_append _ _), (hfronts front hfront).2⟩
    · obtain rfl := List.mem_singleton.1 hfront
      exact ⟨List.prefix_rfl, htext⟩
  · rw [hrequests, drafts, List.filterMap_append, ← drafts, hdrafts]
    simp [hdraft]

theorem reads (h : Drafted done s) (hfollows : Follows done s) (hreads : s.Reads world event t) :
    Drafted (done ++ [event]) t := by
  cases hreads with
  | shown notFile hshows =>
      have hcurrent := (hfollows.note event).current_eq
      have hrequests : (s.note event).requests = s.requests := by cases event <;> rfl
      cases hshows with
      | still readings => exact h.later hrequests
      | placed new text granted =>
          have hsent := congrArg (· ++ [(Request.placeholder (s.note event).current,
            (s.note event).answered world)]) hrequests
          exact h.draft hsent (hcurrent ▸ text) (congrArg some hcurrent)
      | edited messageId readings interval old text bounds paced =>
          have hsent := congrArg (· ++ [(Request.edit messageId (s.note event).current,
            (s.note event).answered world)]) hrequests
          exact h.draft hsent (hcurrent ▸ text) (congrArg some hcurrent)
  | sent path caption granted => exact h.other rfl rfl

theorem fails (h : Drafted done s) (hfollows : Follows done s) (hfails : s.Fails world event t) :
    Drafted (done ++ [event]) t := by
  cases hfails with
  | draft readings request text refused form =>
      have hcurrent := (hfollows.note event).current_eq
      have hrequests : (s.note event).requests = s.requests := by cases event <;> rfl
      refine h.draft (congrArg (· ++ _) hrequests) (hcurrent ▸ text) ?_
      cases form <;> exact congrArg some hcurrent
  | document path caption refused => exact h.other rfl rfl

end Drafted

end Drafts

section Outcome

/-- The state in which `_stream_reply` returned or raised. -/
def ended : Except ChatReply ChatReply → ChatReply
  | .ok s => s
  | .error s => s

variable {world : World} {s t : ChatReply}

/-- From one state to another, no draft is shown and the clock is not read. -/
structure KeepsDrafts (s t : ChatReply) : Prop where
  drafts : drafts t.requests = drafts s.requests
  readings : t.readings = s.readings

theorem KeepsDrafts.refl (s : ChatReply) : KeepsDrafts s s := ⟨rfl, rfl⟩

theorem KeepsDrafts.trans {u : ChatReply} (h : KeepsDrafts s t) (h' : KeepsDrafts t u) :
    KeepsDrafts s u := ⟨h'.drafts.trans h.drafts, h'.readings.trans h.readings⟩

theorem keepsDrafts_ask (world : World) (s : ChatReply) {request : Request}
    (hother : draftText request = none) : KeepsDrafts s (s.ask world request) where
  drafts := by simp [ChatReply.ask, Telegram.drafts, hother]
  readings := rfl

theorem keepsDrafts_sendTwice (world : World) (s : ChatReply) {first second : Request}
    (hfirst : draftText first = none) (hsecond : draftText second = none) :
    KeepsDrafts s (ended (s.sendTwice world first second)) := by
  unfold ChatReply.sendTwice
  dsimp only
  split
  · exact keepsDrafts_ask world _ hfirst
  · split <;> exact (keepsDrafts_ask world _ hfirst).trans (keepsDrafts_ask world _ hsecond)
  · exact keepsDrafts_ask world _ hfirst

theorem keepsDrafts_sendChunks (world : World) (s : ChatReply) (chunks : List (List Char)) :
    KeepsDrafts s (ended (s.sendChunks world chunks)) := by
  induction chunks generalizing s with
  | nil => exact .refl s
  | cons chunk chunks ih =>
      have hfirst : KeepsDrafts s
          (ended (s.sendTwice world (.html chunk) (.plain (htmlToPlain chunk)))) :=
        keepsDrafts_sendTwice world s rfl rfl
      rw [ChatReply.sendChunks]
      cases hsent : s.sendTwice world (.html chunk) (.plain (htmlToPlain chunk)) with
      | error t => rwa [hsent] at hfirst
      | ok t =>
          rw [hsent] at hfirst
          exact hfirst.trans (ih t)

theorem keepsDrafts_deletePlaceholder (world : World) (s : ChatReply) :
    KeepsDrafts s (ended (s.deletePlaceholder world)) := by
  unfold ChatReply.deletePlaceholder
  split
  case h_2 => exact .refl s
  case h_1 =>
    unfold ChatReply.deleteMessage
    dsimp only
    split <;> exact keepsDrafts_ask world _ rfl

theorem keepsDrafts_close (world : World) (s : ChatReply) (approval : Option ApprovalPayload) :
    KeepsDrafts s (ended (s.close world approval)) := by
  cases approval with
  | none => exact .refl s
  | some approval => exact keepsDrafts_sendTwice world _ rfl rfl

/-- What `_stream_reply` does after the stream shows no more previews. -/
theorem keepsDrafts_finish {py : Classes} {rounds : Nat} {outcome : Except ChatReply ChatReply}
    (h : s.finish py world rounds = some outcome) : KeepsDrafts s (ended outcome) := by
  have hdelete := keepsDrafts_deletePlaceholder world s
  unfold ChatReply.finish at h
  split at h
  case h_1 t ht =>
    obtain rfl := Option.some.inj h
    rwa [ht] at hdelete
  case h_2 t ht =>
    rw [ht] at hdelete
    split at h
    case isTrue =>
      obtain rfl := Option.some.inj h
      exact hdelete
    case isFalse =>
      split at h
      case isTrue =>
        obtain rfl := Option.some.inj h
        exact hdelete.trans (keepsDrafts_close world t s.approval)
      case isFalse =>
        obtain ⟨chunks, -, rfl⟩ := Option.map_eq_some_iff.1 h
        have hchunks := hdelete.trans (keepsDrafts_sendChunks world t chunks)
        cases hsent : t.sendChunks world chunks with
        | error u => rwa [hsent] at hchunks
        | ok u =>
            rw [hsent] at hchunks
            exact hchunks.trans (keepsDrafts_close world u s.approval)

/-- The rule for what every event keeps and a request that is not granted keeps too: it holds,
after some of the events, of a state with the drafts of the one in which the reply ends. -/
theorem streamReply_induction {py : Classes} {rounds : Nat} {raises : Bool}
    {events : List Event} {outcome : Except ChatReply ChatReply}
    {I : List Event → ChatReply → Prop} (hfresh : I [] freshChatReply)
    (hreads : ∀ done s t event, I done s → s.Reads world event t → I (done ++ [event]) t)
    {J : List Event → ChatReply → Prop} (hJ : ∀ done s, I done s → J done s)
    (hfails : ∀ done s t event, I done s → s.Fails world event t → J (done ++ [event]) t)
    (h : streamReply py world rounds raises events = some outcome) :
    ∃ done s, done <+: taken events ∧ J done s ∧ KeepsDrafts s (ended outcome) := by
  have hrule := ChatReply.read_induction world raises events
    (I := I) hfresh fun done s t event _ hs hr => hreads done s t event hs hr
  unfold streamReply at h
  cases hread : freshChatReply.read world raises events with
  | error t =>
      rw [hread] at h
      obtain rfl := Option.some.inj h
      obtain ⟨front, u, hfront, hu, ⟨-, rfl⟩ | ⟨event, hnext, hf⟩⟩ := hrule.2 t hread
      · exact ⟨front, _, hfront, hJ _ _ hu, .refl _⟩
      · exact ⟨front ++ [event], t, hnext, hfails _ _ _ _ hu hf, .refl t⟩
  | ok t =>
      rw [hread] at h
      obtain ⟨u, hI, hu⟩ := hrule.1 t hread
      have hkeeps : KeepsDrafts u t := by
        rw [hu]
        split
        · exact ⟨rfl, rfl⟩
        · exact .refl u
      exact ⟨taken events, u, List.prefix_rfl, hJ _ _ hI, hkeeps.trans (keepsDrafts_finish h)⟩

/-- However the chat answers and whenever the reply ends, what was to be seen in its
placeholder were previews of ever more of the stream, never empty and never longer than a
message may be. -/
theorem streamReply_previews {py : Classes} {rounds : Nat} {raises : Bool} {events : List Event}
    {outcome : Except ChatReply ChatReply}
    (h : streamReply py world rounds raises events = some outcome) :
    ∃ fronts : List (List Event), fronts.Pairwise (fun a b => a <+: b ∧ a ≠ b) ∧
      (∀ front ∈ fronts, front <+: taken events) ∧
      drafts (ended outcome).requests = fronts.map previewAfter ∧
      ∀ text ∈ drafts (ended outcome).requests, text ≠ [] ∧ text.length ≤ telegramMaxChars := by
  obtain ⟨done, u, hdone, hdrafted, hkeeps⟩ := streamReply_induction
    (I := fun done s => Follows done s ∧ Drafted done s) (J := Drafted) ⟨.fresh, .fresh⟩
    (fun _ _ _ _ hs hreads => ⟨hs.1.reads hreads, hs.2.reads hs.1 hreads⟩)
    (fun _ _ hs => hs.2) (fun _ _ _ _ hs hfails => hs.2.fails hs.1 hfails) h
  have hdrafts := hkeeps.drafts
  obtain ⟨fronts, hchain, hfronts, htexts⟩ := hdrafted
  refine ⟨fronts, hchain, fun front hfront => (hfronts front hfront).1.trans hdone,
    hdrafts.trans htexts, fun text htext => ?_⟩
  rw [hdrafts, htexts] at htext
  obtain ⟨front, hfront, rfl⟩ := List.mem_map.1 htext
  exact ⟨(hfronts front hfront).2, length_clipPreview _⟩

/-- A world that grants every request while its clock stands still. -/
def grantingWorld : World := ⟨fun _ => .granted, fun _ => 0⟩

theorem streamReply_previews_cancelled : ∃ outcome,
    streamReply asciiClasses grantingWorld 0 false
      [.token "hi", .toolCall "c1" "shell" [], .cancelled "s"] = some outcome ∧
    drafts (ended outcome).requests = ["hi".toList, "hi\n\nWorking: shell…".toList] ∧
    ∃ fronts : List (List Event), drafts (ended outcome).requests = fronts.map previewAfter := by
  have h : streamReply asciiClasses grantingWorld 0 false
      [.token "hi", .toolCall "c1" "shell" [], .cancelled "s"] = some _ := rfl
  obtain ⟨fronts, -, -, hfronts, -⟩ := streamReply_previews h
  exact ⟨_, h, by decide, fronts, hfronts⟩

end Outcome

section Pace

variable {world : World} {s t : ChatReply} {request : Request} {text : List Char}
  {answer : Answer}

/-- The number of tool calls among the events. -/
def toolCalls (events : List Event) : Nat := events.countP isToolCall

/-- Beside the placeholder, every draft has a tool call or a second of its own. -/
structure Paced (world : World) (done : List Event) (s : ChatReply) : Prop where
  interval : 1 ≤ s.interval
  quiet : s.placeholder = none → drafts s.requests = []
  past : s.placeholder ≠ none → world.clock 0 ≤ s.lastEdit ∧ s.lastEdit ≤ world.clock s.readings
  paced : s.placeholder ≠ none →
    ((drafts s.requests).length : Rat) ≤ 1 + toolCalls done + (s.lastEdit - world.clock 0)

section Paced

variable {done : List Event} {event : Event} {force : Bool} (hclock : Monotone world.clock)

theorem toolCalls_snoc : toolCalls (done ++ [event]) =
    toolCalls done + if isToolCall event = true then 1 else 0 := by
  simp [toolCalls, List.countP_append, List.countP_cons]

theorem Paced.fresh : Paced world [] freshChatReply :=
  ⟨le_rfl, fun _ => rfl, fun h => absurd rfl h, fun h => absurd rfl h⟩

theorem Paced.note (h : Paced world done s) (event : Event) : Paced world done (s.note event) := by
  cases event <;> exact ⟨h.interval, h.quiet, h.past, h.paced⟩

theorem drafts_snoc (h : t.requests = s.requests ++ [(request, answer)])
    (hdraft : draftText request = some text) :
    drafts t.requests = drafts s.requests ++ [text] := by
  simp [h, drafts, hdraft]

include hclock in
theorem Paced.due {readings : Nat} (h : Paced world done s) (hold : s.placeholder ≠ none)
    (hdue : s.Due world (isToolCall event) readings) :
    s.readings ≤ readings ∧ ((drafts s.requests).length : Rat) + 1 ≤
      1 + toolCalls (done ++ [event]) + (world.clock readings - world.clock 0) := by
  obtain ⟨hfirst, hlast⟩ := h.past hold
  have hpaced := h.paced hold
  have hone := h.interval
  rw [toolCalls_snoc]
  rcases hdue with ⟨hforce, rfl⟩ | ⟨rfl, hinterval⟩
  · refine ⟨le_rfl, ?_⟩
    rw [if_pos hforce]
    push_cast
    linarith
  · refine ⟨Nat.le_succ _, ?_⟩
    have hnext := hclock (Nat.le_succ s.readings)
    have hcalls : (0 : Rat) ≤ (if isToolCall event = true then 1 else 0 : Nat) := by positivity
    push_cast at hcalls ⊢
    linarith

include hclock in
theorem Paced.known (h : Paced world done s) : ((drafts s.requests).length : Rat) ≤
    1 + toolCalls done + (world.clock s.readings - world.clock 0) := by
  have hcalls : (0 : Rat) ≤ toolCalls done := Nat.cast_nonneg _
  by_cases hnone : s.placeholder = none
  · have hfirst := hclock (Nat.zero_le s.readings)
    rw [h.quiet hnone, List.length_nil, Nat.cast_zero]
    linarith
  · exact (h.paced hnone).trans (by linarith [(h.past hnone).2])

theorem toolCalls_le_snoc (done : List Event) (event : Event) :
    (toolCalls done : Rat) ≤ toolCalls (done ++ [event]) := by
  rw [toolCalls_snoc]
  exact_mod_cast Nat.le_add_right _ _

include hclock in
theorem Paced.reads (h : Paced world done s) (hreads : s.Reads world event t) :
    Paced world (done ++ [event]) t := by
  have hcalls := toolCalls_le_snoc done event
  cases hreads with
  | sent path caption granted =>
      have hsame := keepsDrafts_ask world s (rfl : draftText (.document path caption) = none)
      refine ⟨h.interval, fun hnone => hsame.drafts.trans (h.quiet hnone), h.past, fun hold => ?_⟩
      have hpaced := h.paced hold
      rw [hsame.drafts]
      exact hpaced.trans (by simpa [ChatReply.ask] using hcalls)
  | shown notFile hshows =>
      have hnote := h.note event
      cases hshows with
      | still readings later =>
          refine ⟨hnote.interval, hnote.quiet, fun hold => ?_, fun hold => ?_⟩
          · exact ⟨(hnote.past hold).1, (hnote.past hold).2.trans (hclock later)⟩
          · exact (hnote.paced hold).trans (by simpa using hcalls)
      | placed new text granted =>
          have hdrafts := drafts_snoc (s := s.note event)
            (t := (s.note event).ask world (.placeholder (s.note event).current)) rfl rfl
          rw [hnote.quiet new] at hdrafts
          refine ⟨hnote.interval, (by rintro ⟨⟩), fun _ => ?_, fun _ => ?_⟩
          · exact ⟨hclock (Nat.zero_le _), hclock (Nat.le_succ _)⟩
          · have hfirst := hclock (Nat.zero_le (s.note event).readings)
            have hnonneg : (0 : Rat) ≤ toolCalls (done ++ [event]) := Nat.cast_nonneg _
            have hcount : ((drafts ((s.note event).ask world
                (.placeholder (s.note event).current)).requests).length : Rat) = 1 := by
              simp [hdrafts]
            have hbound : (1 : Rat) ≤ 1 + toolCalls (done ++ [event]) +
                (world.clock (s.note event).readings - world.clock 0) := by linarith
            exact hcount.trans_le hbound
      | edited messageId readings interval old text bounds due =>
          have hdrafts := drafts_snoc (s := s.note event)
            (t := (s.note event).ask world (.edit messageId (s.note event).current)) rfl rfl
          have hold : (s.note event).placeholder ≠ none := by simp [old]
          obtain ⟨hlater, hdue⟩ := hnote.due hclock hold due
          refine ⟨?_, fun hnone => absurd hnone hold, fun _ => ?_, fun _ => ?_⟩
          · have hone := hnote.interval
            rcases bounds with rfl | rfl | rfl
            · exact hone
            · exact le_rfl
            · exact le_min (by linarith) (by decide)
          · exact ⟨hclock (Nat.zero_le _), hclock (Nat.le_succ _)⟩
          · have hcount : ((drafts ((s.note event).ask world
                (.edit messageId (s.note event).current)).requests).length : Rat) =
                (drafts (s.note event).requests).length + 1 := by
              simp [hdrafts]
            exact hcount.trans_le hdue

include hclock in
/-- A draft that is not granted is counted too. -/
theorem Paced.fails (h : Paced world done s) (hfails : s.Fails world event t) :
    ((drafts t.requests).length : Rat) ≤
      1 + toolCalls (done ++ [event]) + (world.clock t.readings - world.clock 0) := by
  cases hfails with
  | document path caption refused =>
      have hsame := keepsDrafts_ask world s (rfl : draftText (.document path caption) = none)
      rw [hsame.drafts, hsame.readings]
      exact (h.known hclock).trans (by linarith [toolCalls_le_snoc done (.file path caption)])
  | draft readings request text refused form =>
      have hnote := h.note event
      cases form with
      | placeholder new =>
          have hdrafts := drafts_snoc (s := s.note event)
            (t := (s.note event).ask world (.placeholder (s.note event).current)) rfl rfl
          rw [hnote.quiet new] at hdrafts
          have hfirst := hclock (Nat.zero_le (s.note event).readings)
          have hcalls : (0 : Rat) ≤ toolCalls (done ++ [event]) := Nat.cast_nonneg _
          simp only [hdrafts, List.nil_append, List.length_singleton, Nat.cast_one]
          linarith
      | edit messageId readings old due =>
          have hdrafts := drafts_snoc (s := s.note event)
            (t := (s.note event).ask world (.edit messageId (s.note event).current)) rfl rfl
          simp only [hdrafts, List.length_append, List.length_singleton, Nat.cast_add, Nat.cast_one]
          exact (hnote.due hclock (by simp [old]) due).2

/-- If the clock does not run backwards, Telegram is asked to show no more drafts than the
placeholder, one for each tool call and one for each second. -/
theorem streamReply_paced {py : Classes} {rounds : Nat} {raises : Bool} {events : List Event}
    {outcome : Except ChatReply ChatReply} (hclock : Monotone world.clock)
    (h : streamReply py world rounds raises events = some outcome) :
    ((drafts (ended outcome).requests).length : Rat) ≤ 1 + toolCalls (taken events) +
      (world.clock (ended outcome).readings - world.clock 0) := by
  obtain ⟨done, u, hdone, hbound, hkeeps⟩ := streamReply_induction (I := Paced world)
    (J := fun done s => ((drafts s.requests).length : Rat) ≤
      1 + toolCalls done + (world.clock s.readings - world.clock 0)) .fresh
    (fun _ _ _ _ hs hreads => hs.reads hclock hreads) (fun _ _ hs => hs.known hclock)
    (fun _ _ _ _ hs hfails => hs.fails hclock hfails) h
  have hcalls : (toolCalls done : Rat) ≤ toolCalls (taken events) := by
    exact_mod_cast hdone.sublist.countP_le
  rw [hkeeps.drafts, hkeeps.readings]
  exact hbound.trans (by linarith)

/-- A world that grants every request while its clock goes on by a second at each reading. -/
def steadyWorld : World := ⟨fun _ => .granted, fun n => n⟩

/-- A reply that is cancelled after two tool calls. -/
def twoCalls : List Event :=
  [.token "a", .toolCall "c1" "shell" [], .toolCall "c2" "shell" [], .cancelled "s"]

theorem streamReply_paced_cancelled : ∃ outcome,
    streamReply asciiClasses steadyWorld 0 false twoCalls = some outcome ∧
    (drafts (ended outcome).requests).length = 3 ∧ toolCalls (taken twoCalls) = 2 ∧
    ((drafts (ended outcome).requests).length : Rat) ≤ 1 + toolCalls (taken twoCalls) +
      (steadyWorld.clock (ended outcome).readings - steadyWorld.clock 0) := by
  have h : streamReply asciiClasses steadyWorld 0 false twoCalls = some _ := rfl
  exact ⟨_, h, by decide, by decide, streamReply_paced (fun _ _ hle => Nat.cast_le.2 hle) h⟩

end Paced

end Pace

end GraphAgent.Telegram
