import GraphAgent.Core.State
import GraphAgent.Core.Text
import Mathlib.Data.List.DropRight
import Mathlib.Data.List.Induction

/-!
# Runs and approval modes on one thread

`AgentService.run`, `set_approval_mode` and `get_approval_mode` on a thread that
all transports share, and the part of the Telegram bot that decides in which
mode a message is run. What the nodes of a run write is arbitrary here.
-/

namespace GraphAgent

/-- What `setup` composes: the skills and memory sections around a base prompt,
and the default prompt made of the configured base. -/
structure Prompts where
  composePrompt : Option String → Option String
  defaultSystemPrompt : Option String

/-- The arguments of `AgentService.run` besides the session id. -/
structure RunRequest where
  userInput : UserInput
  approvalMode : Option ApprovalMode
  systemPrompt : Option String

/-- The input state that `run` builds. -/
def Prompts.inputState (prompts : Prompts) (sessionId : String) (request : RunRequest) :
    RunInput where
  messages := toMessages request.userInput
  sessionId := sessionId
  approvalMode := request.approvalMode
  systemPrompt :=
    match request.systemPrompt with
    | some prompt => prompts.composePrompt (some prompt)
    | none => prompts.defaultSystemPrompt

/-- A call that reaches the thread, with what the nodes of a run write there. -/
inductive ThreadCall where
  | run (request : RunRequest) (writes : List NodeWrite)
  | setApprovalMode (mode : ApprovalMode)

namespace ThreadCall

def exec (prompts : Prompts) (sessionId : String) (state : AgentState) : ThreadCall → AgentState
  | .run request writes =>
      writes.foldl AgentState.writeNode (state.writeInput (prompts.inputState sessionId request))
  | .setApprovalMode mode => { state with approvalMode := some mode }

/-- The thread after some calls, from a thread without a checkpoint. -/
def execAll (prompts : Prompts) (sessionId : String) (calls : List ThreadCall) : AgentState :=
  calls.foldl (exec prompts sessionId) {}

/-- The mode that a call chooses for the session. -/
def chosen : ThreadCall → Option ApprovalMode
  | .run _ _ => none
  | .setApprovalMode mode => some mode

/-- The mode that a run passes for itself. -/
def passed : ThreadCall → Option ApprovalMode
  | .run request _ => request.approvalMode
  | .setApprovalMode _ => none

end ThreadCall

/-- `AgentService.get_approval_mode`. -/
def getApprovalMode (state : AgentState) : Option ApprovalMode := state.approvalMode

/-- The mode of the last `set_approval_mode` call, if there was one. -/
def chosenMode (calls : List ThreadCall) : Option ApprovalMode :=
  (calls.filterMap ThreadCall.chosen).getLast?

/-- The mode that was last passed by a run after the last `set_approval_mode`
call, or by any run where there was no such call. -/
def laterPassedMode (calls : List ThreadCall) : Option ApprovalMode :=
  ((calls.rtakeWhile fun call => call.chosen.isNone).filterMap ThreadCall.passed).getLast?

section Telegram

/-- The Telegram channel's configuration. -/
structure TelegramConfig where
  allowedUserIds : List Int
  approvalMode : ApprovalMode

/-- The sender and the text of an incoming message. -/
structure TelegramMessage where
  fromUser : Option Int
  text : Option String

/-- What `handle_message` does with a message; `raised` is the `IndexError` of a
text without a word. -/
inductive TelegramAction where
  | ignored
  | raised
  | newSession
  | contextStats
  | compactSession
  | setApprovalMode (mode : ApprovalMode)
  | run (text : String) (mode : ApprovalMode)

/-- `TelegramBot._resolve_approval_mode`. -/
def TelegramConfig.resolveApprovalMode (config : TelegramConfig) (thread : AgentState) :
    ApprovalMode :=
  (getApprovalMode thread).getD config.approvalMode

/-- `TelegramBot.handle_message`. -/
def TelegramConfig.handleMessage (config : TelegramConfig) (thread : AgentState)
    (message : TelegramMessage) : TelegramAction :=
  match message.text, message.fromUser with
  | some text, some user =>
      if user ∈ config.allowedUserIds then
        match Text.firstWord? (Text.lower (Text.strip text)) with
        | none => .raised
        | some command =>
            if command = "/new" then .newSession
            else if command = "/context" then .contextStats
            else if command = "/compact" then .compactSession
            else if command = "/auto" then .setApprovalMode .auto
            else if command = "/manual" then .setApprovalMode .manual
            else .run text (config.resolveApprovalMode thread)
      else .ignored
  | _, _ => .ignored

/-- A message that the bot runs is run in the mode it resolves. -/
theorem mode_of_handleMessage {config : TelegramConfig} {thread : AgentState}
    {message : TelegramMessage} {text : String} {mode : ApprovalMode}
    (h : config.handleMessage thread message = .run text mode) :
    mode = config.resolveApprovalMode thread := by
  unfold TelegramConfig.handleMessage at h
  grind

end Telegram

section Modes

variable (prompts : Prompts) (sessionId : String)

@[simp] theorem approvalMode_foldl_writeNode (writes : List NodeWrite) (state : AgentState) :
    (writes.foldl AgentState.writeNode state).approvalMode = state.approvalMode := by
  induction writes generalizing state with
  | nil => rfl
  | cons write writes ih => rw [List.foldl_cons, ih, writeNode_approvalMode]

/-- One call leaves the mode it chooses or passes, else the one that was there. -/
theorem approvalMode_exec (state : AgentState) (call : ThreadCall) :
    (call.exec prompts sessionId state).approvalMode =
      (call.chosen.or call.passed).or state.approvalMode := by
  cases call with
  | run request writes =>
      simp [ThreadCall.exec, ThreadCall.chosen, ThreadCall.passed, Prompts.inputState,
        AgentState.writeInput]
  | setApprovalMode mode => rfl

/-- The stored mode is the one a run passed after the last choice, else the
chosen one. -/
theorem getApprovalMode_execAll (calls : List ThreadCall) :
    getApprovalMode (ThreadCall.execAll prompts sessionId calls) =
      (laterPassedMode calls).or (chosenMode calls) := by
  induction calls using List.reverseRecOn with
  | nil => rfl
  | append_singleton calls call ih =>
      simp only [getApprovalMode, ThreadCall.execAll, List.foldl_append, List.foldl_cons,
        List.foldl_nil] at ih ⊢
      rw [approvalMode_exec, ih]
      cases call with
      | run request writes =>
          cases hmode : request.approvalMode <;>
            simp [laterPassedMode, chosenMode, ThreadCall.chosen, ThreadCall.passed, hmode]
      | setApprovalMode mode =>
          simp [laterPassedMode, chosenMode, ThreadCall.chosen, ThreadCall.passed]

end Modes

/-- After the calls the stored mode is the last one chosen, and a message that
the Telegram bot runs is run in that mode, else in the channel's default. -/
def KeepsChosenMode (prompts : Prompts) (sessionId : String) (config : TelegramConfig)
    (calls : List ThreadCall) : Prop :=
  getApprovalMode (ThreadCall.execAll prompts sessionId calls) = chosenMode calls ∧
    ∀ message text mode,
      config.handleMessage (ThreadCall.execAll prompts sessionId calls) message =
          .run text mode →
        mode = (chosenMode calls).getD config.approvalMode

/-- The chosen mode is kept exactly when the last run that passed a mode after
the choice, or without any choice, passed the chosen one. -/
theorem keepsChosenMode_iff (prompts : Prompts) (sessionId : String) (config : TelegramConfig)
    (calls : List ThreadCall) :
    KeepsChosenMode prompts sessionId config calls ↔
      ∀ mode, laterPassedMode calls = some mode → chosenMode calls = some mode := by
  have hstored := getApprovalMode_execAll prompts sessionId calls
  constructor
  · rintro ⟨hkept, -⟩ mode hpassed
    rw [← hkept, hstored, hpassed]
    rfl
  · intro hsame
    have hkept : getApprovalMode (ThreadCall.execAll prompts sessionId calls) =
        chosenMode calls := by
      rw [hstored]
      cases hpassed : laterPassedMode calls with
      | none => rfl
      | some mode => exact (hsame mode hpassed).symm
    refine ⟨hkept, fun message text mode hrun => ?_⟩
    rw [mode_of_handleMessage hrun, TelegramConfig.resolveApprovalMode, hkept]

/-- The HTTP transport's run of a completion request. -/
def httpRequest (httpSystemPrompt content : String) : RunRequest :=
  ⟨.text content, some .auto, some httpSystemPrompt⟩

/-- `/manual` on Telegram and then one HTTP completion: the thread is in auto
mode, and so is the next Telegram message. -/
theorem http_run_overrides_manual :
    let calls : List ThreadCall :=
      [.setApprovalMode .manual, .run (httpRequest "be careful" "hi") []]
    let config : TelegramConfig := ⟨[7], .manual⟩
    let thread := ThreadCall.execAll ⟨id, none⟩ "shared:1" calls
    chosenMode calls = some .manual ∧ getApprovalMode thread = some .auto ∧
      config.handleMessage thread ⟨some 7, some "rm -rf build"⟩ = .run "rm -rf build" .auto ∧
      ¬ KeepsChosenMode ⟨id, none⟩ "shared:1" config calls := by
  refine ⟨rfl, rfl, rfl, fun h => ?_⟩
  have hmode : some ApprovalMode.auto = some ApprovalMode.manual := h.1
  exact absurd hmode (by decide)

end GraphAgent
