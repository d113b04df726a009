import GraphAgent.Core.Run
import GraphAgent.Service.ThreadCalls

/-!
# The system message of a run

How `AgentService` composes a prompt from the persona, the skills and the memory,
and which prompt `agent_node` finds on the thread after earlier runs. The default
prompt is composed once, in `setup`; the prompt that a run passes is composed when
the run starts, with the skills that are there then.
-/

namespace GraphAgent

section Skills

/-- A `SKILL.md` of the skills directory, with its path in the workspace. -/
structure SkillFile where
  path : String
  relativePath : String
  text : String

structure Skill where
  name : String
  description : String
  relativePath : String

/-- `_INDEX_HEADER`. -/
def indexHeader : String :=
  "## Skills\n\nYou have the following skills available. When a task matches a skill's " ++
    "description, read its `SKILL.md` with the filesystem tool and follow its instructions."

variable (safeLoad : String → Except String Value)

/-- A key of the frontmatter that has to be a text. -/
def frontmatterText (path : String) (fields : Args) (key : String) : Except String String :=
  match fields.get? key with
  | some (.str text) =>
      if Text.strip text = "" then
        .error (path ++ ": frontmatter needs a non-empty '" ++ key ++ "'")
      else .ok (Text.strip text)
  | _ => .error (path ++ ": frontmatter needs a non-empty '" ++ key ++ "'")

/-- `_parse_frontmatter`, which gives the skill of a file. -/
def parseFrontmatter (file : SkillFile) : Except String Skill :=
  if file.text.startsWith "---" then
    match file.text.splitOn "---" with
    | _ :: front :: _ :: _ =>
        match safeLoad front with
        | .error message => .error message
        | .ok (.obj fields) => do
            let name ← frontmatterText file.path fields "name"
            let description ← frontmatterText file.path fields "description"
            return ⟨name, description, file.relativePath⟩
        | .ok _ => .error (file.path ++ ": frontmatter is not a mapping")
    | _ => .error (file.path ++ ": unterminated YAML frontmatter")
  else .error (file.path ++ ": missing YAML frontmatter")

/-- `SkillStore.discover` on the files in the order of their directories. -/
def discover (files : List SkillFile) : Except String (List Skill) :=
  (files.mapM (parseFrontmatter safeLoad)).map fun skills =>
    skills.mergeSort fun a b => decide (a.name ≤ b.name)

/-- `SkillStore.instructions`. -/
def skillInstructions (files : List SkillFile) : Except String String :=
  (discover safeLoad files).map fun skills =>
    if skills.isEmpty then ""
    else "\n".intercalate ([indexHeader, ""] ++ skills.map fun skill =>
      "- " ++ skill.name ++ " (" ++ skill.relativePath ++ "): " ++ skill.description)

/-- `SkillStore.compose`, given the instructions. -/
def composeSkills (base : Option String) (instructions : String) : String :=
  "\n\n".intercalate ([base.getD "", instructions].filter fun part => part ≠ "")

end Skills

section Memory

/-- `MemoryStore.instructions`. -/
def memoryInstructions (relativePath : String) : String :=
  "## Persistent memory\n\nYou have a persistent memory file at `" ++ relativePath ++
    "`. Read it at the start of every session to recover prior context, and update it " ++
    "whenever you learn durable facts about the user or the project (preferences, decisions, " ++
    "ongoing work). Keep entries concise. Use the filesystem tool to read and write it."

/-- `MemoryStore.compose`. -/
def composeMemory (base : Option String) (relativePath : String) : String :=
  if base.getD "" = "" then memoryInstructions relativePath
  else base.getD "" ++ "\n\n" ++ memoryInstructions relativePath

end Memory

section Compose

/-- What the prompt is made of: the inline prompt, the persona file with its text
where it exists, whether skills are enabled, and the memory file if memory is. -/
structure PromptConfig where
  systemPrompt : Option String
  personaFile : Option (String × Option String)
  skills : Bool
  memory : Option String

variable (safeLoad : String → Except String Value)

/-- `_base_system_prompt`. -/
def PromptConfig.baseSystemPrompt (config : PromptConfig) : Except String (Option String) :=
  match config.personaFile with
  | none => .ok config.systemPrompt
  | some (path, none) => .error ("persona file not found: " ++ path)
  | some (_, some text) => .ok (some text)

/-- `_compose_prompt` with the skills that are found when it is called. -/
def PromptConfig.composePrompt (config : PromptConfig) (files : List SkillFile)
    (base : Option String) : Except String (Option String) := do
  let prompt ←
    if config.skills then
      (skillInstructions safeLoad files).map fun instructions =>
        some (composeSkills base instructions)
    else .ok base
  match config.memory with
  | some path => .ok (some (composeMemory prompt path))
  | none => .ok prompt

/-- A service after `setup`. -/
structure PromptService extends PromptConfig where
  defaultSystemPrompt : Option String
  resolved : ∃ files base, toPromptConfig.baseSystemPrompt = .ok base ∧
    toPromptConfig.composePrompt safeLoad files base = .ok defaultSystemPrompt

end Compose

/-- A run with the skill files that it finds and what its nodes write. -/
structure PromptedRun where
  request : RunRequest
  files : List SkillFile
  writes : List NodeWrite

/-- Earlier runs on a thread, and the skill files that they leave. -/
structure PromptHistory where
  runs : List PromptedRun
  files : List SkillFile

namespace PromptService

variable {safeLoad : String → Except String Value} (service : PromptService safeLoad)

/-- The prompt that `run` puts into the input state. -/
def runPrompt (files : List SkillFile) (request : RunRequest) : Except String (Option String) :=
  match request.systemPrompt with
  | some prompt => service.composePrompt safeLoad files (some prompt)
  | none => .ok service.defaultSystemPrompt

/-- A run on the thread; it leaves the thread alone if its prompt cannot be composed. -/
def exec (sessionId : String) (state : AgentState) (run : PromptedRun) : AgentState :=
  match service.runPrompt run.files run.request with
  | .error _ => state
  | .ok prompt =>
      ThreadCall.exec ⟨fun _ => prompt, service.defaultSystemPrompt⟩ sessionId state
        (.run run.request run.writes)

/-- The thread after some runs. -/
def execAll (sessionId : String) (runs : List PromptedRun) : AgentState :=
  runs.foldl (service.exec sessionId) {}

end PromptService

/-- The system message that a prompt gives; an empty one gives none. -/
def shownPrompt (prompt : Option String) : Option Message :=
  (prompt.filter fun prompt => prompt ≠ "").map Message.system

/-- The message that `agent_node` puts in front of the others. -/
def frontMessage (state : AgentState) : Option Message := shownPrompt state.systemPrompt

theorem agentRequest_eq (state : AgentState) :
    agentRequest state = (frontMessage state).toList ++ repairToolCallPairs state.messages := by
  unfold agentRequest frontMessage shownPrompt
  cases state.systemPrompt with
  | none => rfl
  | some prompt => by_cases hempty : prompt = "" <;> simp [hempty, Option.filter]

namespace PromptService

variable {safeLoad : String → Except String Value} (service : PromptService safeLoad)
  (sessionId : String)

/-- The front message of the next run once its nodes have made some writes, if the run
gets as far as the model. -/
def systemMessage (history : PromptHistory) (request : RunRequest) (writes : List NodeWrite) :
    Option (Option Message) :=
  (service.runPrompt history.files request).toOption.map fun _ =>
    frontMessage (service.exec sessionId (service.execAll sessionId history.runs)
      ⟨request, history.files, writes⟩)

/-- The model sees the same front message in the next run after either history. -/
def SameSystemMessage (first second : PromptHistory) (request : RunRequest) : Prop :=
  ∀ writes writes', service.systemMessage sessionId first request writes =
    service.systemMessage sessionId second request writes'

/-- Where skills are enabled, both lists of files give the same instructions, or none. -/
def FindsSameSkills (files files' : List SkillFile) : Prop :=
  service.skills = true →
    (skillInstructions safeLoad files).toOption = (skillInstructions safeLoad files').toOption

end PromptService

/-- The prompt that was last passed to a run. -/
def lastOverride (runs : List PromptedRun) : Option String :=
  (runs.filterMap fun run => run.request.systemPrompt).getLast?

section Composition

/-- The memory instructions after a prompt, where memory is enabled. -/
def PromptConfig.withMemory (config : PromptConfig) (prompt : String) : String :=
  match config.memory with
  | some path => composeMemory (some prompt) path
  | none => prompt

/-- Two texts with an empty line between them are neither of the two. -/
theorem joined_ne (a b : String) : a ++ "\n\n" ++ b ≠ a ∧ a ++ "\n\n" ++ b ≠ b := by
  have hlength : (a ++ "\n\n" ++ b).length = a.length + 2 + b.length := by
    simp only [String.length_append]
    rfl
  constructor
  · intro h
    rw [h] at hlength
    omega
  · intro h
    rw [h] at hlength
    omega

theorem composeMemory_injective {a b path : String}
    (h : composeMemory (some a) path = composeMemory (some b) path) : a = b := by
  simp only [composeMemory, Option.getD_some] at h
  by_cases ha : a = "" <;> by_cases hb : b = ""
  · exact ha.trans hb.symm
  · rw [if_pos ha, if_neg hb] at h
    exact absurd h.symm (joined_ne b _).2
  · rw [if_neg ha, if_pos hb] at h
    exact absurd h (joined_ne a _).2
  · rw [if_neg ha, if_neg hb, String.append_left_inj, String.append_left_inj] at h
    exact h

theorem withMemory_injective (config : PromptConfig) {a b : String}
    (h : config.withMemory a = config.withMemory b) : a = b := by
  unfold PromptConfig.withMemory at h
  split at h
  case h_1 => exact composeMemory_injective h
  case h_2 => exact h

theorem composeSkills_eq (base instructions : String) :
    composeSkills (some base) instructions =
      if base = "" then instructions
      else if instructions = "" then base else base ++ "\n\n" ++ instructions := by
  by_cases hbase : base = "" <;> by_cases hinstructions : instructions = "" <;>
    simp [composeSkills, hbase, hinstructions]

theorem composeSkills_injective {base a b : String}
    (h : composeSkills (some base) a = composeSkills (some base) b) : a = b := by
  simp only [composeSkills_eq] at h
  by_cases hbase : base = ""
  · rw [if_pos hbase, if_pos hbase] at h
    exact h
  · rw [if_neg hbase, if_neg hbase] at h
    by_cases ha : a = "" <;> by_cases hb : b = ""
    · exact ha.trans hb.symm
    · rw [if_pos ha, if_neg hb] at h
      exact absurd h.symm (joined_ne base b).1
    · rw [if_neg ha, if_pos hb] at h
      exact absurd h (joined_ne base a).1
    · rw [if_neg ha, if_neg hb, String.append_right_inj] at h
      exact h

variable {safeLoad : String → Except String Value}

/-- A base prompt gives a prompt, with the skills that are found then. -/
theorem composePrompt_some (config : PromptConfig) (files : List SkillFile) (base : String) :
    config.composePrompt safeLoad files (some base) =
      if config.skills then
        (skillInstructions safeLoad files).map fun instructions =>
          some (config.withMemory (composeSkills (some base) instructions))
      else .ok (some (config.withMemory base)) := by
  unfold PromptConfig.composePrompt PromptConfig.withMemory
  cases config.skills with
  | false => cases config.memory <;> rfl
  | true =>
      cases skillInstructions safeLoad files with
      | error message => rfl
      | ok instructions => cases config.memory <;> rfl

/-- There is no default prompt just when there is no persona and nothing to add. -/
theorem defaultSystemPrompt_eq_none_iff (service : PromptService safeLoad) :
    service.defaultSystemPrompt = none ↔
      service.baseSystemPrompt = .ok none ∧ service.skills = false ∧ service.memory = none := by
  obtain ⟨files, base, hbase, hresolved⟩ := service.resolved
  rw [hbase]
  unfold PromptConfig.composePrompt at hresolved
  cases hskills : service.skills with
  | false =>
      rw [hskills] at hresolved
      cases hmemory : service.memory with
      | none =>
          rw [hmemory] at hresolved
          have hsame : base = service.defaultSystemPrompt := Except.ok.inj hresolved
          simp [hsame]
      | some path =>
          rw [hmemory] at hresolved
          have hsome : some (composeMemory base path) = service.defaultSystemPrompt :=
            Except.ok.inj hresolved
          simp [← hsome]
  | true =>
      rw [hskills] at hresolved
      cases hfound : skillInstructions safeLoad files with
      | error message =>
          rw [hfound] at hresolved
          exact nomatch hresolved
      | ok instructions =>
          rw [hfound] at hresolved
          cases hmemory : service.memory with
          | none =>
              rw [hmemory] at hresolved
              have hsome : some (composeSkills base instructions) = service.defaultSystemPrompt :=
                Except.ok.inj hresolved
              simp [← hsome]
          | some path =>
              rw [hmemory] at hresolved
              have hsome : some (composeMemory (some (composeSkills base instructions)) path) =
                  service.defaultSystemPrompt := Except.ok.inj hresolved
              simp [← hsome]

end Composition

section Thread

@[simp] theorem systemPrompt_foldl_writeNode (writes : List NodeWrite) (state : AgentState) :
    (writes.foldl AgentState.writeNode state).systemPrompt = state.systemPrompt := by
  induction writes generalizing state with
  | nil => rfl
  | cons write writes ih => exact ih (state.writeNode write)

variable {safeLoad : String → Except String Value} (service : PromptService safeLoad)
  (sessionId : String)

/-- A run leaves its prompt on the thread, and the one that was there if it has none. -/
theorem systemPrompt_exec (state : AgentState) (run : PromptedRun) {prompt : Option String}
    (h : service.runPrompt run.files run.request = .ok prompt) :
    (service.exec sessionId state run).systemPrompt = prompt.or state.systemPrompt := by
  unfold PromptService.exec
  rw [h]
  simp only [ThreadCall.exec, systemPrompt_foldl_writeNode, AgentState.writeInput,
    Prompts.inputState]
  cases hrequest : run.request.systemPrompt with
  | some passed => rfl
  | none =>
      simp only [PromptService.runPrompt, hrequest] at h
      rw [Except.ok.inj h]

theorem systemMessage_eq (history : PromptHistory) (request : RunRequest)
    (writes : List NodeWrite) :
    service.systemMessage sessionId history request writes =
      (service.runPrompt history.files request).toOption.map fun prompt =>
        shownPrompt (prompt.or (service.execAll sessionId history.runs).systemPrompt) := by
  unfold PromptService.systemMessage
  cases hprompt : service.runPrompt history.files request with
  | error message => rfl
  | ok prompt =>
      simp only [Except.toOption, Option.map_some, frontMessage]
      rw [systemPrompt_exec service sessionId _ ⟨request, history.files, writes⟩ hprompt]

/-- Without a default prompt the thread keeps the prompt that was last passed. -/
theorem systemPrompt_execAll (hdefault : service.defaultSystemPrompt = none)
    (runs : List PromptedRun) :
    (service.execAll sessionId runs).systemPrompt = lastOverride runs := by
  obtain ⟨-, hskills, hmemory⟩ := (defaultSystemPrompt_eq_none_iff service).mp hdefault
  induction runs using List.reverseRecOn with
  | nil => rfl
  | append_singleton runs run ih =>
      have hprompt : service.runPrompt run.files run.request = .ok run.request.systemPrompt := by
        unfold PromptService.runPrompt
        cases run.request.systemPrompt with
        | none => exact congrArg Except.ok hdefault
        | some passed =>
            simp only [composePrompt_some, hskills, Bool.false_eq_true, if_false,
              PromptConfig.withMemory, hmemory]
      simp only [PromptService.execAll, List.foldl_append, List.foldl_cons, List.foldl_nil]
      rw [systemPrompt_exec service sessionId _ run hprompt]
      simp only [PromptService.execAll] at ih
      rw [ih]
      cases hpassed : run.request.systemPrompt <;> simp [lastOverride, hpassed]

end Thread

section Leak

variable {safeLoad : String → Except String Value} (service : PromptService safeLoad)
  (sessionId : String) {first second : PromptHistory} {request : RunRequest}

theorem shownPrompt_eq_iff {prompt prompt' : Option String} :
    shownPrompt prompt = shownPrompt prompt' ↔
      prompt.filter (· ≠ "") = prompt'.filter (· ≠ "") := by
  have hinjective : Function.Injective Message.system := by
    intro a b h
    simpa [Message.system] using h
  exact (Option.map_injective hinjective).eq_iff

theorem shownPrompt_injective {a b : String} (h : shownPrompt (some a) = shownPrompt (some b)) :
    a = b := by
  rw [shownPrompt_eq_iff] at h
  by_cases ha : a = "" <;> by_cases hb : b = "" <;> simp_all [Option.filter]

theorem toOption_map {ε α β : Type} (f : α → β) (result : Except ε α) :
    (result.map f).toOption = result.toOption.map f := by
  cases result <;> rfl

/-- What a run passes is composed with the skills of its own time only. -/
theorem sameSystemMessage_of_passed {passed : String} (hpassed : request.systemPrompt = some passed) :
    service.SameSystemMessage sessionId first second request ↔
      service.FindsSameSkills first.files second.files := by
  unfold PromptService.SameSystemMessage PromptService.FindsSameSkills
  simp only [systemMessage_eq, PromptService.runPrompt, hpassed, composePrompt_some]
  cases hskills : service.skills with
  | false => simp [Except.toOption]
  | true =>
      have hinjective : Function.Injective fun instructions =>
          shownPrompt (some (service.withMemory (composeSkills (some passed) instructions))) := by
        intro a b h
        exact composeSkills_injective (withMemory_injective _ (shownPrompt_injective h))
      simp only [if_true, toOption_map, Option.map_map, Function.comp_def, Option.some_or,
        forall_const]
      exact (Option.map_injective hinjective).eq_iff

/-- What a run without a prompt finds is the default, or what was last passed. -/
theorem sameSystemMessage_of_not_passed (hpassed : request.systemPrompt = none) :
    service.SameSystemMessage sessionId first second request ↔
      (service.defaultSystemPrompt = none →
        (lastOverride first.runs).filter (· ≠ "") = (lastOverride second.runs).filter (· ≠ "")) := by
  unfold PromptService.SameSystemMessage
  simp only [systemMessage_eq, PromptService.runPrompt, hpassed]
  cases hdefault : service.defaultSystemPrompt with
  | some prompt => simp [Except.toOption]
  | none =>
      simp only [Except.toOption, Option.map_some, Option.none_or,
        systemPrompt_execAll service sessionId hdefault, Option.some.injEq, shownPrompt_eq_iff,
        forall_const]

end Leak

/-- The front message of a run depends on nothing that earlier runs did, exactly when a
prompt that it passes meets the same skills, and a run without one has a default or
follows the same last prompt. -/
theorem sameSystemMessage_iff {safeLoad : String → Except String Value}
    (service : PromptService safeLoad) (sessionId : String) (first second : PromptHistory)
    (request : RunRequest) :
    service.SameSystemMessage sessionId first second request ↔
      (request.systemPrompt ≠ none → service.FindsSameSkills first.files second.files) ∧
        (request.systemPrompt = none → service.defaultSystemPrompt = none →
          (lastOverride first.runs).filter (· ≠ "") =
            (lastOverride second.runs).filter (· ≠ "")) := by
  cases hpassed : request.systemPrompt with
  | some passed => simp [sameSystemMessage_of_passed service sessionId hpassed]
  | none => simp [sameSystemMessage_of_not_passed service sessionId hpassed]

/-- A service without a persona, skills and memory. -/
def bareService : PromptService fun _ => .ok .null where
  systemPrompt := none
  personaFile := none
  skills := false
  memory := none
  defaultSystemPrompt := none
  resolved := ⟨[], none, rfl, rfl⟩

/-- One completion over HTTP, and the next run on the thread is still told to be
careful; without the completion it has no system message. -/
theorem override_outlives_its_run :
    let http : PromptedRun := ⟨httpRequest "be careful" "hi", [], []⟩
    let next : RunRequest := ⟨.text "hello", none, none⟩
    bareService.systemMessage "shared:1" ⟨[], []⟩ next [] = some none ∧
      bareService.systemMessage "shared:1" ⟨[http], []⟩ next [] =
        some (some (.system "be careful")) ∧
      ¬ bareService.SameSystemMessage "shared:1" ⟨[], []⟩ ⟨[http], []⟩ next := by
  refine ⟨rfl, rfl, fun h => ?_⟩
  have hsame : some (none : Option Message) = some (some (.system "be careful")) := h [] []
  simp at hsame

end GraphAgent
