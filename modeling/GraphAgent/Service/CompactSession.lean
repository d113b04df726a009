import GraphAgent.Core.RunHistory
import GraphAgent.Core.Termination

/-!
# A forced compaction beside the runs of a thread

`compact_session` reads the last checkpoint of a thread, waits for the summary and then
writes another checkpoint over the last one. A run reads the last checkpoint when it begins;
from then on it holds the state of the thread itself, and each of its nodes that returns
saves all of it. The messages carry the ids that the reducer has assigned to them.
-/

namespace GraphAgent.CompactSession

/-- The ids of the messages of a thread. -/
def ids (messages : List Message) : List Nat := messages.filterMap Message.id

/-- The reducer gives an id to every message that comes without one. -/
def assign (next : Nat) : List Message → List Message × Nat
  | [] => ([], next)
  | m :: rest =>
      match m.id with
      | some _ => (m :: (assign next rest).1, (assign next rest).2)
      | none => (⟨some next, m.body⟩ :: (assign (next + 1) rest).1, (assign (next + 1) rest).2)

/-- What `compact_session` is doing: nothing yet, waiting for the model to summarise what it
has read, or nothing any more. -/
inductive Phase where
  | ready
  | summarising (split : Split)
  | finished

/-- A thread with the forced compaction and the run on it. `thread` is its last checkpoint,
`live` the state that a run holds while it goes on, and `overwritten` says that the forced
compaction has written since the last checkpoint of this run. `added` are the ids of the
messages that runs have added since the forced compaction read the thread, `summarised` the
ids of those that the compactions of the runs have summarised since. -/
structure State where
  thread : Run
  live : Option Run
  next : Nat
  session : Phase
  overwritten : Bool
  added : List Nat
  summarised : List Nat

/-- The steps of the forced compaction and of the runs. A run that leaves has come to its end,
waits for an approval, has failed or is cancelled. -/
inductive Action where
  | read
  | write (deltaText : String) (node : Node)
  | giveUp
  | begin (input : RunInput)
  | resume (approvalId : String) (approved : Bool)
  | node (act : Act)
  | leave

/-- The ids that a run has assigned, once the forced compaction has read the thread. -/
def State.note (s : State) (messages : List Message) : List Nat :=
  match s.session with
  | .ready => []
  | _ => s.added ++ (ids messages).filter fun id => s.next ≤ id

/-- A run holds a state, whose new messages get their ids, and saves it or does not. -/
def State.hold (s : State) (r : Run) (saves : Bool) (summarised : List Nat) : State :=
  let (messages, next) := assign s.next r.state.messages
  let named := { r with state := { r.state with messages := messages } }
  { s with
    thread := if saves || !s.overwritten then named else s.thread
    live := some named
    next := next
    overwritten := s.overwritten && !saves
    added := s.note messages
    summarised := s.summarised ++ summarised }

/-- The replacement of the forced compaction, with the ids that it gets. Where LangGraph takes
the graph to be after it is left open; no interrupt waits any more. -/
def State.replace (s : State) (replacement : List Message) (node : Node) : State :=
  let (messages, next) := assign s.next replacement
  { s with
    thread := ⟨node, { s.thread.state with messages := messages }, s.thread.metrics, [], none⟩
    next := next
    session := .finished
    overwritten := s.live.isSome }

variable (g : Graph)

/-- The split of a forced compaction, which has a token limit of one. -/
def sessionSplit (messages : List Message) : Option Split :=
  compactSplit g.countTokens 1 g.config.compactionKeepMessages messages

/-- The split of the run's own compaction. -/
def runSplit (messages : List Message) : Option Split :=
  compactSplit g.countTokens g.config.contextTokenLimit g.config.compactionKeepMessages messages

/-- The messages that a node of the run summarises. -/
def summarisedBy (messages : List Message) : Act → List Nat
  | .compact (.ok _) => ((runSplit g messages).map fun split => ids split.old).getD []
  | _ => []

/-- A node saves a checkpoint when it returns: not where it is interrupted, and not where it
raises. -/
def saves (r : Run) : Bool := r.waiting.isNone && decide (r.node ≠ .failed)

def step (s : State) : Action → Option State
  | .read =>
      match s.session with
      | .ready =>
          some { s with
            session := (sessionSplit g s.thread.state.messages).elim .finished .summarising
            added := []
            summarised := [] }
      | _ => none
  | .write deltaText node =>
      match s.session with
      | .summarising split =>
          some (s.replace (summaryMessage deltaText :: split.recent) node)
      | _ => none
  | .giveUp =>
      match s.session with
      | .summarising _ => some { s with session := .finished }
      | _ => none
  | .begin input =>
      match s.live with
      | none =>
          -- callers hand over messages of users and of the assistant, made for this run
          if ∀ m ∈ input.messages, m.id = none ∧ m.isTool = false then
            some (s.hold (.start (s.thread.state.writeInput input)) true [])
          else none
      | some _ => none
  | .resume approvalId approved =>
      match s.live with
      | none => (s.thread.step g (.resume approvalId approved)).map fun r => s.hold r true []
      | some _ => none
  | .node act =>
      match s.live, act with
      | none, _ => none
      | some _, .resume _ _ => none
      | some _, .message _ => none
      | some r, act =>
          (r.step g act).map fun r' => s.hold r' (saves r') (summarisedBy g r.state.messages act)
  | .leave =>
      match s.live with
      | none => none
      | some _ => some { s with live := none, overwritten := false }

/-- Every message has an id below the next one. -/
def Named (next : Nat) (messages : List Message) : Prop :=
  ∀ m ∈ messages, ∃ id < next, m.id = some id

/-- A thread on which nothing goes on, with an id on every message. -/
def system : Transition.System State Action where
  init s := Named s.next s.thread.state.messages ∧ s.live = none ∧ s.session = .ready ∧
    s.overwritten = false ∧ s.added = [] ∧ s.summarised = []
  step := step g

/-- What runs have added since the read is in the thread, or summarised by them. -/
def Keeps (s : State) : Prop :=
  ∀ id ∈ s.added, id ∈ s.summarised ∨ id ∈ ids s.thread.state.messages

/-- Runs have added nothing since the read but what they have summarised themselves. -/
def Quiet (s : State) : Prop := ∀ id ∈ s.added, id ∈ s.summarised

/-- The replacement of the forced compaction becomes the last checkpoint for good only while
runs have added nothing: where no run goes on that will save another checkpoint, and where
the run leaves that has saved none since. -/
def Undisturbed (s : State) : Action → Prop
  | .write _ _ => s.live = none → Quiet s
  | .leave => s.overwritten = true → Quiet s
  | _ => True

section Ids

theorem mem_ids {messages : List Message} {id : Nat} :
    id ∈ ids messages ↔ ∃ m ∈ messages, m.id = some id := by
  unfold ids
  rw [List.mem_filterMap]

theorem ids_append (messages later : List Message) :
    ids (messages ++ later) = ids messages ++ ids later :=
  List.filterMap_append

theorem assign_of_none {m : Message} (h : m.id = none) (next : Nat) (rest : List Message) :
    assign next (m :: rest) =
      (⟨some next, m.body⟩ :: (assign (next + 1) rest).1, (assign (next + 1) rest).2) := by
  rw [assign, h]

theorem assign_of_some {m : Message} {id : Nat} (h : m.id = some id) (next : Nat)
    (rest : List Message) :
    assign next (m :: rest) = (m :: (assign next rest).1, (assign next rest).2) := by
  rw [assign, h]

/-- Assigning ids leaves messages alone that have one. -/
theorem assign_named {next : Nat} {messages : List Message} (h : Named next messages)
    (later : List Message) :
    assign next (messages ++ later) = (messages ++ (assign next later).1, (assign next later).2) := by
  induction messages with
  | nil => rfl
  | cons m rest ih =>
      obtain ⟨id, -, hid⟩ := h m List.mem_cons_self
      rw [List.cons_append, assign_of_some hid,
        ih fun other hother => h other (List.mem_cons_of_mem _ hother)]
      rfl

/-- Assigning ids changes no message but for its id. -/
theorem kind_assign (next : Nat) (messages : List Message) :
    (assign next messages).1.map Message.kind = messages.map Message.kind := by
  induction messages generalizing next with
  | nil => rfl
  | cons m rest ih =>
      cases hid : m.id with
      | none =>
          rw [assign_of_none hid, List.map_cons, List.map_cons, ih]
          rfl
      | some id => rw [assign_of_some hid, List.map_cons, List.map_cons, ih]

/-- A message that has an id keeps it. -/
theorem ids_subset_assign (next : Nat) (messages : List Message) :
    ids messages ⊆ ids (assign next messages).1 := by
  induction messages generalizing next with
  | nil => exact List.Subset.refl _
  | cons m rest ih =>
      intro id hmem
      have hcons : ids (m :: rest) = m.id.toList ++ ids rest := by
        unfold ids
        cases hid : m.id <;> simp [hid]
      rw [hcons, List.mem_append] at hmem
      cases hid : m.id with
      | none =>
          rw [hid] at hmem
          rw [assign_of_none hid]
          exact List.mem_cons_of_mem _ (ih _ (hmem.resolve_left List.not_mem_nil))
      | some own =>
          rw [hid] at hmem
          rw [assign_of_some hid]
          obtain ⟨m', hm', hid'⟩ : ∃ m' ∈ m :: (assign next rest).1, m'.id = some id := by
            rcases hmem with hown | hlater
            · rw [List.mem_singleton.1 hown]
              exact ⟨m, List.mem_cons_self, hid⟩
            · obtain ⟨m', hm', hid'⟩ := mem_ids.1 (ih next hlater)
              exact ⟨m', List.mem_cons_of_mem _ hm', hid'⟩
          exact mem_ids.2 ⟨m', hm', hid'⟩

/-- The ids that messages have are below the next one. -/
def Below (next : Nat) (messages : List Message) : Prop :=
  ∀ m ∈ messages, ∀ id, m.id = some id → id < next

theorem Named.below {next : Nat} {messages : List Message} (h : Named next messages) :
    Below next messages := by
  intro m hm id hid
  obtain ⟨own, hlt, hown⟩ := h m hm
  rwa [← Option.some.inj (hown.symm.trans hid)]

theorem Below.append {next : Nat} {messages later : List Message} (h : Below next messages)
    (hlater : Below next later) : Below next (messages ++ later) := fun m hm =>
  (List.mem_append.1 hm).elim (h m) (hlater m)

theorem below_of_none {next : Nat} {messages : List Message} (h : ∀ m ∈ messages, m.id = none) :
    Below next messages := by
  intro m hm id hid
  rw [h m hm] at hid
  cases hid

/-- Repair gives no ids. -/
theorem Below.repair {next : Nat} {messages : List Message} (h : Below next messages) :
    Below next (repairToolCallPairs messages) := by
  intro m hm id hid
  rcases mem_repair hm with hm | ⟨callId, rfl⟩
  · exact h m hm id hid
  · cases hid

/-- A summary comes without an id, and the messages kept behind it are those of the history. -/
theorem Below.recent {next : Nat} {messages : List Message} (h : Below next messages)
    {countTokens : List Message → Nat} {tokenLimit keep : Int} {split : Split}
    (hsplit : compactSplit countTokens tokenLimit keep messages = some split) :
    Below next split.recent := by
  intro m hm
  refine h.repair m ?_
  rw [(compactSplit_spec hsplit).1]
  exact List.mem_append_right _ hm

theorem Below.summary {next : Nat} {messages : List Message} (h : Below next messages)
    (deltaText : String) : Below next (summaryMessage deltaText :: messages) := by
  intro m hm id hid
  rcases List.mem_cons.1 hm with rfl | hm
  · cases hid
  · exact h m hm id hid

/-- After the assignment every message has an id below the next one. -/
theorem named_assign {next : Nat} {messages : List Message} (h : Below next messages) :
    next ≤ (assign next messages).2 ∧ Named (assign next messages).2 (assign next messages).1 := by
  induction messages generalizing next with
  | nil => exact ⟨le_rfl, fun m hm => absurd hm List.not_mem_nil⟩
  | cons m rest ih =>
      have hrest : Below next rest := fun m' hm' => h m' (List.mem_cons_of_mem _ hm')
      cases hid : m.id with
      | none =>
          rw [assign_of_none hid]
          obtain ⟨hle, hnamed⟩ := @ih (next + 1) fun m' hm' id hid' =>
            Nat.lt_succ_of_lt (hrest m' hm' id hid')
          refine ⟨Nat.le_of_succ_le hle, fun m' hm' => ?_⟩
          rcases List.mem_cons.1 hm' with rfl | hm'
          · exact ⟨next, hle, rfl⟩
          · exact hnamed m' hm'
      | some id =>
          rw [assign_of_some hid]
          obtain ⟨hle, hnamed⟩ := ih hrest
          refine ⟨hle, fun m' hm' => ?_⟩
          rcases List.mem_cons.1 hm' with rfl | hm'
          · exact ⟨id, (h m' List.mem_cons_self id hid).trans_le hle, hid⟩
          · exact hnamed m' hm'

theorem Named.mono {next later : Nat} {messages : List Message} (h : Named next messages)
    (hle : next ≤ later) : Named later messages := by
  intro m hm
  obtain ⟨id, hlt, hid⟩ := h m hm
  exact ⟨id, hlt.trans_le hle, hid⟩

end Ids

section Histories

variable {messages later : List Message} {id : Nat}

/-- Whatever follows, repair keeps the message of this id. -/
def KeptIn (messages : List Message) (id : Nat) : Prop :=
  ∀ later, id ∈ ids (repairToolCallPairs (messages ++ later))

theorem KeptIn.mem (h : KeptIn messages id) : id ∈ ids (repairToolCallPairs messages) := by
  have hnil := h []
  rwa [List.append_nil] at hnil

theorem KeptIn.append (h : KeptIn messages id) (later : List Message) :
    KeptIn (messages ++ later) id := by
  intro rest
  rw [List.append_assoc]
  exact h (later ++ rest)

/-- What repair keeps is in the history. -/
theorem mem_ids_of_repair (h : id ∈ ids (repairToolCallPairs messages)) : id ∈ ids messages := by
  obtain ⟨m, hm, hid⟩ := mem_ids.1 h
  rcases mem_repair hm with hm | ⟨callId, rfl⟩
  · exact mem_ids.2 ⟨m, hm, hid⟩
  · cases hid

theorem keptIn_of_not_tool {m : Message} (hm : m ∈ messages) (htool : m.isTool = false)
    (hid : m.id = some id) : KeptIn messages id := by
  intro later
  have hfilter : m ∈ (repairToolCallPairs (messages ++ later)).filter fun m => !m.isTool := by
    rw [filter_repair, List.mem_filter, htool]
    exact ⟨List.mem_append_left _ hm, rfl⟩
  exact mem_ids.2 ⟨m, (List.mem_filter.1 hfilter).1, hid⟩

theorem keptIn_of_valid (h : ValidHistory messages) (hid : id ∈ ids messages) :
    KeptIn messages id := by
  intro later
  rw [repair_append_of_valid h, ids_append]
  exact List.mem_append_left _ hid

theorem isTool_of_kind {m other : Message} (h : m.kind = other.kind) : m.isTool = other.isTool := by
  have htool := key?_kind m
  rw [h, key?_kind] at htool
  exact (Bool.not_inj htool).symm

theorem not_tool_of_asks {m : Message} {keys : List String} (h : m.kind = .asks keys) :
    m.isTool = false := by
  have htool := key?_kind m
  rw [h] at htool
  simpa using htool.symm

/-- New messages behind a history are no tool messages, but for the results of the calls that
it ends with. -/
def Answering (messages new : List Message) : Prop :=
  (∀ m ∈ new, m.isTool = false) ∨
    ∃ (before : List Message) (m : Message) (keys : List String) (results rest : List Message),
      messages = before ++ [m] ∧ m.kind = .asks keys ∧ new = results ++ rest ∧
        results.map Message.kind = keys.map .answers ∧ ∀ m ∈ rest, m.isTool = false

/-- Repair keeps such messages under whatever ids. -/
theorem Answering.keptIn {new named : List Message} (h : Answering messages new)
    (hkinds : named.map Message.kind = new.map Message.kind) (hid : id ∈ ids named) :
    KeptIn (messages ++ named) id := by
  obtain ⟨m, hm, hnamed⟩ := mem_ids.1 hid
  have hplain : ∀ {list : List Message} {other : List Message}, m ∈ list →
      list.map Message.kind = other.map Message.kind → (∀ m ∈ other, m.isTool = false) →
      m.isTool = false := by
    intro list other hmem hsame hother
    have hkind : m.kind ∈ other.map Message.kind := by
      rw [← hsame]
      exact List.mem_map_of_mem hmem
    obtain ⟨m', hm', hkind'⟩ := List.mem_map.1 hkind
    rw [← isTool_of_kind hkind']
    exact hother m' hm'
  rcases h with hnone | ⟨before, ask, keys, results, rest, rfl, hask, rfl, hresults, hrest⟩
  · exact keptIn_of_not_tool (List.mem_append_right _ hm) (hplain hm hkinds hnone) hnamed
  · rw [List.map_append] at hkinds
    obtain ⟨answers, others, rfl, hanswers, hothers⟩ := List.map_eq_append_iff.1 hkinds
    rcases List.mem_append.1 hm with hm | hm
    · intro later
      have hround : repairToolCallPairs (before ++ [ask] ++ (answers ++ others) ++ later) =
          repairToolCallPairs before ++
            ask :: (answers ++ repairToolCallPairs (others ++ later)) := by
        have hassoc : before ++ [ask] ++ (answers ++ others) ++ later =
            before ++ ask :: (answers ++ (others ++ later)) := by simp
        rw [hassoc, repair_cut (not_tool_of_asks hask),
          repair_round hask (hanswers.trans hresults)]
      rw [hround]
      refine mem_ids.2 ⟨m, List.mem_append_right _ (List.mem_cons_of_mem _ ?_), hnamed⟩
      exact List.mem_append_left _ hm
    · refine keptIn_of_not_tool ?_ (hplain hm hothers hrest) hnamed
      exact List.mem_append_right _ (List.mem_append_right _ hm)

end Histories

section Nodes

variable {g} {messages after : List Message} {gone : List Nat} {next id : Nat}

/-- What a step of a run does to the history: it adds messages, or a summary takes the place of
those that are gone. -/
def Advances (g : Graph) (messages after : List Message) (gone : List Nat) : Prop :=
  (∃ new, after = messages ++ new ∧ (∀ m ∈ new, m.id = none) ∧ Answering messages new) ∨
    ∃ deltaText split, runSplit g messages = some split ∧ gone = ids split.old ∧
      after = summaryMessage deltaText :: split.recent

theorem advances_of_eq (h : after = messages) : Advances g messages after gone :=
  Or.inl ⟨[], by rw [h, List.append_nil], fun m hm => absurd hm List.not_mem_nil,
    Or.inl fun m hm => absurd hm List.not_mem_nil⟩

theorem id_toolMessages {calls : List ToolCall} {admissions : List Admission}
    {outcomes : Nat → ToolOutcome} :
    ∀ m ∈ toolMessages g calls admissions outcomes, m.id = none := by
  induction calls generalizing admissions outcomes with
  | nil =>
      intro m hm
      cases admissions <;> exact absurd hm List.not_mem_nil
  | cons call calls ih =>
      intro m hm
      cases admissions with
      | nil => exact absurd hm List.not_mem_nil
      | cons admission admissions =>
          cases admission with
          | answered content =>
              rcases List.mem_cons.1 hm with rfl | hm
              · rfl
              · exact ih m hm
          | started args =>
              rcases List.mem_cons.1 hm with rfl | hm
              · cases outcomes 0 <;> rfl
              · exact ih m hm
          | interrupted payload => exact ih m hm

/-- Results for the calls that a history ends with. -/
theorem answering_results {results rest : List Message}
    (hresults : results.map Message.kind =
      ((lastToolCalls messages).map ToolCall.callId).map .answers)
    (hrest : ∀ m ∈ rest, m.isTool = false) : Answering messages (results ++ rest) := by
  by_cases hcalls : lastToolCalls messages = []
  · rw [hcalls, List.map_nil, List.map_nil, List.map_eq_nil_iff] at hresults
    left
    rwa [hresults]
  · obtain ⟨before, messageId, text, hmessages⟩ := exists_of_lastToolCalls hcalls
    refine Or.inr ⟨before, _, _, results, rest, hmessages, ?_, rfl, hresults, hrest⟩
    exact Message.kind_ai text hcalls

/-- A node of the run adds messages without ids, or replaces a first part by a summary. -/
theorem advances_node {r r' : Run} {act : Act} (hstep : r.step g act = some r')
    (hmessage : ∀ input, act ≠ .message input) :
    Advances g r.state.messages r'.state.messages (summarisedBy g r.state.messages act) := by
  cases act with
  | compact summary =>
      obtain ⟨-, rfl⟩ := Run.step_compact hstep
      unfold compactStep
      split
      case h_1 => exact advances_of_eq rfl
      case h_2 split hsplit =>
        cases summary with
        | error exc => exact advances_of_eq rfl
        | ok deltaText =>
            refine Or.inr ⟨deltaText, split, hsplit, ?_, rfl⟩
            have hrun : runSplit g r.state.messages = some split := hsplit
            simp only [summarisedBy, hrun]
            rfl
  | reply chunks error =>
      obtain ⟨-, rfl⟩ := Run.step_reply hstep
      have hplain : ∀ (content : String) (calls : List ToolCall),
          Advances g r.state.messages (r.state.messages ++ [.ai content calls])
            (summarisedBy g r.state.messages (.reply chunks error)) := by
        intro content calls
        refine Or.inl ⟨[.ai content calls], rfl, ?_, Or.inl ?_⟩
        · intro m hm
          rw [List.mem_singleton.1 hm]
          rfl
        · intro m hm
          rw [List.mem_singleton.1 hm]
          rfl
      cases error with
      | none => exact hplain _ _
      | some exc => exact hplain _ _
  | tools outcomes =>
      obtain ⟨-, rfl⟩ := Run.step_tools hstep
      unfold toolsStep
      split
      case h_1 => exact advances_of_eq rfl
      case h_2 hnone =>
        have hresults := kind_toolMessages (g := g) (admitAll_length _ _ _) hnone outcomes
        refine Or.inl ⟨_, rfl, id_toolMessages, ?_⟩
        have hanswering : Answering r.state.messages (_ ++ []) :=
          answering_results hresults fun m hm => absurd hm List.not_mem_nil
        rwa [List.append_nil] at hanswering
  | limit =>
      obtain ⟨-, rfl⟩ := Run.step_limit hstep
      refine Or.inl ⟨_, rfl, ?_, answering_results ?_ ?_⟩
      · intro m hm
        rcases List.mem_append.1 hm with hm | hm
        · obtain ⟨call, -, rfl⟩ := List.mem_map.1 hm
          rfl
        · rw [List.mem_singleton.1 hm]
          rfl
      · simp [kind_interrupted, Function.comp_def]
      · intro m hm
        rw [List.mem_singleton.1 hm]
        rfl
  | resume approvalId approved =>
      rcases Run.step_resume hstep with ⟨-, rfl⟩ | ⟨_, -, rfl⟩ <;> exact advances_of_eq rfl
  | message input => exact absurd rfl (hmessage input)

/-- The messages after a step have ids. What was kept in the history is kept or gone, and what
gets its id is kept. -/
theorem Advances.assigned (h : Advances g messages after gone) (hnamed : Named next messages) :
    next ≤ (assign next after).2 ∧ Named (assign next after).2 (assign next after).1 ∧
      (∀ id, KeptIn messages id → id ∈ gone ∨ KeptIn (assign next after).1 id) ∧
        ∀ id ∈ ids (assign next after).1, next ≤ id → KeptIn (assign next after).1 id := by
  have hbelow : Below next after := by
    rcases h with ⟨new, rfl, hnew, -⟩ | ⟨deltaText, split, hsplit, -, rfl⟩
    · exact hnamed.below.append (below_of_none hnew)
    · exact (hnamed.below.recent hsplit).summary deltaText
  obtain ⟨hle, hafter⟩ := named_assign hbelow
  refine ⟨hle, hafter, ?_⟩
  rcases h with ⟨new, rfl, -, hanswering⟩ | ⟨deltaText, split, hsplit, rfl, rfl⟩
  · rw [assign_named hnamed]
    refine ⟨fun id hkept => Or.inr (hkept.append _), fun id hid hge => ?_⟩
    rw [ids_append, List.mem_append] at hid
    rcases hid with hid | hid
    · obtain ⟨m, hm, hm'⟩ := mem_ids.1 hid
      obtain ⟨own, hlt, hown⟩ := hnamed m hm
      have := Option.some.inj (hown.symm.trans hm')
      omega
    · exact hanswering.keptIn (kind_assign next new) hid
  · have hvalid : ValidHistory (assign next (summaryMessage deltaText :: split.recent)).1 :=
      validHistory_of_kinds (kind_assign next _).symm
        (validHistory_plain (kind_summaryMessage deltaText) (validHistory_of_compactSplit hsplit).2)
    refine ⟨fun id hkept => ?_, fun id hid _ => keptIn_of_valid hvalid hid⟩
    have hmem := hkept.mem
    rw [(compactSplit_spec hsplit).1, ids_append, List.mem_append] at hmem
    refine hmem.imp_right fun hrecent => keptIn_of_valid hvalid (ids_subset_assign next _ ?_)
    exact hrecent

end Nodes

section Runs

variable {g} {s s' : State}

/-- What the runs have added is kept in a history, or they have summarised it. -/
def Accounted (s : State) (messages : List Message) : Prop :=
  ∀ id ∈ s.added, id ∈ s.summarised ∨ KeptIn messages id

/-- The run that goes on holds what it has added. So does the thread, unless the forced
compaction has written over what the run will save again. -/
structure Kept (s : State) : Prop where
  thread : Named s.next s.thread.state.messages
  live : ∀ r, s.live = some r → Named s.next r.state.messages ∧ Accounted s r.state.messages
  saved : s.overwritten = false → Accounted s s.thread.state.messages
  idle : s.live = none → s.overwritten = false
  split : ∀ split, s.session = .summarising split → Below s.next split.recent

/-- A step of a run from a history that holds everything. -/
theorem Kept.hold (h : Kept s) {messages : List Message} {r : Run} {gone : List Nat}
    (hnamed : Named s.next messages) (hmessages : Accounted s messages)
    (hadvances : Advances g messages r.state.messages gone) (saved : Bool) :
    Kept (s.hold r saved gone) := by
  obtain ⟨hle, hafter, hold, hnew⟩ := hadvances.assigned hnamed
  have haccounted : Accounted (s.hold r saved gone) (assign s.next r.state.messages).1 := by
    intro id hid
    have hearlier : id ∈ s.added → id ∈ s.summarised ++ gone ∨
        KeptIn (assign s.next r.state.messages).1 id := by
      intro hadded
      rcases hmessages id hadded with hsummarised | hkept
      · exact Or.inl (List.mem_append_left _ hsummarised)
      · exact (hold id hkept).imp_left (List.mem_append_right _)
    have hnote : id ∈ s.note (assign s.next r.state.messages).1 := hid
    unfold State.note at hnote
    split at hnote
    · exact absurd hnote List.not_mem_nil
    · rcases List.mem_append.1 hnote with hadded | hassigned
      · exact hearlier hadded
      · obtain ⟨hmem, hge⟩ := List.mem_filter.1 hassigned
        exact Or.inr (hnew id hmem (of_decide_eq_true hge))
  have hthread : (s.hold r saved gone).thread.state.messages =
      (assign s.next r.state.messages).1 ∨
        (saved = false ∧ s.overwritten = true) ∧ (s.hold r saved gone).thread = s.thread := by
    unfold State.hold
    cases saved <;> cases s.overwritten <;> simp
  constructor
  case thread =>
    rcases hthread with hsame | ⟨-, hsame⟩
    · rw [hsame]
      exact hafter
    · rw [hsame]
      exact h.thread.mono hle
  case live =>
    intro r' hr'
    obtain rfl := Option.some.inj hr'
    exact ⟨hafter, haccounted⟩
  case saved =>
    intro hoverwritten
    rcases hthread with hsame | ⟨⟨rfl, hover⟩, -⟩
    · rw [hsame]
      exact haccounted
    · have hstill : (s.overwritten && true) = false := hoverwritten
      rw [hover] at hstill
      cases hstill
  case idle => exact fun hnone => absurd hnone (Option.some_ne_none _)
  case split => exact fun split hsplit m hm id hid => (h.split split hsplit m hm id hid).trans_le hle

/-- The replacement of the forced compaction. -/
theorem Kept.replace (h : Kept s) {split : Split} (hsession : s.session = .summarising split)
    (deltaText : String) (node : Node) (hquiet : s.live = none → Quiet s) :
    Kept (s.replace (summaryMessage deltaText :: split.recent) node) := by
  obtain ⟨hle, hnamed⟩ := named_assign ((h.split split hsession).summary deltaText)
  constructor
  case thread => exact hnamed
  case live => exact fun r hr => ⟨(h.live r hr).1.mono hle, (h.live r hr).2⟩
  case saved =>
    intro hoverwritten id hid
    have hnone : s.live = none := Option.not_isSome_iff_eq_none.1 (ne_true_of_eq_false hoverwritten)
    exact Or.inl (hquiet hnone id hid)
  case idle =>
    intro hnone
    have hlive : s.live = none := hnone
    change s.live.isSome = false
    rw [hlive]
    rfl
  case split => exact fun split hsplit => nomatch hsplit

/-- A thread that no run goes on keeps what it has when a run begins on it. -/
theorem Kept.begin (h : Kept s) (hlive : s.live = none) {r : Run} (gone : List Nat)
    (hadvances : Advances g s.thread.state.messages r.state.messages gone) :
    Kept (s.hold r true gone) :=
  h.hold h.thread (h.saved (h.idle hlive)) hadvances true

theorem advances_begin {state : AgentState} {input : RunInput}
    (hinput : ∀ m ∈ input.messages, m.id = none ∧ m.isTool = false) :
    Advances g state.messages (Run.start (state.writeInput input)).state.messages [] :=
  Or.inl ⟨input.messages, rfl, fun m hm => (hinput m hm).1,
    Or.inl fun m hm => (hinput m hm).2⟩

/-- Every step but a disturbed one keeps what the runs have added. -/
theorem Kept.step {a : Action} (h : Kept s) (hguard : Undisturbed s a)
    (hstep : step g s a = some s') : Kept s' := by
  unfold CompactSession.step at hstep
  cases a with
  | read =>
      dsimp only at hstep
      split at hstep
      case h_2 => cases hstep
      case h_1 hready =>
        obtain rfl := Option.some.inj hstep
        have hnone : Accounted { s with added := [] } s.thread.state.messages :=
          fun id hid => absurd hid List.not_mem_nil
        refine ⟨h.thread, fun r hr => ⟨(h.live r hr).1, ?_⟩, fun _ => ?_, h.idle, ?_⟩
        · exact fun id hid => absurd hid List.not_mem_nil
        · exact fun id hid => absurd hid List.not_mem_nil
        · intro split hsplit
          cases hread : sessionSplit g s.thread.state.messages with
          | none => simp [hread] at hsplit
          | some read =>
              obtain rfl : read = split := by simpa [hread] using hsplit
              exact h.thread.below.recent hread
  | write deltaText node =>
      dsimp only at hstep
      split at hstep
      case h_2 => cases hstep
      case h_1 split hsession =>
        obtain rfl := Option.some.inj hstep
        exact h.replace hsession deltaText node hguard
  | giveUp =>
      dsimp only at hstep
      split at hstep
      case h_2 => cases hstep
      case h_1 split hsession =>
        obtain rfl := Option.some.inj hstep
        exact ⟨h.thread, h.live, h.saved, h.idle, fun split hsplit => nomatch hsplit⟩
  | begin input =>
      dsimp only at hstep
      split at hstep
      case h_2 => cases hstep
      case h_1 hlive =>
        split at hstep
        case isFalse => cases hstep
        case isTrue hinput =>
          obtain rfl := Option.some.inj hstep
          exact h.begin hlive [] (advances_begin (g := g) hinput)
  | resume approvalId approved =>
      dsimp only at hstep
      split at hstep
      case h_2 => cases hstep
      case h_1 hlive =>
        obtain ⟨r, hr, rfl⟩ := Option.map_eq_some_iff.1 hstep
        exact h.begin hlive [] (advances_node hr (fun input hinput => nomatch hinput))
  | node act =>
      dsimp only at hstep
      split at hstep
      case h_1 => cases hstep
      case h_2 => cases hstep
      case h_3 => cases hstep
      case h_4 r hlive _ hmessage =>
        obtain ⟨r', hr', rfl⟩ := Option.map_eq_some_iff.1 hstep
        obtain ⟨hnamed, haccounted⟩ := h.live r hlive
        exact h.hold hnamed haccounted (advances_node hr' hmessage) (saves r')
  | leave =>
      dsimp only at hstep
      split at hstep
      case h_1 => cases hstep
      case h_2 r hlive =>
        obtain rfl := Option.some.inj hstep
        refine ⟨h.thread, fun r hr => (nomatch hr), fun _ id hid => ?_, fun _ => rfl, h.split⟩
        cases hoverwritten : s.overwritten with
        | false => exact h.saved hoverwritten id hid
        | true => exact Or.inl (hguard hoverwritten id hid)

theorem kept_of_undisturbed (h : (system g).ReachableWithin Undisturbed s) : Kept s := by
  refine h.invariant ?_ fun s a s' hkept hguard hstep => Kept.step hkept hguard hstep
  rintro s ⟨hnamed, hlive, hready, hover, hadded, -⟩
  have hnone : Accounted s s.thread.state.messages := by
    intro id hid
    rw [hadded] at hid
    exact absurd hid List.not_mem_nil
  refine ⟨hnamed, fun r hr => ?_, fun _ => hnone, fun _ => hover, fun split hsplit => ?_⟩
  · rw [hlive] at hr
    cases hr
  · rw [hready] at hsplit
    cases hsplit

/-- When the forced compaction and the run are over, the thread has what runs have added and
not summarised, unless a step has disturbed them. -/
theorem keeps_of_undisturbed (h : (system g).ReachableWithin Undisturbed s)
    (hlive : s.live = none) : Keeps s := by
  have hkept := kept_of_undisturbed h
  intro id hid
  exact (hkept.saved (hkept.idle hlive) id hid).imp_right fun hkeptIn =>
    mem_ids_of_repair hkeptIn.mem

/-- Two messages are more than enough for a forced compaction, and far too few for a run's. -/
def keepOneGraph : Graph :=
  { defaultGraph with
    config := { defaultConfig with compactionKeepMessages := 1 }
    countTokens := approximateTokens }

/-- A thread with one turn. -/
def oneTurn : State where
  thread :=
    { node := .done
      state := { messages := [⟨some 0, .human (.str "hello")⟩, ⟨some 1, .ai "hi" []⟩] }
      metrics := .fresh
      answers := []
      waiting := none }
  live := none
  next := 2
  session := .ready
  overwritten := false
  added := []
  summarised := []

/-- The next turn, up to its agent node. -/
def nextTurn : List Action :=
  [.begin ⟨[.human (.str "and now?")], "shared:1", none, none⟩, .node (.compact (.ok ""))]

def answerNode : Action := .node (.reply [{ deltaText := "this" }] none)

theorem oneTurn_init : (system keepOneGraph).init oneTurn := by
  refine ⟨fun m hm => ?_, rfl, rfl, rfl, rfl, rfl⟩
  rcases List.mem_cons.1 hm with rfl | hm
  · exact ⟨0, by decide, rfl⟩
  · rw [List.mem_singleton.1 hm]
    exact ⟨1, by decide, rfl⟩

/-- The thread is compacted while the run waits for the model. The run saves its own messages
over the replacement, and the answer with them. -/
theorem keeps_answer_after_write : ∃ s, (system keepOneGraph).ReachableWithin Undisturbed s ∧
    s.session = .finished ∧ s.live = none ∧ s.added = [4] ∧
      ids s.thread.state.messages = [0, 1, 2, 4] ∧ Keeps s := by
  have hreach : (system keepOneGraph).ReachableWithin Undisturbed _ :=
    ⟨oneTurn, nextTurn ++ [.read, .write "greetings" .agent, answerNode, .leave], oneTurn_init,
      Transition.System.run_of_exec rfl (by
        refine Transition.System.meets_cons rfl trivial ?_
        refine Transition.System.meets_cons rfl trivial ?_
        refine Transition.System.meets_cons rfl trivial ?_
        refine Transition.System.meets_cons rfl (fun hnone => nomatch hnone) ?_
        refine Transition.System.meets_cons rfl trivial ?_
        exact Transition.System.meets_cons rfl (fun hover => nomatch hover) trivial)⟩
  exact ⟨_, hreach, rfl, rfl, rfl, rfl, keeps_of_undisturbed hreach rfl⟩

/-- The run gives its answer while the summary is being written: the answer is gone. -/
theorem answer_lost_in_write : ∃ s, (system keepOneGraph).Reachable s ∧
    s.session = .finished ∧ s.live = none ∧ s.added = [3] ∧ s.summarised = [] ∧
      ids s.thread.state.messages = [4, 2] ∧ ¬ Keeps s := by
  have hreach : (system keepOneGraph).Reachable _ :=
    Transition.System.reachable_of_exec (nextTurn ++ [.read, answerNode, .write "greetings" .done,
      .leave]) oneTurn_init rfl
  refine ⟨_, hreach, rfl, rfl, rfl, rfl, rfl, fun h => ?_⟩
  rcases h 3 (List.mem_singleton_self 3) with hsummarised | hthread
  · exact nomatch hsummarised
  · exact absurd hthread (by decide)

end Runs

end GraphAgent.CompactSession
