import GraphAgent.Library.Dictionaries
import GraphAgent.Service.StreamEnd
import Mathlib.Data.List.ReduceOption

/-!
# Subscribers of a session

`EventBus` beside the streams of concurrent runs: `_stream_graph` publishes each event of a run
under the topic of its session before it yields it. Anyone may subscribe to a topic, read and
leave at any time. The `CancelledEvent` of a run that is superseded is made by `_guard_stream`
for the caller alone: it is not published.
-/

namespace GraphAgent.Bus

variable {ε : Type}

section Source

/-- A queue that `subscribe` has made: what waits in it, and what has been taken from it. -/
structure Subscription (ε : Type) where
  waiting : List ε
  taken : List ε

/-- All that has been put into a queue. -/
def Subscription.all (queue : Subscription ε) : List ε := queue.taken ++ queue.waiting

/-- `EventBus`: the queues of each topic. A queue goes by the number of those made before. -/
structure EventBus (ε : Type) where
  topics : List (String × List ℕ)
  queues : List (Subscription ε)

namespace EventBus

variable (bus : EventBus ε)

/-- `self._topics.get(topic, [])` -/
def subscribers (topic : String) : List ℕ := (bus.topics.lookup topic).getD []

/-- `EventBus.subscribe`. -/
def subscribe (topic : String) : EventBus ε where
  topics := Blocks.assign bus.topics (topic, bus.subscribers topic ++ [bus.queues.length])
  queues := bus.queues ++ [⟨[], []⟩]

/-- `EventBus.unsubscribe`. -/
def unsubscribe (topic : String) (queue : ℕ) : EventBus ε :=
  if queue ∈ bus.subscribers topic then
    { bus with topics := Blocks.assign bus.topics (topic, (bus.subscribers topic).erase queue) }
  else bus

/-- `await queue.put(event)`, which does not wait: the queues are unbounded. -/
def put (event : ε) (queues : List (Subscription ε)) (queue : ℕ) : List (Subscription ε) :=
  queues.modify queue fun q => { q with waiting := q.waiting ++ [event] }

/-- `EventBus.publish`. -/
def publish (topic : String) (event : ε) : EventBus ε :=
  { bus with queues := (bus.subscribers topic).foldl (put event) bus.queues }

/-- `queue.get_nowait()`, where something waits. -/
def get (queue : ℕ) : Option (EventBus ε) :=
  match bus.queues[queue]? with
  | some ⟨event :: rest, taken⟩ =>
      some { bus with queues := bus.queues.set queue ⟨rest, taken ++ [event]⟩ }
  | _ => none

/-- All that a subscriber has been sent. -/
def sent (queue : ℕ) : List ε := ((bus.queues[queue]?).map Subscription.all).getD []

end EventBus

/-- The topic of a session. -/
def topicOf (sessionId : String) : String := "session:" ++ sessionId

/-- The streams of a service and its bus. -/
structure State (ε : Type) where
  streams : GuardStream.State ε
  bus : EventBus ε

/-- A step of the streams, or of someone who uses the bus. -/
inductive Action (ε : Type) where
  | stream (action : GuardStream.Action ε)
  | subscribe (topic : String)
  | unsubscribe (topic : String) (queue : ℕ)
  | get (queue : ℕ)

variable (session : ℕ → String)

/-- What a step of the streams does to the bus: an event is published before it is yielded,
and nothing comes between. -/
def publishes (bus : EventBus ε) : GuardStream.Action ε → EventBus ε
  | .emit call event => bus.publish (topicOf (session call)) event
  | _ => bus

def step (s : State ε) : Action ε → Option (State ε)
  | .stream action =>
      (GuardStream.step session s.streams action).map fun streams =>
        ⟨streams, publishes session s.bus action⟩
  | .subscribe topic => some { s with bus := s.bus.subscribe topic }
  | .unsubscribe topic queue => some { s with bus := s.bus.unsubscribe topic queue }
  | .get queue => (s.bus.get queue).map fun bus => { s with bus := bus }

/-- What the caller of a call is given: the events that have been relayed to it, and behind them
a `CancelledEvent` where `_guard_stream` has found the task cancelled. -/
def given (cancelledEvent : String → ε) (s : GuardStream.State ε) (call : ℕ) : List ε :=
  s.received call ++
    if s.phase call = .over .cancelledEvent then [cancelledEvent (session call)] else []

/-- No call has been entered, and nobody has subscribed. -/
def initial : State ε := ⟨GuardStream.initial, ⟨[], []⟩⟩

/-- A service whose calls are on the given sessions, with its bus. -/
def system : Transition.System (State ε) (Action ε) where
  init s := s = initial
  step := step session

end Source

section Histories

/-- The call and the event of a step that yields one. -/
def Action.emitted? : Action ε → Option (ℕ × ε)
  | .stream (.emit call event) => some (call, event)
  | _ => none

/-- The events of all calls in the order of the steps. -/
def emitted (actions : List (Action ε)) : List (ℕ × ε) := actions.filterMap Action.emitted?

/-- The events of the calls of a session. -/
def eventsOf (session : ℕ → String) (sessionId : String) (actions : List (Action ε)) : List ε :=
  ((emitted actions).filter fun entry => session entry.1 = sessionId).map Prod.snd

/-- The events of one call. -/
def eventsOfCall (call : ℕ) (actions : List (Action ε)) : List ε :=
  ((emitted actions).filter fun entry => entry.1 = call).map Prod.snd

/-- How many queues have been made. -/
def subscriptions (actions : List (Action ε)) : ℕ :=
  actions.countP fun
    | .subscribe _ => true
    | _ => false

end Histories

section Queues

open EventBus

variable {bus : EventBus ε} {topic other : String} {queue id : ℕ} {event : ε}

theorem subscribers_assign {ids : List ℕ} (queues : List (Subscription ε)) :
    EventBus.subscribers ⟨Blocks.assign bus.topics (topic, ids), queues⟩ other =
      if other = topic then ids else bus.subscribers other := by
  unfold EventBus.subscribers
  rw [Dictionary.lookup_assign]
  split_ifs <;> rfl

/-- A queue that has been made stands so often among the subscribers of each topic. -/
structure Counts (count : String → ℕ) (queue : ℕ) (bus : EventBus ε) : Prop where
  made : queue < bus.queues.length
  counts : ∀ topic, (bus.subscribers topic).count queue = count topic

/-- Only queues that have been made are among the subscribers. -/
def Made (bus : EventBus ε) : Prop :=
  ∀ topic, ∀ id ∈ bus.subscribers topic, id < bus.queues.length

theorem length_foldl_put (ids : List ℕ) (queues : List (Subscription ε)) :
    (ids.foldl (put event) queues).length = queues.length := by
  induction ids generalizing queues with
  | nil => rfl
  | cons id ids ih => rw [List.foldl_cons, ih, put, List.length_modify]

/-- All that has been put into a queue of a list. -/
def sentOf (queues : List (Subscription ε)) (queue : ℕ) : List ε :=
  ((queues[queue]?).map Subscription.all).getD []

theorem sentOf_put {queues : List (Subscription ε)} (hqueue : queue < queues.length) :
    sentOf (put event queues id) queue =
      sentOf queues queue ++ if id = queue then [event] else [] := by
  unfold sentOf put
  rw [List.getElem?_modify, List.getElem?_eq_getElem hqueue]
  split_ifs with hid
  · simp [Subscription.all]
  · simp

/-- A queue gets an event as often as it stands among the subscribers. -/
theorem sentOf_foldl_put {queues : List (Subscription ε)} (hqueue : queue < queues.length)
    (ids : List ℕ) :
    sentOf (ids.foldl (put event) queues) queue =
      sentOf queues queue ++ List.replicate (ids.count queue) event := by
  induction ids generalizing queues with
  | nil => simp
  | cons id ids ih =>
      have hlength : queue < (put event queues id).length := by
        rwa [put, List.length_modify]
      rw [List.foldl_cons, ih hlength, sentOf_put hqueue, List.count_cons, List.append_assoc]
      by_cases hid : id = queue
      · subst hid
        simp [List.replicate_succ]
      · simp [hid]

variable {count : String → ℕ}

theorem Counts.publish (h : Counts count queue bus) (topic : String) (event : ε) :
    Counts count queue (bus.publish topic event) ∧
      (bus.publish topic event).sent queue =
        bus.sent queue ++ List.replicate (count topic) event := by
  refine ⟨⟨?_, h.counts⟩, ?_⟩
  · unfold EventBus.publish
    rw [length_foldl_put]
    exact h.made
  · rw [← h.counts topic]
    exact sentOf_foldl_put h.made _

theorem Counts.subscribe (h : Counts count queue bus) (topic : String) :
    Counts count queue (bus.subscribe topic) ∧
      (bus.subscribe topic).sent queue = bus.sent queue := by
  refine ⟨⟨?_, fun other => ?_⟩, ?_⟩
  · unfold EventBus.subscribe
    rw [List.length_append]
    exact Nat.lt_add_right 1 h.made
  · unfold EventBus.subscribe
    rw [subscribers_assign]
    split_ifs with hother
    · subst hother
      rw [List.count_append, h.counts]
      have hne : bus.queues.length ≠ queue := (Nat.ne_of_lt h.made).symm
      simp [hne]
    · exact h.counts other
  · unfold EventBus.sent EventBus.subscribe
    dsimp only
    rw [List.getElem?_append_left h.made]

/-- Another queue is unsubscribed, or this one from a topic that it is not in. -/
theorem Counts.unsubscribe (h : Counts count queue bus) (hid : id = queue → count topic = 0) :
    Counts count queue (bus.unsubscribe topic id) ∧
      (bus.unsubscribe topic id).sent queue = bus.sent queue := by
  unfold EventBus.unsubscribe
  split_ifs with hmem
  · refine ⟨⟨h.made, fun other => ?_⟩, rfl⟩
    rw [subscribers_assign]
    split_ifs with hother
    · subst hother
      rw [List.count_erase_of_ne, h.counts]
      rintro rfl
      have hnone := List.count_eq_zero.1 ((h.counts other).trans (hid rfl))
      exact hnone hmem
    · exact h.counts other
  · exact ⟨h, rfl⟩

theorem Counts.get {bus' : EventBus ε} (h : Counts count queue bus) (hget : bus.get id = some bus') :
    Counts count queue bus' ∧ bus'.sent queue = bus.sent queue := by
  unfold EventBus.get at hget
  split at hget
  case h_2 => cases hget
  case h_1 event rest taken hqueue =>
    obtain rfl := Option.some.inj hget
    refine ⟨⟨by rw [List.length_set]; exact h.made, h.counts⟩, ?_⟩
    unfold EventBus.sent
    dsimp only
    by_cases hid : id = queue
    · subst hid
      rw [List.getElem?_set_self h.made, hqueue]
      simp [Subscription.all]
    · rw [List.getElem?_set_ne hid]

end Queues

section Steps

variable {session : ℕ → String} {s s' : State ε} {count : String → ℕ} {queue : ℕ}

/-- What a queue is sent in a step. -/
def heardIn (session : ℕ → String) (count : String → ℕ) (action : Action ε) : List ε :=
  match action.emitted? with
  | some (call, event) => List.replicate (count (topicOf (session call))) event
  | none => []

theorem Counts.step {action : Action ε} (h : Counts count queue s.bus)
    (hkept : ∀ topic, action = .unsubscribe topic queue → count topic = 0)
    (hstep : step session s action = some s') :
    Counts count queue s'.bus ∧
      s'.bus.sent queue = s.bus.sent queue ++ heardIn session count action := by
  cases action with
  | stream action =>
      obtain ⟨streams, -, rfl⟩ := Option.map_eq_some_iff.1 hstep
      cases action with
      | emit call event => exact h.publish _ _
      | _ => exact ⟨h, (List.append_nil _).symm⟩
  | subscribe topic =>
      obtain rfl := Option.some.inj hstep
      obtain ⟨hcounts, hsent⟩ := h.subscribe topic
      exact ⟨hcounts, hsent.trans (List.append_nil _).symm⟩
  | unsubscribe topic id =>
      obtain rfl := Option.some.inj hstep
      have hid : id = queue → count topic = 0 := fun hid => hkept topic (by rw [hid])
      obtain ⟨hcounts, hsent⟩ := h.unsubscribe hid
      exact ⟨hcounts, hsent.trans (List.append_nil _).symm⟩
  | get id =>
      obtain ⟨bus, hget, rfl⟩ := Option.map_eq_some_iff.1 hstep
      obtain ⟨hcounts, hsent⟩ := h.get hget
      exact ⟨hcounts, hsent.trans (List.append_nil _).symm⟩

/-- Over a run a queue is sent what it is sent in the steps. -/
theorem Counts.exec {actions : List (Action ε)} (h : Counts count queue s.bus)
    (hkept : ∀ topic, Action.unsubscribe topic queue ∈ actions → count topic = 0)
    (hexec : (system session).exec s actions = some s') :
    Counts count queue s'.bus ∧
      s'.bus.sent queue = s.bus.sent queue ++ actions.flatMap (heardIn session count) := by
  induction actions generalizing s with
  | nil =>
      obtain rfl := Option.some.inj hexec
      exact ⟨h, (List.append_nil _).symm⟩
  | cons action actions ih =>
      obtain ⟨t, hstep, hexec⟩ := Option.bind_eq_some_iff.1 hexec
      obtain ⟨hcounts, hsent⟩ := h.step
        (fun topic hsame => hkept topic (hsame ▸ List.mem_cons_self)) hstep
      obtain ⟨hcounts, hrest⟩ := ih hcounts
        (fun topic hmem => hkept topic (List.mem_cons_of_mem _ hmem)) hexec
      refine ⟨hcounts, ?_⟩
      rw [hrest, hsent, List.flatMap_cons, List.append_assoc]

end Steps

section Subscriptions

variable {session : ℕ → String} {s s' : State ε}

/-- The queues are those that have been made, and no other one stands among the subscribers. -/
structure Numbered (history : List (Action ε)) (bus : EventBus ε) : Prop where
  length : bus.queues.length = subscriptions history
  made : Made bus

theorem subscriptions_concat (history : List (Action ε)) (action : Action ε) :
    subscriptions (history ++ [action]) = subscriptions history + subscriptions [action] :=
  List.countP_append

theorem mem_subscribers_unsubscribe {bus : EventBus ε} {topic other : String} {queue id : ℕ}
    (h : id ∈ (bus.unsubscribe topic queue).subscribers other) : id ∈ bus.subscribers other := by
  unfold EventBus.unsubscribe at h
  split_ifs at h
  · rw [subscribers_assign] at h
    split_ifs at h with hother
    · rw [hother]
      exact List.mem_of_mem_erase h
    · exact h
  · exact h

theorem Numbered.step {history : List (Action ε)} {action : Action ε}
    (h : Numbered history s.bus) (hstep : step session s action = some s') :
    Numbered (history ++ [action]) s'.bus := by
  cases action with
  | stream action =>
      obtain ⟨streams, -, rfl⟩ := Option.map_eq_some_iff.1 hstep
      have hlength : (publishes session s.bus action).queues.length = s.bus.queues.length := by
        unfold publishes
        split
        · exact length_foldl_put _ _
        · rfl
      have htopics : (publishes session s.bus action).topics = s.bus.topics := by
        unfold publishes
        split <;> rfl
      refine ⟨?_, fun topic id hid => ?_⟩
      · rw [subscriptions_concat, ← h.length]
        exact hlength
      · rw [EventBus.subscribers, htopics] at hid
        exact Nat.lt_of_lt_of_eq (h.made topic id hid) hlength.symm
  | subscribe topic =>
      obtain rfl := Option.some.inj hstep
      have hlength : (s.bus.subscribe topic).queues.length = s.bus.queues.length + 1 :=
        List.length_append
      refine ⟨?_, fun other id hid => ?_⟩
      · rw [subscriptions_concat, ← h.length]
        exact hlength
      · rw [hlength]
        unfold EventBus.subscribe at hid
        rw [subscribers_assign] at hid
        split_ifs at hid
        · rcases List.mem_append.1 hid with hid | hid
          · exact Nat.lt_succ_of_lt (h.made topic id hid)
          · rw [List.mem_singleton.1 hid]
            exact Nat.lt_succ_self _
        · exact Nat.lt_succ_of_lt (h.made other id hid)
  | unsubscribe topic queue =>
      obtain rfl := Option.some.inj hstep
      have hlength : (s.bus.unsubscribe topic queue).queues.length = s.bus.queues.length := by
        unfold EventBus.unsubscribe
        split_ifs <;> rfl
      refine ⟨?_, fun other id hid => ?_⟩
      · rw [subscriptions_concat, ← h.length]
        exact hlength
      · exact Nat.lt_of_lt_of_eq (h.made other id (mem_subscribers_unsubscribe hid)) hlength.symm
  | get queue =>
      obtain ⟨bus, hget, rfl⟩ := Option.map_eq_some_iff.1 hstep
      unfold EventBus.get at hget
      split at hget
      case h_2 => cases hget
      case h_1 event rest taken hqueue =>
        obtain rfl := Option.some.inj hget
        refine ⟨?_, fun topic id hid => ?_⟩
        · rw [subscriptions_concat, ← h.length]
          exact List.length_set
        · exact Nat.lt_of_lt_of_eq (h.made topic id hid) List.length_set.symm

/-- The invariant rule for executions with their history. -/
theorem exec_induction {I : List (Action ε) → State ε → Prop}
    (hstep : ∀ history s action s', I history s → step session s action = some s' →
      I (history ++ [action]) s')
    {history actions : List (Action ε)} (h : I history s)
    (hexec : (system session).exec s actions = some s') : I (history ++ actions) s' := by
  induction actions generalizing s history with
  | nil =>
      obtain rfl := Option.some.inj hexec
      rwa [List.append_nil]
  | cons action actions ih =>
      obtain ⟨t, hnext, hexec⟩ := Option.bind_eq_some_iff.1 hexec
      have hrest := ih (hstep _ _ _ _ h hnext) hexec
      rwa [List.append_assoc] at hrest

theorem numbered_exec {actions : List (Action ε)}
    (hexec : (system session).exec initial actions = some s) : Numbered actions s.bus := by
  have hinitial : Numbered ([] : List (Action ε)) (initial : State ε).bus :=
    ⟨rfl, fun topic id hid => by cases hid⟩
  exact exec_induction (I := fun history s => Numbered history s.bus)
    (fun _ _ _ _ h hstep => h.step hstep) hinitial hexec

/-- A new queue stands once among the subscribers of its topic, and nothing is in it. -/
theorem counts_subscribe {history : List (Action ε)} (h : Numbered history s.bus)
    (topic : String) :
    Counts (fun other => if other = topic then 1 else 0) (subscriptions history)
        (s.bus.subscribe topic) ∧
      (s.bus.subscribe topic).sent (subscriptions history) = [] := by
  have hfresh : ∀ other, (s.bus.subscribers other).count (subscriptions history) = 0 := by
    intro other
    rw [List.count_eq_zero, ← h.length]
    exact fun hmem => Nat.lt_irrefl _ (h.made other _ hmem)
  unfold EventBus.subscribe
  refine ⟨⟨?_, fun other => ?_⟩, ?_⟩
  · rw [List.length_append, ← h.length]
    exact Nat.lt_succ_self _
  · rw [subscribers_assign]
    split_ifs with hother
    · rw [List.count_append, hfresh, h.length]
      simp
    · exact hfresh other
  · unfold EventBus.sent
    rw [← h.length]
    simp [Subscription.all]

/-- A queue that has been unsubscribed stands nowhere any more. -/
theorem Counts.leave {topic : String} {queue : ℕ} {bus : EventBus ε}
    (h : Counts (fun other => if other = topic then 1 else 0) queue bus) :
    Counts (fun _ => 0) queue (bus.unsubscribe topic queue) ∧
      (bus.unsubscribe topic queue).sent queue = bus.sent queue := by
  have hmem : queue ∈ bus.subscribers topic := by
    rw [← List.count_pos_iff, h.counts, if_pos rfl]
    exact Nat.one_pos
  unfold EventBus.unsubscribe
  rw [if_pos hmem]
  refine ⟨⟨h.made, fun other => ?_⟩, rfl⟩
  rw [subscribers_assign]
  split_ifs with hother
  · rw [List.count_erase_self, h.counts, if_pos rfl]
  · rw [h.counts, if_neg hother]

theorem topicOf_inj {sessionId other : String} :
    topicOf sessionId = topicOf other ↔ sessionId = other := by
  unfold topicOf
  rw [← String.toList_inj, String.toList_append, String.toList_append,
    List.append_cancel_left_eq, String.toList_inj]

/-- A subscriber of a session's topic is sent the events of its calls. -/
theorem flatMap_heardIn (sessionId : String) (actions : List (Action ε)) :
    actions.flatMap (heardIn session fun topic => if topic = topicOf sessionId then 1 else 0) =
      eventsOf session sessionId actions := by
  induction actions with
  | nil => rfl
  | cons action actions ih =>
      rw [List.flatMap_cons, ih]
      unfold eventsOf emitted heardIn
      rw [List.filterMap_cons]
      cases haction : action.emitted? with
      | none => rfl
      | some entry =>
          obtain ⟨call, event⟩ := entry
          dsimp only
          rw [List.filter_cons]
          by_cases hsession : session call = sessionId
          · rw [if_pos (topicOf_inj.2 hsession), if_pos (by simpa using hsession)]
            rfl
          · rw [if_neg (mt topicOf_inj.1 hsession), if_neg (by simpa using hsession)]
            rfl

end Subscriptions

section Callers

open GuardStream (ProduceTask Phase)

/-- What a call has got of the events of its task: a call that waits for another one has no task
yet, and what has been taken from the queue and what is left in it is what was put into it. -/
def Carried (events : List ε) : Phase → Option (ProduceTask ε) → List ε → Prop
  | .idle, task, received => task = none ∧ received = [] ∧ events = []
  | .waiting _, task, received => task = none ∧ received = [] ∧ events = []
  | _, none, received => received = [] ∧ events = []
  | _, some t, received => t.emitted = events ∧ received ++ t.queue.reduceOption = events

variable {phase : Phase} {task : Option (ProduceTask ε)} {t t' : ProduceTask ε}
  {events received : List ε}

/-- A call with a task has been entered. -/
theorem carried_some : Carried events phase (some t) received ↔
    phase ≠ .idle ∧ (∀ old, phase ≠ .waiting old) ∧ t.emitted = events ∧
      received ++ t.queue.reduceOption = events := by
  cases phase <;> simp [Carried]

theorem carried_none : Carried events phase none received ↔ received = [] ∧ events = [] := by
  cases phase <;> simp [Carried]

/-- What a call has received begins what its task has emitted. -/
theorem Carried.isPrefix (h : Carried events phase task received) : received <+: events := by
  cases task with
  | none =>
      rw [(carried_none.1 h).1]
      exact List.nil_prefix
  | some t =>
      obtain ⟨-, -, -, hqueue⟩ := carried_some.1 h
      exact ⟨_, hqueue⟩

/-- A call that has been entered goes on to a phase in which it does not wait for another. -/
theorem Carried.goOn (h : Carried events phase task received) {phase' : Phase}
    (hidle : phase' ≠ .idle) (hwaiting : ∀ old, phase' ≠ .waiting old) :
    Carried events phase' task received := by
  cases task with
  | none => exact carried_none.2 (carried_none.1 h)
  | some t =>
      obtain ⟨-, -, hrest⟩ := carried_some.1 h
      exact carried_some.2 ⟨hidle, hwaiting, hrest⟩

/-- Before the task of a call exists there is nothing to receive. -/
theorem Carried.fresh (h : Carried events phase task received)
    (hphase : phase = .idle ∨ ∃ old, phase = .waiting old) :
    task = none ∧ received = [] ∧ events = [] := by
  rcases hphase with rfl | ⟨old, rfl⟩ <;> exact h

/-- The task changes, but neither its events nor its queue. -/
theorem Carried.retask (h : Carried events phase (some t) received)
    (hemitted : t'.emitted = t.emitted) (hqueue : t'.queue = t.queue) :
    Carried events phase (some t') received := by
  obtain ⟨hidle, hwaiting, hevents, hcarried⟩ := carried_some.1 h
  exact carried_some.2 ⟨hidle, hwaiting, hemitted.trans hevents, by rw [hqueue]; exact hcarried⟩

/-- The calls of a service, each with the events of its task. -/
def StreamsCarry (events : ℕ → List ε) (s : GuardStream.State ε) : Prop :=
  ∀ call, Carried (events call) (s.phase call) (s.task call) (s.received call)

variable {session : ℕ → String} {s s' : GuardStream.State ε} {events : ℕ → List ε} {call : ℕ}

theorem StreamsCarry.setPhase (h : StreamsCarry events s) {phase : Phase}
    (hcall : Carried (events call) phase (s.task call) (s.received call)) :
    StreamsCarry events (s.setPhase call phase) := by
  intro other
  by_cases heq : other = call
  · subst other
    simpa using hcall
  · simpa [Function.update_of_ne heq] using h other

theorem StreamsCarry.setTask (h : StreamsCarry events s) {t : ProduceTask ε}
    (hcall : Carried (events call) (s.phase call) (some t) (s.received call)) :
    StreamsCarry events (s.setTask call t) := by
  intro other
  by_cases heq : other = call
  · subst other
    simpa using hcall
  · simpa [Function.update_of_ne heq] using h other

theorem StreamsCarry.cancel (h : StreamsCarry events s) (call : ℕ) :
    StreamsCarry events (s.cancel call) := by
  unfold GuardStream.State.cancel
  split
  case h_1 t ht =>
    have hcall := h call
    rw [ht] at hcall
    obtain ⟨-, hemitted, -, hqueue⟩ := GuardStream.cancel_fields t
    exact h.setTask (hcall.retask hemitted hqueue)
  case h_2 => exact h

theorem StreamsCarry.forget (h : StreamsCarry events s) (session : ℕ → String) (call : ℕ) :
    StreamsCarry events (GuardStream.forget session s call) := by
  unfold GuardStream.forget
  split <;> exact h

theorem StreamsCarry.goOn (h : StreamsCarry events s) {phase : Phase} (hidle : phase ≠ .idle)
    (hwaiting : ∀ old, phase ≠ .waiting old) : StreamsCarry events (s.setPhase call phase) :=
  h.setPhase ((h call).goOn hidle hwaiting)

theorem StreamsCarry.spawn (h : StreamsCarry events s)
    (hphase : s.phase call = .idle ∨ ∃ old, s.phase call = .waiting old) :
    StreamsCarry events (GuardStream.spawn session s call) := by
  obtain ⟨-, hreceived, hevents⟩ := (h call).fresh hphase
  have hspawned : StreamsCarry events ((s.setTask call .fresh).setPhase call .relaying) := by
    intro other
    by_cases heq : other = call
    · subst other
      simp [Carried, hreceived, hevents, ProduceTask.fresh]
    · simpa [Function.update_of_ne heq] using h other
  exact hspawned

theorem StreamsCarry.wait (h : StreamsCarry events s) (hidle : s.phase call = .idle) (old : ℕ) :
    StreamsCarry events ((s.cancel old).setPhase call (.waiting old)) := by
  have hcancel := h.cancel old
  have hcall := (hcancel call).fresh (.inl (by simpa using hidle))
  exact hcancel.setPhase hcall

theorem StreamsCarry.enter (h : StreamsCarry events s)
    (hstep : GuardStream.enterStep session s call = some s') : StreamsCarry events s' := by
  unfold GuardStream.enterStep at hstep
  simp only [Option.ite_none_right_eq_some] at hstep
  obtain ⟨hidle, hstep⟩ := hstep
  split at hstep
  · obtain rfl := Option.some.inj hstep
    exact h.spawn (.inl hidle)
  · split_ifs at hstep
    · obtain rfl := Option.some.inj hstep
      exact h.spawn (.inl hidle)
    · obtain rfl := Option.some.inj hstep
      exact h.wait hidle _

theorem StreamsCarry.take (h : StreamsCarry events s)
    (hstep : GuardStream.takeStep session s call = some s') : StreamsCarry events s' := by
  unfold GuardStream.takeStep at hstep
  split at hstep
  case h_2 => cases hstep
  case h_1 t hphase ht =>
    have hcall := h call
    rw [hphase, ht] at hcall
    obtain ⟨hemitted, hcarried⟩ := hcall
    split at hstep
    case h_1 => cases hstep
    case h_2 event rest hqueue =>
      obtain rfl := Option.some.inj hstep
      rw [hqueue, List.reduceOption_cons_of_some] at hcarried
      intro other
      by_cases heq : other = call
      · subst other
        simp [hphase, Carried, hemitted, hcarried]
      · simpa [Function.update_of_ne heq] using h other
    case h_3 rest hqueue =>
      obtain ⟨how, -, rfl⟩ := Option.map_eq_some_iff.1 hstep
      rw [hqueue, List.reduceOption_cons_of_none] at hcarried
      have htask : StreamsCarry events (s.setTask call { t with queue := rest }) := by
        refine h.setTask ?_
        rw [hphase]
        exact ⟨hemitted, hcarried⟩
      exact (htask.forget session call).goOn (by simp) (by simp)

/-- A step of a task that neither emits an event nor changes what is queued. -/
theorem StreamsCarry.taskStep (h : StreamsCarry events s)
    {act : ProduceTask ε → Option (ProduceTask ε)}
    (hact : ∀ t t', act t = some t' → t'.emitted = t.emitted ∧
      t'.queue.reduceOption = t.queue.reduceOption)
    (hstep : GuardStream.taskStep s call act = some s') : StreamsCarry events s' := by
  obtain ⟨t, ht, hstep⟩ := Option.bind_eq_some_iff.1 hstep
  obtain ⟨t', ht', rfl⟩ := Option.map_eq_some_iff.1 hstep
  obtain ⟨hemitted, hqueue⟩ := hact t t' ht'
  have hcall := h call
  rw [ht, carried_some] at hcall
  obtain ⟨hidle, hwaiting, hevents, hcarried⟩ := hcall
  exact h.setTask (carried_some.2
    ⟨hidle, hwaiting, hemitted.trans hevents, by rw [hqueue]; exact hcarried⟩)

theorem start_keeps {t t' : ProduceTask ε} (h : t.start = some t') :
    t'.emitted = t.emitted ∧ t'.queue.reduceOption = t.queue.reduceOption := by
  unfold ProduceTask.start at h
  split at h
  case h_1 =>
    obtain rfl := Option.some.inj h
    split_ifs <;> exact ⟨rfl, rfl⟩
  case h_2 => cases h

theorem finish_keeps {t t' : ProduceTask ε} {outcome : GuardStream.Outcome}
    (h : t.finish outcome = some t') :
    t'.emitted = t.emitted ∧ t'.queue.reduceOption = t.queue.reduceOption := by
  unfold ProduceTask.finish at h
  split at h
  case h_1 =>
    obtain rfl := Option.some.inj h
    exact ⟨rfl, by simp [List.reduceOption_append]⟩
  case h_2 => cases h

/-- An event that a task emits is added to the events of its call. -/
theorem StreamsCarry.emit {event : ε} (h : StreamsCarry events s)
    (hstep : GuardStream.taskStep s call (·.emit event) = some s') :
    StreamsCarry (Function.update events call (events call ++ [event])) s' := by
  obtain ⟨t, ht, hstep⟩ := Option.bind_eq_some_iff.1 hstep
  obtain ⟨t', ht', rfl⟩ := Option.map_eq_some_iff.1 hstep
  have hemit : t.emit event = some t' := ht'
  unfold ProduceTask.emit at hemit
  split at hemit
  case h_2 => cases hemit
  case h_1 =>
    obtain rfl := Option.some.inj hemit
    have hcall := h call
    rw [ht, carried_some] at hcall
    obtain ⟨hidle, hwaiting, hevents, hcarried⟩ := hcall
    intro other
    by_cases heq : other = call
    · subst other
      rw [GuardStream.State.task_setTask, Function.update_self, Function.update_self, carried_some]
      refine ⟨hidle, hwaiting, by rw [hevents], ?_⟩
      rw [List.reduceOption_append, ← List.append_assoc, GuardStream.State.received_setTask,
        hcarried]
      rfl
    · simpa [Function.update_of_ne heq] using h other

/-- What a step of the streams adds to the events of a call. -/
def emitsIn (call : ℕ) : GuardStream.Action ε → List ε
  | .emit other event => if other = call then [event] else []
  | _ => []

theorem StreamsCarry.step {a : GuardStream.Action ε} (h : StreamsCarry events s)
    (hstep : GuardStream.step session s a = some s') :
    StreamsCarry (fun call => events call ++ emitsIn call a) s' := by
  have hsame : ∀ {t}, StreamsCarry events t → StreamsCarry (fun call => events call ++ []) t := by
    intro t ht
    simpa only [List.append_nil] using ht
  cases a with
  | emit call event =>
      have hevents : (fun other => events other ++ emitsIn other (.emit call event)) =
          Function.update events call (events call ++ [event]) := by
        funext other
        by_cases heq : other = call
        · subst other
          simp [emitsIn]
        · simp [emitsIn, Function.update_of_ne heq, Ne.symm heq]
      rw [hevents]
      exact h.emit hstep
  | enter call => exact hsame (h.enter hstep)
  | wake call =>
      simp only [GuardStream.step, GuardStream.wakeStep] at hstep
      split at hstep
      case h_1 old hphase =>
        simp only [Option.ite_none_right_eq_some, Option.some.injEq] at hstep
        obtain ⟨-, rfl⟩ := hstep
        exact hsame (h.spawn (.inr ⟨old, hphase⟩))
      case h_2 => cases hstep
  | start call => exact hsame (h.taskStep (fun _ _ => start_keeps) hstep)
  | finish call outcome => exact hsame (h.taskStep (fun _ _ => finish_keeps) hstep)
  | take call => exact hsame (h.take hstep)
  | close call =>
      simp only [GuardStream.step, GuardStream.closeStep, Option.ite_none_right_eq_some] at hstep
      obtain ⟨-, hstep⟩ := hstep
      split at hstep
      · obtain rfl := Option.some.inj hstep
        exact hsame ((h.forget session call).goOn (by simp) (by simp))
      · obtain rfl := Option.some.inj hstep
        exact hsame ((h.cancel call).goOn (by simp) (by simp))
  | release call =>
      simp only [GuardStream.step, GuardStream.releaseStep, Option.ite_none_right_eq_some,
        Option.some.injEq] at hstep
      obtain ⟨-, rfl⟩ := hstep
      exact hsame ((h.forget session call).goOn (by simp) (by simp))
  | cancelTask call =>
      simp only [GuardStream.step, Option.ite_none_right_eq_some, Option.some.injEq] at hstep
      obtain ⟨-, rfl⟩ := hstep
      exact hsame (h.cancel call)
  | cancelCaller call =>
      simp only [GuardStream.step, GuardStream.cancelCallerStep] at hstep
      split at hstep
      · obtain rfl := Option.some.inj hstep
        exact hsame (h.goOn (by simp) (by simp))
      · obtain rfl := Option.some.inj hstep
        exact hsame (h.cancel _)
      · obtain rfl := Option.some.inj hstep
        exact hsame (h.cancel call)
      · cases hstep

end Callers

section Results

variable {session : ℕ → String} {s s' : State ε}

theorem eventsOfCall_append (call : ℕ) (actions others : List (Action ε)) :
    eventsOfCall call (actions ++ others) =
      eventsOfCall call actions ++ eventsOfCall call others := by
  unfold eventsOfCall emitted
  rw [List.filterMap_append, List.filter_append, List.map_append]

/-- In every execution a call has received a front of the events of its task. -/
theorem streamsCarry_exec {actions : List (Action ε)}
    (hexec : (system session).exec initial actions = some s) :
    StreamsCarry (fun call => eventsOfCall call actions) s.streams := by
  have hinitial : StreamsCarry (fun call => eventsOfCall call ([] : List (Action ε)))
      (initial : State ε).streams := fun _ => ⟨rfl, rfl, rfl⟩
  refine exec_induction (I := fun history s =>
    StreamsCarry (fun call => eventsOfCall call history) s.streams) ?_ hinitial hexec
  intro history s action s' h hstep
  have hevents : (fun call => eventsOfCall call (history ++ [action])) =
      fun call => eventsOfCall call history ++ eventsOfCall call [action] :=
    funext fun call => eventsOfCall_append call history [action]
  rw [hevents]
  have hsame : ∀ {t : GuardStream.State ε},
      StreamsCarry (fun call => eventsOfCall call history) t →
        StreamsCarry (fun call => eventsOfCall call history ++ []) t := by
    intro t ht
    simpa only [List.append_nil] using ht
  cases action with
  | stream action =>
      obtain ⟨streams, hstreams, rfl⟩ := Option.map_eq_some_iff.1 hstep
      have hadded : (fun call => eventsOfCall call history ++
          eventsOfCall call [Action.stream action]) =
            fun call => eventsOfCall call history ++ emitsIn call action := by
        funext call
        congr 1
        cases action with
        | emit other event =>
            by_cases hother : other = call <;>
              simp [eventsOfCall, emitted, Action.emitted?, emitsIn, hother]
        | _ => rfl
      rw [hadded]
      exact h.step hstreams
  | subscribe topic =>
      obtain rfl := Option.some.inj hstep
      exact hsame h
  | unsubscribe topic queue =>
      obtain rfl := Option.some.inj hstep
      exact hsame h
  | get queue =>
      obtain ⟨bus, -, rfl⟩ := Option.map_eq_some_iff.1 hstep
      exact hsame h

/-- The events of one call are among those of its session. -/
theorem eventsOfCall_sublist {call : ℕ} {sessionId : String} (hsession : session call = sessionId)
    (actions : List (Action ε)) :
    (eventsOfCall call actions).Sublist (eventsOf session sessionId actions) := by
  apply List.Sublist.map
  apply List.monotone_filter_right
  intro entry hentry
  have hcall : entry.1 = call := by simpa using hentry
  simp [hcall, hsession]

/-- In every interleaving of runs on any sessions, subscriptions, reads and unsubscriptions: a
subscriber of a session is sent exactly the events of the runs of that session while it is
subscribed, and no caller of such a run is given an event that it is not sent, nor in another
order, but for the `CancelledEvent` at the end of a cancelled run. That one it is sent only if
the run itself has yielded it. -/
theorem subscriber_hears (session : ℕ → String) (sessionId : String)
    (cancelledEvent : String → ε) {before during rest : List (Action ε)} {s : State ε}
    (hexec : (system session).exec initial
      (before ++ .subscribe (topicOf sessionId) :: (during ++ rest)) = some s)
    (hkept : Action.unsubscribe (topicOf sessionId) (subscriptions before) ∉ during)
    (hrest : rest = [] ∨ ∃ after,
      rest = .unsubscribe (topicOf sessionId) (subscriptions before) :: after) :
    s.bus.sent (subscriptions before) = eventsOf session sessionId during ∧
      (rest = [] → ∀ call, session call = sessionId → eventsOfCall call before = [] →
        ∃ front tail, given session cancelledEvent s.streams call = front ++ tail ∧
          front.Sublist (s.bus.sent (subscriptions before)) ∧
          (tail = [] ∨ tail = [cancelledEvent sessionId] ∧
            s.streams.phase call = .over .cancelledEvent)) ∧
      ((∀ entry ∈ emitted during, entry.2 ≠ cancelledEvent sessionId) →
        cancelledEvent sessionId ∉ s.bus.sent (subscriptions before)) := by
  have hcallers := streamsCarry_exec hexec
  rw [Transition.System.exec_append] at hexec
  obtain ⟨t₀, hbefore, hexec⟩ := Option.bind_eq_some_iff.1 hexec
  have hsubscribe : (system session).step t₀ (.subscribe (topicOf sessionId)) =
      some { t₀ with bus := t₀.bus.subscribe (topicOf sessionId) } := rfl
  rw [Transition.System.exec_cons hsubscribe, Transition.System.exec_append] at hexec
  obtain ⟨t₁, hduring, hafter⟩ := Option.bind_eq_some_iff.1 hexec
  obtain ⟨hcounts, hempty⟩ := counts_subscribe (numbered_exec hbefore) (topicOf sessionId)
  obtain ⟨hcounts, hsent⟩ := hcounts.exec (fun topic hmem => by
    rw [if_neg]
    rintro rfl
    exact hkept hmem) hduring
  rw [hempty, List.nil_append, flatMap_heardIn] at hsent
  have hlast : s.bus.sent (subscriptions before) = t₁.bus.sent (subscriptions before) := by
    rcases hrest with rfl | ⟨after, rfl⟩
    · obtain rfl : t₁ = s := Option.some.inj hafter
      rfl
    · obtain ⟨hgone, hleft⟩ := hcounts.leave
      have hleave : (system session).step t₁
          (.unsubscribe (topicOf sessionId) (subscriptions before)) =
            some { t₁ with bus :=
              t₁.bus.unsubscribe (topicOf sessionId) (subscriptions before) } := rfl
      rw [Transition.System.exec_cons hleave] at hafter
      obtain ⟨-, hnothing⟩ := hgone.exec (fun _ _ => rfl) hafter
      have hnone : after.flatMap (heardIn session fun _ => 0) = [] := by
        rw [List.flatMap_eq_nil_iff]
        intro action _
        unfold heardIn
        split <;> rfl
      rw [hnothing, hnone, List.append_nil, ← hleft]
  refine ⟨hlast.trans hsent, ?_, fun hnone => ?_⟩
  · rintro rfl call hsession hnone
    have hreceived := (hcallers call).isPrefix
    dsimp only at hreceived
    rw [eventsOfCall_append, hnone, List.nil_append] at hreceived
    have hskip : eventsOfCall call (Action.subscribe (topicOf sessionId) :: (during ++ [])) =
        eventsOfCall call during := by
      rw [List.append_nil]
      rfl
    rw [hskip] at hreceived
    refine ⟨s.streams.received call, _, rfl, ?_, ?_⟩
    · rw [hlast, hsent]
      exact hreceived.sublist.trans (eventsOfCall_sublist hsession during)
    · by_cases hphase : s.streams.phase call = .over .cancelledEvent
      · rw [if_pos hphase, hsession]
        exact Or.inr ⟨rfl, hphase⟩
      · exact Or.inl (if_neg hphase)
  · rw [hlast, hsent]
    intro hmem
    obtain ⟨entry, hentry, hevent⟩ := List.mem_map.1 hmem
    exact hnone entry (List.mem_filter.1 hentry).1 hevent

/-- A second message supersedes the run of the first: the first caller is given what the
subscriber is sent, and the `CancelledEvent`. -/
theorem subscriber_hears_superseded :
    let during : List (Action String) :=
      [.stream (.enter 0), .stream (.start 0), .stream (.emit 0 "a"), .stream (.take 0),
        .stream (.enter 1), .stream (.finish 0 .cancelled), .stream (.take 0), .get 0]
    ∃ s, (system fun _ => "main").exec initial
        ([] ++ .subscribe (topicOf "main") :: (during ++ [])) = some s ∧
      s.bus.sent (subscriptions ([] : List (Action String))) = ["a"] ∧
      given (fun _ => "main") (fun _ => "cancelled") s.streams 0 = ["a", "cancelled"] ∧
      "cancelled" ∉ s.bus.sent (subscriptions ([] : List (Action String))) := by
  intro during
  have hkept : Action.unsubscribe (topicOf "main") (subscriptions ([] : List (Action String))) ∉
      during := by
    simp [during]
  have hnone : ∀ entry ∈ emitted during, entry.2 ≠ "cancelled" := by
    simp [during, emitted, Action.emitted?]
  have hexec : (system fun _ => "main").exec initial
      ([] ++ .subscribe (topicOf "main") :: (during ++ [])) = some _ := rfl
  obtain ⟨hsent, -, hcancelled⟩ :=
    subscriber_hears (fun _ => "main") "main" (fun _ => "cancelled") hexec hkept (.inl rfl)
  exact ⟨_, hexec, hsent, rfl, hcancelled hnone⟩

end Results

end GraphAgent.Bus
