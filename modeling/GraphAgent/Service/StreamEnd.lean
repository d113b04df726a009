import GraphAgent.Service.GuardStream

/-!
# What the consumer of a stream receives

When no task is cancelled before its first step, a finished task has put its
None, and the consumer gets the events of the graph stream in order and once
each, followed by the end that belongs to the task. A task cancelled earlier
never enters the `try` block whose `finally` puts the None.
-/

namespace GraphAgent.GuardStream

variable {ε : Type}

/-- A task is marked exactly when it is done, and cancelled only once started. -/
structure ProduceTask.Sound (t : ProduceTask ε) : Prop where
  marked : t.marked = t.isDone
  started : t.status = .created → t.cancelling = false

/-- How the phase of a call, its task and what it received belong together. -/
def StreamOk : Phase → Option (ProduceTask ε) → List ε → Prop
  | .idle, none, received => received = []
  | .waiting _, none, received => received = []
  | .over .closed, none, received => received = []
  | .relaying, some t, received =>
      t.Sound ∧ Relay.InTransit t.emitted received t.marked t.queue
  | .closing, some t, received => t.Sound ∧ received <+: t.emitted
  | .over .closed, some t, received => t.Sound ∧ received <+: t.emitted
  | .over how, some t, received => t.Sound ∧ received = t.emitted ∧ t.ending = some how
  | _, _, _ => False

/-- The invariant of all streams at once. -/
def StreamsOk (s : State ε) : Prop :=
  ∀ call, StreamOk (s.phase call) (s.task call) (s.received call)

section Tasks

variable {t t' : ProduceTask ε}

theorem ProduceTask.Sound.fresh : (ProduceTask.fresh : ProduceTask ε).Sound := ⟨rfl, fun _ => rfl⟩

theorem ProduceTask.Sound.cancel (h : t.Sound) (hstarted : t.status ≠ .created) :
    t.cancel.Sound := by
  unfold ProduceTask.cancel
  split
  · exact h
  · exact ⟨h.marked, fun hcreated => absurd hcreated hstarted⟩

/-- A cancellation request leaves queue, events, mark and status alone. -/
theorem cancel_fields (t : ProduceTask ε) : t.cancel.status = t.status ∧
    t.cancel.emitted = t.emitted ∧ t.cancel.marked = t.marked ∧ t.cancel.queue = t.queue := by
  unfold ProduceTask.cancel
  split <;> exact ⟨rfl, rfl, rfl, rfl⟩

theorem ending_cancel (t : ProduceTask ε) : t.cancel.ending = t.ending := by
  unfold ProduceTask.ending
  rw [(cancel_fields t).1]

theorem StreamOk.cancel {phase : Phase} {received : List ε} (h : StreamOk phase (some t) received)
    (hstarted : t.status ≠ .created) : StreamOk phase (some t.cancel) received := by
  obtain ⟨hstatus, hemitted, hmarked, hqueue⟩ := cancel_fields t
  match phase, h with
  | .relaying, h => exact ⟨h.1.cancel hstarted, by rw [hemitted, hmarked, hqueue]; exact h.2⟩
  | .closing, h => exact ⟨h.1.cancel hstarted, by rw [hemitted]; exact h.2⟩
  | .over .closed, h => exact ⟨h.1.cancel hstarted, by rw [hemitted]; exact h.2⟩
  | .over .normal, h | .over .cancelledEvent, h | .over .raised, h =>
      exact ⟨h.1.cancel hstarted, by rw [hemitted, ending_cancel]; exact h.2⟩

/-- A task that is not done has put no mark. -/
theorem ProduceTask.Sound.unmarked (h : t.Sound) (hopen : t.isDone = false) : t.marked = false :=
  h.marked.trans hopen

/-- What an unfinished task does keeps the stream right if it does to the queue
what it does to the events. -/
theorem StreamOk.advance {phase : Phase} {received : List ε}
    (h : StreamOk phase (some t) received) (hopen : t.isDone = false) (hsound : t'.Sound)
    (hgrown : t.emitted <+: t'.emitted)
    (htransit : Relay.InTransit t.emitted received false t.queue →
      Relay.InTransit t'.emitted received t'.marked t'.queue) :
    StreamOk phase (some t') received := by
  have hending : ∀ {how : End}, t.ending ≠ some how := by
    intro how hsome
    rw [isDone_of_ending hsome] at hopen
    exact absurd hopen (by decide)
  match phase, h with
  | .relaying, ⟨hold, hqueue⟩ =>
      rw [hold.unmarked hopen] at hqueue
      exact ⟨hsound, htransit hqueue⟩
  | .closing, ⟨_, hreceived⟩ => exact ⟨hsound, hreceived.trans hgrown⟩
  | .over .closed, ⟨_, hreceived⟩ => exact ⟨hsound, hreceived.trans hgrown⟩
  | .over .normal, h | .over .cancelledEvent, h | .over .raised, h => exact absurd h.2.2 hending

/-- The end a task gives to its stream is never that of a closed one. -/
theorem StreamOk.ended {how : End} {received : List ε} (hsound : t.Sound)
    (hreceived : received = t.emitted) (hending : t.ending = some how) :
    StreamOk (.over how) (some t) received := by
  cases how with
  | normal => exact ⟨hsound, hreceived, hending⟩
  | cancelledEvent => exact ⟨hsound, hreceived, hending⟩
  | raised => exact ⟨hsound, hreceived, hending⟩
  | closed => exact ⟨hsound, hreceived ▸ List.prefix_rfl⟩

/-- A consumer that stops reading has received a prefix of the events. -/
theorem StreamOk.leave {task : Option (ProduceTask ε)} {phase : Phase} {received : List ε}
    (h : StreamOk phase task received) (hphase : phase = .relaying ∨ phase = .closing) :
    StreamOk .closing task received ∧ StreamOk (.over .closed) task received := by
  cases task with
  | none => rcases hphase with rfl | rfl <;> exact h.elim
  | some t =>
      rcases hphase with rfl | rfl
      · obtain ⟨hsound, htransit⟩ := h
        exact ⟨⟨hsound, htransit.received_of_sent⟩, ⟨hsound, htransit.received_of_sent⟩⟩
      · exact ⟨h, h⟩

theorem StreamOk.sound {phase : Phase} {received : List ε}
    (h : StreamOk phase (some t) received) : t.Sound := by
  match phase, h with
  | .relaying, h => exact h.1
  | .closing, h => exact h.1
  | .over .closed, h => exact h.1
  | .over .normal, h | .over .cancelledEvent, h | .over .raised, h => exact h.1

theorem StreamOk.received_of_emitted {phase : Phase} {received : List ε}
    (h : StreamOk phase (some t) received) : received <+: t.emitted := by
  match phase, h with
  | .relaying, h => exact h.2.received_of_sent
  | .closing, h => exact h.2
  | .over .closed, h => exact h.2
  | .over .normal, h | .over .cancelledEvent, h | .over .raised, h => exact h.2.1 ▸ List.prefix_rfl

theorem StreamOk.start {phase : Phase} {received : List ε}
    (h : StreamOk phase (some t) received) (hstart : t.start = some t') :
    StreamOk phase (some t') received := by
  have hsound := h.sound
  unfold ProduceTask.start at hstart
  split at hstart
  case h_2 => simp at hstart
  case h_1 hcreated =>
    have hopen : t.isDone = false := by simp [ProduceTask.isDone, hcreated]
    simp only [hsound.started hcreated, Bool.false_eq_true, if_false, Option.some.injEq] at hstart
    subst hstart
    refine h.advance hopen ⟨hsound.unmarked hopen, nofun⟩ List.prefix_rfl fun htransit => ?_
    simpa [hsound.unmarked hopen] using htransit

theorem StreamOk.emit {phase : Phase} {received : List ε} {event : ε}
    (h : StreamOk phase (some t) received) (hemit : t.emit event = some t') :
    StreamOk phase (some t') received := by
  have hsound := h.sound
  unfold ProduceTask.emit at hemit
  split at hemit
  case h_2 => simp at hemit
  case h_1 hrunning =>
    have hopen : t.isDone = false := by simp [ProduceTask.isDone, hrunning]
    obtain rfl := Option.some.inj hemit
    refine h.advance hopen ⟨hsound.marked, hsound.started⟩ (List.prefix_append _ _) fun htransit => ?_
    simpa [hsound.unmarked hopen] using htransit.put event

theorem StreamOk.finish {phase : Phase} {received : List ε} {outcome : Outcome}
    (h : StreamOk phase (some t) received) (hfinish : t.finish outcome = some t') :
    StreamOk phase (some t') received := by
  unfold ProduceTask.finish at hfinish
  split at hfinish
  case h_2 => simp at hfinish
  case h_1 hrunning =>
    have hopen : t.isDone = false := by simp [ProduceTask.isDone, hrunning]
    obtain rfl := Option.some.inj hfinish
    exact h.advance hopen ⟨rfl, nofun⟩ List.prefix_rfl fun htransit => htransit.close

end Tasks

section States

variable {session : Nat → String} {s : State ε} {call : Nat}

theorem StreamsOk.setPhase {phase : Phase} (h : StreamsOk s)
    (hcall : StreamOk phase (s.task call) (s.received call)) : StreamsOk (s.setPhase call phase) := by
  intro other
  by_cases heq : other = call
  · subst other
    simpa using hcall
  · simpa [Function.update_of_ne heq] using h other

theorem StreamsOk.setTask {t : ProduceTask ε} (h : StreamsOk s)
    (hcall : StreamOk (s.phase call) (some t) (s.received call)) : StreamsOk (s.setTask call t) := by
  intro other
  by_cases heq : other = call
  · subst other
    simpa using hcall
  · simpa [Function.update_of_ne heq] using h other

theorem StreamsOk.cancel (h : StreamsOk s)
    (hstarted : ∀ t, s.task call = some t → t.status ≠ .created) : StreamsOk (s.cancel call) := by
  unfold State.cancel
  split
  case h_1 t ht =>
    have hcall := h call
    rw [ht] at hcall
    exact h.setTask (hcall.cancel (hstarted t ht))
  case h_2 => exact h

theorem StreamsOk.forget (h : StreamsOk s) (session : Nat → String) (call : Nat) :
    StreamsOk (forget session s call) := by
  unfold GuardStream.forget
  split
  · exact h
  · exact h

/-- A call that has no task yet has received nothing. -/
theorem StreamsOk.spawn (h : StreamsOk s)
    (hphase : s.phase call = .idle ∨ ∃ old, s.phase call = .waiting old) :
    StreamsOk (spawn session s call) := by
  have hcall := h call
  have hreceived : s.received call = [] := by
    cases htask : s.task call with
    | none => rcases hphase with hphase | ⟨old, hphase⟩ <;> simpa [hphase, htask, StreamOk] using hcall
    | some t => rcases hphase with hphase | ⟨old, hphase⟩ <;> simp [hphase, htask, StreamOk] at hcall
  have hspawned : StreamsOk ((s.setTask call .fresh).setPhase call .relaying) := by
    intro other
    by_cases heq : other = call
    · subst other
      simpa [StreamOk, hreceived] using ⟨ProduceTask.Sound.fresh, Relay.inTransit_empty⟩
    · simpa [Function.update_of_ne heq] using h other
  exact hspawned

end States

section Runs

variable (session : Nat → String)

/-- The call whose task a step asks to be cancelled. -/
def cancelTarget (s : State ε) : Action ε → Option Nat
  | .enter call => s.active (session call)
  | .close call => some call
  | .cancelTask call => some call
  | .cancelCaller call =>
      match s.phase call with
      | .waiting old => some old
      | .closing => some call
      | _ => none
  | _ => none

/-- No step cancels a task that has not taken its first step. -/
def CancelsStarted (s : State ε) (a : Action ε) : Prop :=
  ∀ call t, cancelTarget session s a = some call → s.task call = some t → t.status ≠ .created

variable {session} {s s' : State ε} {a : Action ε} {call : Nat}

theorem StreamsOk.taskStep {act : ProduceTask ε → Option (ProduceTask ε)} (h : StreamsOk s)
    (hact : ∀ phase received t t', StreamOk phase (some t) received → act t = some t' →
      StreamOk phase (some t') received)
    (hstep : taskStep s call act = some s') : StreamsOk s' := by
  obtain ⟨t, ht, hstep⟩ := Option.bind_eq_some_iff.mp hstep
  obtain ⟨t', ht', rfl⟩ := Option.map_eq_some_iff.mp hstep
  have hcall := h call
  rw [ht] at hcall
  exact h.setTask (hact _ _ t t' hcall ht')

theorem StreamsOk.enter (h : StreamsOk s) (hguard : CancelsStarted session s (.enter call))
    (hstep : enterStep session s call = some s') : StreamsOk s' := by
  unfold enterStep at hstep
  simp only [Option.ite_none_right_eq_some] at hstep
  obtain ⟨hidle, hstep⟩ := hstep
  cases hactive : s.active (session call) with
  | none =>
      obtain rfl : GuardStream.spawn session s call = s' := by simpa [hactive] using hstep
      exact h.spawn (Or.inl hidle)
  | some old =>
      simp only [hactive] at hstep
      split at hstep
      case isTrue =>
        obtain rfl := Option.some.inj hstep
        exact h.spawn (Or.inl hidle)
      case isFalse =>
        obtain rfl := Option.some.inj hstep
        have hcancel := h.cancel fun t => hguard old t hactive
        refine hcancel.setPhase ?_
        have hcall := hcancel call
        rw [State.phase_cancel, hidle] at hcall
        cases htask : (s.cancel old).task call with
        | none => simpa [htask, StreamOk] using hcall
        | some t => simp [htask, StreamOk] at hcall

theorem StreamsOk.wake (h : StreamsOk s) (hstep : wakeStep session s call = some s') :
    StreamsOk s' := by
  unfold wakeStep at hstep
  split at hstep
  case h_1 old hphase =>
    simp only [Option.ite_none_right_eq_some, Option.some.injEq] at hstep
    obtain ⟨-, rfl⟩ := hstep
    exact h.spawn (Or.inr ⟨old, hphase⟩)
  case h_2 => simp at hstep

theorem StreamsOk.take (h : StreamsOk s) (hstep : takeStep session s call = some s') :
    StreamsOk s' := by
  have hcall := h call
  unfold takeStep at hstep
  split at hstep
  case h_2 => simp at hstep
  case h_1 t hphase ht =>
    rw [hphase, ht] at hcall
    obtain ⟨hsound, htransit⟩ := hcall
    split at hstep
    case h_1 => simp at hstep
    case h_2 event rest hqueue =>
      obtain rfl := Option.some.inj hstep
      rw [hqueue] at htransit
      intro other
      by_cases heq : other = call
      · subst other
        simpa [StreamOk, hphase] using ⟨⟨hsound.marked, hsound.started⟩, htransit.take⟩
      · simpa [Function.update_of_ne heq] using h other
    case h_3 rest hqueue =>
      obtain ⟨how, hending, rfl⟩ := Option.map_eq_some_iff.mp hstep
      rw [hqueue] at htransit
      have hover := StreamOk.ended (t := { t with queue := rest })
        ⟨hsound.marked, hsound.started⟩ htransit.take_mark.1 hending
      intro other
      by_cases heq : other = call
      · subst other
        simpa using hover
      · simpa [Function.update_of_ne heq] using h other

theorem StreamsOk.close (h : StreamsOk s) (hguard : CancelsStarted session s (.close call))
    (hstep : closeStep session s call = some s') : StreamsOk s' := by
  unfold closeStep at hstep
  simp only [Option.ite_none_right_eq_some] at hstep
  obtain ⟨hphase, hstep⟩ := hstep
  split at hstep
  case isTrue =>
    obtain rfl := Option.some.inj hstep
    have hforget := h.forget session call
    refine hforget.setPhase ((hforget call).leave (Or.inl ?_)).2
    simpa using hphase
  case isFalse =>
    obtain rfl := Option.some.inj hstep
    have hcancel := h.cancel fun t => hguard call t rfl
    refine hcancel.setPhase ((hcancel call).leave (Or.inl ?_)).1
    simpa using hphase

theorem StreamsOk.release (h : StreamsOk s) (hstep : releaseStep session s call = some s') :
    StreamsOk s' := by
  simp only [releaseStep, Option.ite_none_right_eq_some, Option.some.injEq] at hstep
  obtain ⟨⟨hphase, -⟩, rfl⟩ := hstep
  have hforget := h.forget session call
  refine hforget.setPhase ((hforget call).leave (Or.inr ?_)).2
  simpa using hphase

theorem StreamsOk.cancelCaller (h : StreamsOk s)
    (hguard : CancelsStarted session s (.cancelCaller call))
    (hstep : cancelCallerStep s call = some s') : StreamsOk s' := by
  unfold cancelCallerStep at hstep
  split at hstep
  case h_1 hphase =>
    obtain rfl := Option.some.inj hstep
    refine h.setPhase ?_
    have hcall := h call
    rw [hphase] at hcall
    cases htask : s.task call with
    | none => simpa [htask, StreamOk] using hcall
    | some t => simp [htask, StreamOk] at hcall
  case h_2 old hphase =>
    obtain rfl := Option.some.inj hstep
    exact h.cancel fun t => hguard old t (by simp [cancelTarget, hphase])
  case h_3 hphase =>
    obtain rfl := Option.some.inj hstep
    exact h.cancel fun t => hguard call t (by simp [cancelTarget, hphase])
  case h_4 => simp at hstep

theorem StreamsOk.step (h : StreamsOk s) (hguard : CancelsStarted session s a)
    (hstep : step session s a = some s') : StreamsOk s' := by
  cases a with
  | enter call => exact h.enter hguard hstep
  | wake call => exact h.wake hstep
  | start call => exact h.taskStep (fun _ _ _ _ hok => hok.start) hstep
  | emit call event => exact h.taskStep (fun _ _ _ _ hok => hok.emit) hstep
  | finish call outcome => exact h.taskStep (fun _ _ _ _ hok => hok.finish) hstep
  | take call => exact h.take hstep
  | close call => exact h.close hguard hstep
  | release call => exact h.release hstep
  | cancelTask call =>
      simp only [GuardStream.step, Option.ite_none_right_eq_some, Option.some.injEq] at hstep
      obtain ⟨-, rfl⟩ := hstep
      exact h.cancel fun t => hguard call t rfl
  | cancelCaller call => exact h.cancelCaller hguard hstep

theorem streamsOk_initial : StreamsOk (initial : State ε) := fun _ => rfl

/-- A consumer that goes on reading gets what is queued and then the end. -/
theorem drain {t : ProduceTask ε} {how : End} {pending : List ε} (hphase : s.phase call = .relaying)
    (ht : s.task call = some t) (hqueue : t.queue = pending.map some ++ [none])
    (hending : t.ending = some how) :
    ∃ u, (system session).exec s (List.replicate (pending.length + 1) (.take call)) = some u ∧
      u.phase call = .over how ∧ u.received call = s.received call ++ pending := by
  induction pending generalizing s t with
  | nil =>
      refine ⟨(forget session (s.setTask call { t with queue := [] }) call).setPhase call
        (.over how), ?_, by simp, by simp⟩
      simp [Transition.System.exec, system, step, takeStep, hphase, ht, hqueue, hending]
  | cons event pending ih =>
      obtain ⟨u, hexec, hover, hreceived⟩ := ih (t := { t with queue := pending.map some ++ [none] })
        (s := { s.setTask call { t with queue := pending.map some ++ [none] } with
          received := Function.update s.received call (s.received call ++ [event]) })
        hphase (by simp) rfl hending
      refine ⟨u, ?_, hover, by simpa using hreceived⟩
      rw [List.length_cons, List.replicate_succ, Transition.System.exec]
      simpa [system, step, takeStep, hphase, ht, hqueue] using hexec

/-- A step that leaves the phase of a call and what it has received alone. -/
def Untouched (s s' : State ε) (call : Nat) : Prop :=
  s'.phase call = s.phase call ∧ s'.received call = s.received call

section Untouched

variable {other : Nat} {how : End}

/-- A call that is over is another one than a call that is not. -/
theorem ne_of_over (hover : s.phase call = .over how) (hother : s.phase other ≠ .over how) :
    call ≠ other := by
  rintro rfl
  exact hother hover

theorem untouched_setPhase {s₀ : State ε} {phase : Phase} (hne : call ≠ other)
    (hphase : s₀.phase = s.phase) (hreceived : s₀.received = s.received) :
    Untouched s (s₀.setPhase other phase) call := by
  constructor
  · simp [Function.update_of_ne hne, hphase]
  · simp [hreceived]

theorem untouched_cancel : Untouched s (s.cancel other) call := by
  constructor
  · rw [State.phase_cancel]
  · rw [State.received_cancel]

theorem untouched_spawn (hne : call ≠ other) : Untouched s (spawn session s other) call := by
  have hcreated : Untouched s ((s.setTask other .fresh).setPhase other .relaying) call :=
    untouched_setPhase hne rfl rfl
  exact hcreated

theorem untouched_task {act : ProduceTask ε → Option (ProduceTask ε)}
    (hstep : taskStep s other act = some s') : Untouched s s' call := by
  obtain ⟨t, -, hstep⟩ := Option.bind_eq_some_iff.mp hstep
  obtain ⟨t', -, rfl⟩ := Option.map_eq_some_iff.mp hstep
  exact ⟨rfl, rfl⟩

theorem untouched_enter (hover : s.phase call = .over how)
    (hstep : enterStep session s other = some s') : Untouched s s' call := by
  simp only [enterStep, Option.ite_none_right_eq_some] at hstep
  obtain ⟨hidle, hstep⟩ := hstep
  have hne : call ≠ other := ne_of_over hover (by simp [hidle])
  cases hactive : s.active (session other) with
  | none =>
      obtain rfl : spawn session s other = s' := by simpa [hactive] using hstep
      exact untouched_spawn hne
  | some old =>
      simp only [hactive] at hstep
      split at hstep
      case isTrue =>
        obtain rfl := Option.some.inj hstep
        exact untouched_spawn hne
      case isFalse =>
        obtain rfl := Option.some.inj hstep
        exact untouched_setPhase hne (by simp) (by simp)

theorem untouched_wake (hover : s.phase call = .over how)
    (hstep : wakeStep session s other = some s') : Untouched s s' call := by
  unfold wakeStep at hstep
  split at hstep
  case h_1 old hwait =>
    simp only [Option.ite_none_right_eq_some, Option.some.injEq] at hstep
    obtain ⟨-, rfl⟩ := hstep
    exact untouched_spawn (ne_of_over hover (by simp [hwait]))
  case h_2 => simp at hstep

theorem untouched_take (hover : s.phase call = .over how)
    (hstep : takeStep session s other = some s') : Untouched s s' call := by
  unfold takeStep at hstep
  split at hstep
  case h_2 => simp at hstep
  case h_1 t hrelaying ht =>
    have hne : call ≠ other := ne_of_over hover (by simp [hrelaying])
    split at hstep
    case h_1 => simp at hstep
    case h_2 event rest hqueue =>
      obtain rfl := Option.some.inj hstep
      exact ⟨rfl, Function.update_of_ne hne _ _⟩
    case h_3 rest hqueue =>
      obtain ⟨how', -, rfl⟩ := Option.map_eq_some_iff.mp hstep
      exact untouched_setPhase hne (by simp) (by simp)

theorem untouched_close (hover : s.phase call = .over how)
    (hstep : closeStep session s other = some s') : Untouched s s' call := by
  simp only [closeStep, Option.ite_none_right_eq_some] at hstep
  obtain ⟨hrelaying, hstep⟩ := hstep
  have hne : call ≠ other := ne_of_over hover (by simp [hrelaying])
  split at hstep
  case isTrue =>
    obtain rfl := Option.some.inj hstep
    exact untouched_setPhase hne (by simp) (by simp)
  case isFalse =>
    obtain rfl := Option.some.inj hstep
    exact untouched_setPhase hne (by simp) (by simp)

theorem untouched_release (hover : s.phase call = .over how)
    (hstep : releaseStep session s other = some s') : Untouched s s' call := by
  simp only [releaseStep, Option.ite_none_right_eq_some, Option.some.injEq] at hstep
  obtain ⟨⟨hclosing, -⟩, rfl⟩ := hstep
  exact untouched_setPhase (ne_of_over hover (by simp [hclosing])) (by simp) (by simp)

theorem untouched_cancelCaller (hover : s.phase call = .over how)
    (hstep : cancelCallerStep s other = some s') : Untouched s s' call := by
  unfold cancelCallerStep at hstep
  split at hstep
  case h_1 hidle =>
    obtain rfl := Option.some.inj hstep
    exact untouched_setPhase (ne_of_over hover (by simp [hidle])) rfl rfl
  case h_2 =>
    obtain rfl := Option.some.inj hstep
    exact untouched_cancel
  case h_3 =>
    obtain rfl := Option.some.inj hstep
    exact untouched_cancel
  case h_4 => simp at hstep

/-- A stream that is over stays as it is. -/
theorem untouched_of_over (hover : s.phase call = .over how)
    (hstep : step session s a = some s') : Untouched s s' call := by
  cases a with
  | enter other => exact untouched_enter hover hstep
  | wake other => exact untouched_wake hover hstep
  | start other => exact untouched_task hstep
  | emit other event => exact untouched_task hstep
  | finish other outcome => exact untouched_task hstep
  | take other => exact untouched_take hover hstep
  | close other => exact untouched_close hover hstep
  | release other => exact untouched_release hover hstep
  | cancelTask other =>
      simp only [step, Option.ite_none_right_eq_some, Option.some.injEq] at hstep
      obtain ⟨-, rfl⟩ := hstep
      exact untouched_cancel
  | cancelCaller other => exact untouched_cancelCaller hover hstep

end Untouched

/-- Whatever happens next, a stream that is over gets no second end and no more events. -/
theorem over_run {how : End} {as : List (Action ε)}
    (run : (system session).Run (fun _ _ => True) s as s') (hover : s.phase call = .over how) :
    s'.phase call = .over how ∧ s'.received call = s.received call := by
  refine run.preserves (I := fun u => u.phase call = .over how ∧ u.received call = s.received call)
    ⟨hover, rfl⟩ ?_
  rintro u a v ⟨hu, hreceived⟩ - hstep
  obtain ⟨hphase, hsame⟩ := untouched_of_over hu hstep
  exact ⟨hphase.trans hu, hsame.trans hreceived⟩

variable (session)

/-- The terminating None is there once a task is done, and the consumer gets the
events of the graph stream in order and once each, and then one end. -/
structure DeliversAll (s : State ε) : Prop where
  marked : ∀ call t, s.task call = some t → t.isDone = true → t.marked = true
  ordered : ∀ call t, s.task call = some t → s.received call <+: t.emitted
  drains : ∀ call t, s.task call = some t → s.phase call = .relaying → t.isDone = true →
    ∃ takes how u, t.ending = some how ∧
      (system session).exec s (List.replicate takes (.take call)) = some u ∧
      u.phase call = .over how ∧ u.received call = t.emitted
  ended : ∀ call t how, s.task call = some t → s.phase call = .over how → how ≠ .closed →
    s.received call = t.emitted ∧ t.ending = some how
  final : ∀ call how as u, s.phase call = .over how →
    (system session).Run (fun _ _ => True) s as u →
    u.phase call = .over how ∧ u.received call = s.received call

theorem ending_of_isDone {t : ProduceTask ε} (h : t.isDone = true) : ∃ how, t.ending = some how := by
  obtain ⟨outcome, hstatus⟩ := (isDone_iff t).mp h
  cases outcome <;> exact ⟨_, by rw [ProduceTask.ending, hstatus]⟩

theorem StreamsOk.deliversAll (h : StreamsOk s) : DeliversAll session s := by
  have hcall : ∀ {call t}, s.task call = some t →
      StreamOk (s.phase call) (some t) (s.received call) := fun ht => ht ▸ h _
  refine ⟨?_, ?_, ?_, ?_, fun call how as u hover run => over_run run hover⟩
  · intro call t ht hdone
    rw [(hcall ht).sound.marked, hdone]
  · intro call t ht
    exact (hcall ht).received_of_emitted
  · intro call t ht hphase hdone
    have hok := hcall ht
    rw [hphase] at hok
    obtain ⟨hsound, pending, hemitted, hqueue⟩ := hok
    rw [hsound.marked, hdone] at hqueue
    obtain ⟨how, hending⟩ := ending_of_isDone hdone
    obtain ⟨u, hexec, hover, hreceived⟩ := drain hphase ht hqueue hending
    exact ⟨_, how, u, hending, hexec, hover, hreceived.trans hemitted⟩
  · intro call t how ht hphase hnot
    have hok := hcall ht
    rw [hphase] at hok
    cases how with
    | closed => exact absurd rfl hnot
    | normal => exact hok.2
    | cancelledEvent => exact hok.2
    | raised => exact hok.2

/-- As long as only started tasks are cancelled, every finished task has put
its None and every consumer gets all events in order, followed by one end. -/
theorem deliversAll_of_cancelsStarted (session : Nat → String) {s : State ε}
    (h : (system session).ReachableWithin (CancelsStarted session) s) : DeliversAll session s := by
  have hok : StreamsOk s := by
    refine h.invariant ?_ fun s a s' hs hguard hstep => hs.step hguard hstep
    rintro s rfl
    exact streamsOk_initial
  exact hok.deliversAll session

/-- A run is cancelled by the next one after its first event. -/
theorem deliversAll_barge_in : ∃ s,
    (system (ε := String) fun _ => "s1").ReachableWithin (CancelsStarted fun _ => "s1") s ∧
      s.phase 0 = .relaying ∧ s.taskDone 0 = true ∧ DeliversAll (fun _ => "s1") s := by
  have hreach : (system (ε := String) fun _ => "s1").ReachableWithin
      (CancelsStarted fun _ => "s1") _ :=
    ⟨_, [.enter 0, .start 0, .emit 0 "delta", .enter 1, .finish 0 .cancelled], rfl,
      Transition.System.run_of_exec rfl (by
        refine Transition.System.meets_cons rfl nofun (Transition.System.meets_cons rfl nofun
          (Transition.System.meets_cons rfl nofun (Transition.System.meets_cons rfl ?_
            (Transition.System.meets_cons rfl nofun trivial))))
        rintro call t ⟨⟩ ⟨⟩
        exact nofun)⟩
  exact ⟨_, hreach, rfl, rfl, deliversAll_of_cancelsStarted _ hreach⟩

/-- A run that is cancelled before its task took a step leaves its consumer
waiting on the empty queue of a finished task. -/
theorem consumer_left_waiting : ∃ s, (system (ε := String) fun _ => "s1").Reachable s ∧
    s.phase 0 = .relaying ∧
    (∃ t, s.task 0 = some t ∧ t.isDone = true ∧ t.marked = false ∧ t.queue = []) ∧
    ¬ DeliversAll (fun _ => "s1") s := by
  have hreach : (system (ε := String) fun _ => "s1").Reachable _ :=
    Transition.System.reachable_of_exec (s := initial) [.enter 0, .enter 1, .start 0] rfl rfl
  refine ⟨_, hreach, rfl, ⟨_, rfl, rfl, rfl, rfl⟩, fun h => ?_⟩
  exact absurd (h.marked 0 _ rfl rfl) (by decide)

end Runs

end GraphAgent.GuardStream
