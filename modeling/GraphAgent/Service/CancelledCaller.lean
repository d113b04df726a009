import GraphAgent.Service.GuardStream

/-!
# Callers that are cancelled before their task exists

`_cancel_task` suppresses every `CancelledError` that reaches its await: that of
the older task, and also the one of the caller itself. A caller that is cancelled
there goes on to create its task.
-/

namespace GraphAgent.GuardStream

variable {ε : Type} {session : Nat → String} {s s' : State ε} {call other : Nat}

/-- The graph is executed on behalf of a call: the body of its task has been entered. -/
def Executing (s : State ε) (call : Nat) : Prop :=
  ∃ t, s.task call = some t ∧ t.status = .running

/-- Nothing that happens from now on executes the graph on behalf of a call. -/
def NeverExecutes (session : Nat → String) (s : State ε) (call : Nat) : Prop :=
  ∀ as s', (system session).exec s as = some s' → ¬ Executing s' call

section Moves

/-- A phase before which nothing is awaited any more. -/
def Phase.IsPast (phase : Phase) : Prop := phase ≠ .idle ∧ ∀ old, phase ≠ .waiting old

/-- Calls may go on to a phase in which they do not wait, and be forgotten; the same
calls have a task. -/
structure Settles (s s' : State ε) : Prop where
  phase : ∀ call, s'.phase call = s.phase call ∨ (s'.phase call).IsPast
  active : ∀ name call, s'.active name = some call → s.active name = some call
  tasks : ∀ call, (s'.task call).isSome = (s.task call).isSome

theorem Settles.trans {s₁ s₂ s₃ : State ε} (h₁ : Settles s₁ s₂) (h₂ : Settles s₂ s₃) :
    Settles s₁ s₃ where
  phase call := by
    rcases h₂.phase call with hsame | hpast
    · rw [hsame]
      exact h₁.phase call
    · exact Or.inr hpast
  active name call h := h₁.active name call (h₂.active name call h)
  tasks call := (h₂.tasks call).trans (h₁.tasks call)

theorem settles_setPhase {phase : Phase} (h : phase.IsPast) : Settles s (s.setPhase call phase) where
  phase other := by
    rw [State.phase_setPhase]
    by_cases heq : other = call
    · subst heq
      rw [Function.update_self]
      exact Or.inr h
    · exact Or.inl (Function.update_of_ne heq _ _)
  active _ _ h := h
  tasks _ := rfl

theorem settles_setTask {t : ProduceTask ε} (ht : s.task call = some t) (t' : ProduceTask ε) :
    Settles s (s.setTask call t') where
  phase _ := Or.inl rfl
  active _ _ h := h
  tasks other := by
    rw [State.task_setTask]
    by_cases heq : other = call
    · subst heq
      rw [Function.update_self, ht]
      rfl
    · rw [Function.update_of_ne heq]

theorem settles_cancel (s : State ε) (call : Nat) : Settles s (s.cancel call) := by
  unfold State.cancel
  split
  case h_1 t ht => exact settles_setTask ht t.cancel
  case h_2 => exact ⟨fun _ => Or.inl rfl, fun _ _ h => h, fun _ => rfl⟩

theorem settles_forget (session : Nat → String) (s : State ε) (call : Nat) :
    Settles s (forget session s call) where
  phase other := Or.inl (by rw [phase_forget])
  active name other hother := by
    unfold forget at hother
    split at hother
    case isFalse => exact hother
    case isTrue =>
      by_cases heq : name = session call
      · subst heq
        simp at hother
      · exact (Function.update_of_ne heq _ _).symm.trans hother
  tasks other := by rw [task_forget]

theorem settles_taskStep {act : ProduceTask ε → Option (ProduceTask ε)}
    (hstep : taskStep s call act = some s') : Settles s s' := by
  obtain ⟨t, ht, hstep⟩ := Option.bind_eq_some_iff.mp hstep
  obtain ⟨t', -, rfl⟩ := Option.map_eq_some_iff.mp hstep
  exact settles_setTask ht t'

theorem settles_takeStep (hstep : takeStep session s call = some s') : Settles s s' := by
  unfold takeStep at hstep
  split at hstep
  case h_2 => exact nomatch hstep
  case h_1 t _ ht =>
    split at hstep
    case h_1 => exact nomatch hstep
    case h_2 event rest _ =>
      obtain rfl := Option.some.inj hstep
      have hread := settles_setTask ht { t with queue := rest }
      exact ⟨hread.phase, hread.active, hread.tasks⟩
    case h_3 rest _ =>
      obtain ⟨how, -, rfl⟩ := Option.map_eq_some_iff.mp hstep
      exact (settles_setTask ht _).trans
        ((settles_forget session _ call).trans (settles_setPhase ⟨nofun, nofun⟩))

/-- What a step can do to the phases, to `_active` and to the calls that have a task. -/
inductive Move (session : Nat → String) (s s' : State ε) : Prop where
  | spawns (call : Nat) (before : ¬ (s.phase call).IsPast) (state : s' = spawn session s call)
  | waits (call old : Nat) (before : ¬ (s.phase call).IsPast)
      (stored : s.active (session call) = some old)
      (state : s' = (s.cancel old).setPhase call (.waiting old))
  | settles (state : Settles s s')

theorem move_enterStep (hstep : enterStep session s call = some s') : Move session s s' := by
  simp only [enterStep, Option.ite_none_right_eq_some] at hstep
  obtain ⟨hidle, hstep⟩ := hstep
  have hbefore : ¬ (s.phase call).IsPast := fun h => h.1 hidle
  split at hstep
  case h_1 => exact .spawns call hbefore (Option.some.inj hstep).symm
  case h_2 old hstored =>
    split at hstep
    case isTrue => exact .spawns call hbefore (Option.some.inj hstep).symm
    case isFalse => exact .waits call old hbefore hstored (Option.some.inj hstep).symm

theorem move_wakeStep (hstep : wakeStep session s call = some s') : Move session s s' := by
  unfold wakeStep at hstep
  split at hstep
  case h_2 => exact nomatch hstep
  case h_1 old hwait =>
    simp only [Option.ite_none_right_eq_some, Option.some.injEq] at hstep
    exact .spawns call (fun h => h.2 old hwait) hstep.2.symm

theorem settles_closeStep (hstep : closeStep session s call = some s') : Settles s s' := by
  simp only [closeStep, Option.ite_none_right_eq_some] at hstep
  obtain ⟨-, hstep⟩ := hstep
  split at hstep
  case isTrue =>
    obtain rfl := Option.some.inj hstep
    exact (settles_forget session s call).trans (settles_setPhase ⟨nofun, nofun⟩)
  case isFalse =>
    obtain rfl := Option.some.inj hstep
    exact (settles_cancel s call).trans (settles_setPhase ⟨nofun, nofun⟩)

theorem settles_cancelCallerStep (hstep : cancelCallerStep s call = some s') : Settles s s' := by
  unfold cancelCallerStep at hstep
  split at hstep
  case h_1 =>
    obtain rfl := Option.some.inj hstep
    exact settles_setPhase ⟨nofun, nofun⟩
  case h_2 old _ =>
    obtain rfl := Option.some.inj hstep
    exact settles_cancel s old
  case h_3 =>
    obtain rfl := Option.some.inj hstep
    exact settles_cancel s call
  case h_4 => exact nomatch hstep

theorem step_move {a : Action ε} (hstep : step session s a = some s') : Move session s s' := by
  cases a with
  | enter call => exact move_enterStep hstep
  | wake call => exact move_wakeStep hstep
  | start call => exact .settles (settles_taskStep hstep)
  | emit call event => exact .settles (settles_taskStep hstep)
  | finish call outcome => exact .settles (settles_taskStep hstep)
  | take call => exact .settles (settles_takeStep hstep)
  | close call => exact .settles (settles_closeStep hstep)
  | release call =>
      simp only [step, releaseStep, Option.ite_none_right_eq_some, Option.some.injEq] at hstep
      obtain ⟨-, rfl⟩ := hstep
      exact .settles ((settles_forget session s call).trans (settles_setPhase ⟨nofun, nofun⟩))
  | cancelTask call =>
      simp only [step, Option.ite_none_right_eq_some, Option.some.injEq] at hstep
      obtain ⟨-, rfl⟩ := hstep
      exact .settles (settles_cancel s call)
  | cancelCaller call => exact .settles (settles_cancelCallerStep hstep)

end Moves

section Barred

/-- A call without a task that neither stands before its entry nor waits. -/
structure Barred (s : State ε) (call : Nat) : Prop where
  task : s.task call = none
  phase : s.phase call ≠ .idle ∧ ∀ old, s.phase call ≠ .waiting old

theorem Barred.settles (h : Barred s call) (hsettles : Settles s s') : Barred s' call where
  task := by
    rw [← Option.isNone_iff_eq_none, ← Option.not_isSome, hsettles.tasks, h.task]
    rfl
  phase := by
    rcases hsettles.phase call with hsame | hpast
    · rw [hsame]
      exact h.phase
    · exact hpast

theorem Barred.setPhase (h : Barred s call) (hne : call ≠ other) (phase : Phase) :
    Barred (s.setPhase other phase) call where
  task := h.task
  phase := by
    rw [State.phase_setPhase, Function.update_of_ne hne]
    exact h.phase

/-- No step gives a task to a call that is barred. -/
theorem Barred.step {a : Action ε} (h : Barred s call) (hstep : step session s a = some s') :
    Barred s' call := by
  have hne : ∀ other, ¬ (s.phase other).IsPast → call ≠ other := by
    rintro other hbefore rfl
    exact hbefore h.phase
  cases step_move hstep with
  | spawns other hbefore hstate =>
      subst hstate
      have hphase := (h.setPhase (hne other hbefore) .relaying).phase
      refine ⟨?_, hphase⟩
      exact (Function.update_of_ne (hne other hbefore) _ _).trans h.task
  | waits other old hbefore hstored hstate =>
      subst hstate
      exact (h.settles (settles_cancel s old)).setPhase (hne other hbefore) _
  | settles hsettles => exact h.settles hsettles

theorem Barred.neverExecutes (h : Barred s call) : NeverExecutes session s call := by
  intro as s' hexec
  have hrun := Transition.System.run_of_exec hexec (Transition.System.meets_true s as)
  have hlater : Barred s' call :=
    hrun.preserves (I := fun u => Barred u call) h fun _ _ _ hu _ hstep => hu.step hstep
  rintro ⟨t, ht, -⟩
  exact nomatch hlater.task.symm.trans ht

end Barred

section Awaited

/-- A task that a call waits for, or that `_active` holds, exists. -/
structure Awaited (s : State ε) : Prop where
  waiting : ∀ call old, s.phase call = .waiting old → (s.task old).isSome = true
  active : ∀ name call, s.active name = some call → (s.task call).isSome = true

theorem Awaited.settles (h : Awaited s) (hsettles : Settles s s') : Awaited s' where
  waiting call old hwait := by
    rw [hsettles.tasks]
    rcases hsettles.phase call with hsame | hpast
    · exact h.waiting call old (hsame.symm.trans hwait)
    · exact absurd hwait (hpast.2 old)
  active name call hactive := by
    rw [hsettles.tasks]
    exact h.active name call (hsettles.active name call hactive)

theorem Awaited.setPhase (h : Awaited s) {phase : Phase}
    (hphase : ∀ old, phase = .waiting old → (s.task old).isSome = true) :
    Awaited (s.setPhase call phase) where
  waiting other old hwait := by
    rw [State.phase_setPhase] at hwait
    by_cases heq : other = call
    · subst heq
      rw [Function.update_self] at hwait
      exact hphase old hwait
    · rw [Function.update_of_ne heq] at hwait
      exact h.waiting other old hwait
  active := h.active

theorem isSome_setTask (t : ProduceTask ε) (hother : (s.task other).isSome = true) :
    ((s.setTask call t).task other).isSome = true := by
  rw [State.task_setTask]
  by_cases heq : other = call
  · subst heq
    rw [Function.update_self]
    rfl
  · rw [Function.update_of_ne heq]
    exact hother

theorem Awaited.spawn (h : Awaited s) : Awaited (spawn session s call) := by
  have htask : Awaited (s.setTask call .fresh) :=
    ⟨fun other old hwait => isSome_setTask _ (h.waiting other old hwait),
      fun name other hactive => isSome_setTask _ (h.active name other hactive)⟩
  have hcreated : Awaited ((s.setTask call .fresh).setPhase call .relaying) :=
    htask.setPhase nofun
  refine ⟨hcreated.waiting, fun name other hother => ?_⟩
  by_cases heq : name = session call
  · subst heq
    obtain rfl : call = other := by simpa [GuardStream.spawn] using hother
    simp [GuardStream.spawn]
  · simp only [GuardStream.spawn, Function.update_of_ne heq] at hother
    exact hcreated.active name other hother

theorem Awaited.step {a : Action ε} (h : Awaited s) (hstep : step session s a = some s') :
    Awaited s' := by
  cases step_move hstep with
  | spawns call _ hstate =>
      subst hstate
      exact h.spawn
  | waits call old _ hstored hstate =>
      subst hstate
      have hcancelled := h.settles (settles_cancel s old)
      apply hcancelled.setPhase
      rintro other ⟨⟩
      exact hcancelled.active (session call) old (by rw [State.active_cancel]; exact hstored)
  | settles hsettles => exact h.settles hsettles

theorem awaited_of_reachable (h : (system session).Reachable s) : Awaited s := by
  apply h.invariant
  · rintro s rfl
    exact ⟨nofun, nofun⟩
  · intro s a s' hs _ hstep
    exact hs.step hstep

end Awaited

section Swallowed

variable {old : Nat}

/-- Once the older task is done, a waiting call creates its task, and the task
enters its body. -/
theorem executes_of_taskDone (hwait : s.phase call = .waiting old) (hdone : s.taskDone old = true) :
    ∃ s', (system session).exec s [.wake call, .start call] = some s' ∧ Executing s' call := by
  have htask : (spawn session s call).task call = some .fresh := by simp [spawn]
  refine ⟨(spawn session s call).setTask call { ProduceTask.fresh with status := .running }, ?_, ?_⟩
  · simp [Transition.System.exec, system, step, wakeStep, hwait, hdone, taskStep, htask,
      ProduceTask.start, ProduceTask.fresh]
  · exact ⟨_, Function.update_self _ _ _, rfl⟩

/-- An older task that has been cancelled comes to its end. -/
theorem taskDone_of_cancelling (hwait : s.phase call = .waiting old) {t : ProduceTask ε}
    (ht : s.task old = some t) (hcancelling : t.isDone = false → t.cancelling = true) :
    ∃ as s', (system session).exec s as = some s' ∧ s'.phase call = .waiting old ∧
      s'.taskDone old = true := by
  cases hstatus : t.status with
  | created =>
      have hcancelled : t.cancelling = true := hcancelling (by simp [ProduceTask.isDone, hstatus])
      refine ⟨[.start old], s.setTask old { t with status := .done .cancelled }, ?_, hwait, ?_⟩
      · simp [Transition.System.exec, system, step, taskStep, ht, ProduceTask.start, hstatus,
          hcancelled]
      · simp [State.taskDone, ProduceTask.isDone]
  | running =>
      refine ⟨[.finish old .cancelled], s.setTask old { t with
        status := .done .cancelled, queue := t.queue ++ [none], marked := true }, ?_, hwait, ?_⟩
      · simp [Transition.System.exec, system, step, taskStep, ht, ProduceTask.finish, hstatus]
      · simp [State.taskDone, ProduceTask.isDone]
  | done outcome =>
      refine ⟨[], s, rfl, hwait, ?_⟩
      simp [State.taskDone, ht, ProduceTask.isDone, hstatus]

/-- A caller that is cancelled while it waits for the older task swallows its
own cancellation: the graph can still be executed on its behalf. -/
theorem executes_of_waiting (h : Awaited s) (hwait : s.phase call = .waiting old) :
    ¬ NeverExecutes session (s.cancel old) call := by
  obtain ⟨t, ht⟩ := Option.isSome_iff_exists.mp (h.waiting call old hwait)
  have hcancel : (s.cancel old).task old = some t.cancel := by
    rw [State.task_cancel, Function.update_self, ht]
    rfl
  have hphase : (s.cancel old).phase call = .waiting old := by
    rw [State.phase_cancel]
    exact hwait
  have hcancelling : t.cancel.isDone = false → t.cancel.cancelling = true := by
    intro hopen
    rw [isDone_cancel] at hopen
    unfold ProduceTask.cancel
    rw [hopen]
    rfl
  obtain ⟨as, s₁, hexec₁, hwait₁, hdone₁⟩ := @taskDone_of_cancelling _ session _ _ _ hphase _
    hcancel hcancelling
  obtain ⟨s₂, hexec₂, hexecuting⟩ := @executes_of_taskDone _ session _ _ _ hwait₁ hdone₁
  intro hnever
  refine hnever (as ++ [.wake call, .start call]) s₂ ?_ hexecuting
  rw [Transition.System.exec_append, hexec₁]
  exact hexec₂

end Swallowed

/-- After a caller without a task has been cancelled the graph is never executed on
its behalf, exactly if it was not waiting for an older task to end. -/
theorem neverExecutes_iff (session : Nat → String) {s s' : State ε} {call : Nat}
    (h : (system session).Reachable s) (hnone : s.task call = none)
    (hstep : step session s (.cancelCaller call) = some s') :
    NeverExecutes session s' call ↔ ∀ old, s.phase call ≠ .waiting old := by
  have hcancelled : cancelCallerStep s call = some s' := hstep
  unfold cancelCallerStep at hcancelled
  split at hcancelled
  case h_1 hidle =>
    obtain rfl := Option.some.inj hcancelled
    have hbarred : Barred (s.setPhase call (.over .closed)) call :=
      ⟨hnone, by simp, by simp⟩
    exact iff_of_true hbarred.neverExecutes fun old hwait => nomatch hidle.symm.trans hwait
  case h_2 old hwait =>
    obtain rfl := Option.some.inj hcancelled
    exact iff_of_false (executes_of_waiting (awaited_of_reachable h) hwait) fun hnot =>
      hnot old hwait
  case h_3 hclosing =>
    obtain rfl := Option.some.inj hcancelled
    have hbarred : Barred s call := ⟨hnone, by rw [hclosing]; exact ⟨nofun, nofun⟩⟩
    exact iff_of_true (hbarred.settles (settles_cancel s call)).neverExecutes fun old hwait =>
      nomatch hclosing.symm.trans hwait
  case h_4 => exact nomatch hcancelled

/-- A call that is cancelled before it is entered, beside another one that runs. -/
theorem neverExecutes_idle : ∃ s s',
    (system (ε := String) fun _ => "s1").Reachable s ∧
      step (fun _ => "s1") s (.cancelCaller 1) = some s' ∧
      NeverExecutes (fun _ => "s1") s' 1 := by
  have hreach : (system (ε := String) fun _ => "s1").Reachable _ :=
    Transition.System.reachable_of_exec (s := initial) [.enter 0, .start 0] rfl rfl
  exact ⟨_, _, hreach, rfl, (neverExecutes_iff (fun _ => "s1") hreach rfl rfl).mpr nofun⟩

/-- The second call waits for the first one, is cancelled there, and runs. -/
theorem superseded_call_runs : ∃ s s' u,
    (system (ε := String) fun _ => "s1").Reachable s ∧ s.task 1 = none ∧
      step (fun _ => "s1") s (.cancelCaller 1) = some s' ∧
      (system (ε := String) fun _ => "s1").exec s' [.finish 0 .cancelled, .wake 1, .start 1] =
        some u ∧ Executing u 1 ∧ ¬ NeverExecutes (fun _ => "s1") s' 1 := by
  have hreach : (system (ε := String) fun _ => "s1").Reachable _ :=
    Transition.System.reachable_of_exec (s := initial) [.enter 0, .start 0, .enter 1] rfl rfl
  refine ⟨_, _, _, hreach, rfl, rfl, rfl, ⟨_, rfl, rfl⟩, fun hnever => ?_⟩
  exact hnever [.finish 0 .cancelled, .wake 1, .start 1] _ rfl ⟨_, rfl, rfl⟩

end GraphAgent.GuardStream
