import GraphAgent.Service.GuardStream

/-!
# One graph execution for each session

When calls of a session do not enter while another call of it still waits for
an older task, at most one produce task of the session is unfinished. Two calls
that wait at the same time both create a task when the older one has ended.
-/

namespace GraphAgent.GuardStream

variable {ε : Type} (session : Nat → String)

/-- What a step changes of the phases, of `_active` and of the unfinished tasks. -/
inductive Effect (s s' : State ε) (a : Action ε) : Prop where
  | spawned (call : Nat)
      (cause : (a = .enter call ∧ ∀ old, s.active (session call) = some old →
          s.taskDone old = true) ∨
        ∃ old, s.phase call = .waiting old ∧ s.taskDone old = true)
      (phase : s'.phase = Function.update s.phase call .relaying)
      (active : s'.active = Function.update s.active (session call) (some call))
      (unfinished : ∀ other, s'.Unfinished other → s.Unfinished other ∨ other = call)
  | waits (call old : Nat) (cause : a = .enter call)
      (stored : s.active (session call) = some old)
      (phase : s'.phase = Function.update s.phase call (.waiting old))
      (active : s'.active = s.active)
      (unfinished : ∀ other, s'.Unfinished other → s.Unfinished other)
  | settles
      (phase : ∀ call old, s'.phase call = .waiting old → s.phase call = .waiting old)
      (kept : ∀ name call, s'.active name = some call → s.active name = some call)
      (dropped : ∀ name call, s.active name = some call →
        s'.active name = some call ∨ ¬ s'.Unfinished call)
      (unfinished : ∀ other, s'.Unfinished other → s.Unfinished other)

variable {session}

theorem unfinished_spawn {s : State ε} {call other : Nat}
    (h : (spawn session s call).Unfinished other) : s.Unfinished other ∨ other = call := by
  obtain ⟨t, ht, hopen⟩ := h
  by_cases heq : other = call
  · exact Or.inr heq
  · exact Or.inl ⟨t, by simpa [spawn, Function.update_of_ne heq] using ht, hopen⟩

theorem effect_enter {s s' : State ε} {call : Nat} (h : enterStep session s call = some s') :
    Effect session s s' (.enter call) := by
  unfold enterStep at h
  simp only [Option.ite_none_right_eq_some] at h
  obtain ⟨-, h⟩ := h
  cases hactive : s.active (session call) with
  | none =>
      obtain rfl : spawn session s call = s' := by simpa [hactive] using h
      exact .spawned call (Or.inl ⟨rfl, by simp [hactive]⟩) rfl rfl fun _ => unfinished_spawn
  | some old =>
      simp only [hactive] at h
      split at h
      case isTrue hdone =>
        obtain rfl := Option.some.inj h
        exact .spawned call (Or.inl ⟨rfl, by simp [hactive, hdone]⟩) rfl rfl
          fun _ => unfinished_spawn
      case isFalse =>
        obtain rfl := Option.some.inj h
        exact .waits call old rfl hactive (by simp) (by simp) fun other => by simp

theorem effect_wake {s s' : State ε} {call : Nat} {a : Action ε}
    (h : wakeStep session s call = some s') : Effect session s s' a := by
  unfold wakeStep at h
  split at h
  case h_1 old hphase =>
    simp only [Option.ite_none_right_eq_some, Option.some.injEq] at h
    obtain ⟨hdone, rfl⟩ := h
    exact .spawned call (Or.inr ⟨old, hphase, hdone⟩) rfl rfl fun _ => unfinished_spawn
  case h_2 => simp at h

/-- A step that leaves the phases and `_active` alone and revives no task. -/
theorem Effect.quiet {s s' : State ε} {a : Action ε} (hphase : s'.phase = s.phase)
    (hactive : s'.active = s.active)
    (hunfinished : ∀ other, s'.Unfinished other → s.Unfinished other) :
    Effect session s s' a :=
  .settles (by simp [hphase]) (by simp [hactive]) (fun _ _ h => Or.inl (by rwa [hactive]))
    hunfinished

theorem effect_task {s s' : State ε} {call : Nat} {a : Action ε}
    {act : ProduceTask ε → Option (ProduceTask ε)}
    (hact : ∀ t t', act t = some t' → t.isDone = true → t'.isDone = true)
    (h : taskStep s call act = some s') : Effect session s s' a := by
  obtain ⟨t, ht, h⟩ := Option.bind_eq_some_iff.mp h
  obtain ⟨t', ht', rfl⟩ := Option.map_eq_some_iff.mp h
  exact .quiet rfl rfl fun other => unfinished_setTask ht (hact t t' ht')

/-- The end of a call that forgets its finished task. -/
theorem effect_forget {s s₀ s' : State ε} {call : Nat} {how : End} {a : Action ε}
    (hphase : s₀.phase = s.phase) (hactive : s₀.active = s.active)
    (hunfinished : ∀ other, s₀.Unfinished other → s.Unfinished other)
    (hdone : ¬ s₀.Unfinished call)
    (h : (forget session s₀ call).setPhase call (.over how) = s') :
    Effect session s s' a := by
  subst h
  have htask : ∀ other, ((forget session s₀ call).setPhase call (.over how)).Unfinished other ↔
      s₀.Unfinished other := by
    intro other
    simp [State.Unfinished]
  refine .settles ?_ ?_ ?_ fun other hother => hunfinished other ((htask other).mp hother)
  · intro other old hwait
    by_cases heq : other = call
    · subst other
      simp at hwait
    · simpa [hphase, Function.update_of_ne heq] using hwait
  · intro name other hother
    unfold forget at hother
    split at hother
    · by_cases hname : name = session call
      · simp [hname] at hother
      · simpa [hactive, Function.update_of_ne hname] using hother
    · simpa [hactive] using hother
  · intro name other hother
    rw [← hactive] at hother
    unfold forget
    split
    case isTrue hown =>
      by_cases hname : name = session call
      · subst name
        obtain rfl : call = other := by simpa [hother] using hown.symm
        exact Or.inr fun hopen => hdone hopen
      · exact Or.inl (by simpa [Function.update_of_ne hname] using hother)
    case isFalse => exact Or.inl hother

theorem effect_take {s s' : State ε} {call : Nat} {a : Action ε}
    (h : takeStep session s call = some s') : Effect session s s' a := by
  unfold takeStep at h
  split at h
  case h_2 => simp at h
  case h_1 t hphase ht =>
    split at h
    case h_1 => simp at h
    case h_2 event rest hqueue =>
      obtain rfl := Option.some.inj h
      have hdone : t.isDone = true → ({ t with queue := rest } : ProduceTask ε).isDone = true := id
      exact .quiet rfl rfl fun other => unfinished_setTask ht hdone
    case h_3 rest hqueue =>
      obtain ⟨how, hending, hs'⟩ := Option.map_eq_some_iff.mp h
      have hdone : t.isDone = true → ({ t with queue := rest } : ProduceTask ε).isDone = true := id
      have hold : ∀ other, (s.setTask call { t with queue := rest }).Unfinished other →
          s.Unfinished other := fun other => unfinished_setTask ht hdone
      refine effect_forget ?_ ?_ hold ?_ hs'
      · rfl
      · rfl
      rintro ⟨u, hu, hopen⟩
      obtain rfl : { t with queue := rest } = u := by simpa using hu
      have hclosed := isDone_of_ending hending
      rw [show t.isDone = false from hopen] at hclosed
      exact absurd hclosed (by decide)

theorem effect_cancel {s : State ε} {call : Nat} {a : Action ε} :
    Effect session s (s.cancel call) a :=
  .quiet (by simp) (by simp) fun other => by simp

/-- Cancelling a task and moving a call to a phase in which it does not wait. -/
theorem effect_setPhase {s s₀ : State ε} {call : Nat} {phase : Phase} {a : Action ε}
    (hphase : s₀.phase = s.phase) (hactive : s₀.active = s.active)
    (hunfinished : ∀ other, s₀.Unfinished other → s.Unfinished other)
    (hnew : ∀ old, phase ≠ .waiting old) : Effect session s (s₀.setPhase call phase) a := by
  refine .settles ?_ (by simp [hactive]) (fun _ _ h => Or.inl (by simpa [hactive] using h)) hunfinished
  intro other old hwait
  by_cases heq : other = call
  · subst other
    exact absurd (by simpa using hwait) (hnew old)
  · simpa [hphase, Function.update_of_ne heq] using hwait

theorem step_effect {s s' : State ε} {a : Action ε} (h : step session s a = some s') :
    Effect session s s' a := by
  cases a with
  | enter call => exact effect_enter h
  | wake call => exact effect_wake h
  | start call =>
      refine effect_task (fun t t' ht hdone => ?_) h
      obtain ⟨outcome, hstatus⟩ := (isDone_iff t).mp hdone
      simp [ProduceTask.start, hstatus] at ht
  | emit call event =>
      refine effect_task (fun t t' ht hdone => ?_) h
      obtain ⟨outcome, hstatus⟩ := (isDone_iff t).mp hdone
      simp [ProduceTask.emit, hstatus] at ht
  | finish call outcome =>
      refine effect_task (fun t t' ht hdone => ?_) h
      obtain ⟨before, hstatus⟩ := (isDone_iff t).mp hdone
      simp [ProduceTask.finish, hstatus] at ht
  | take call => exact effect_take h
  | close call =>
      simp only [step, closeStep, Option.ite_none_right_eq_some] at h
      obtain ⟨-, h⟩ := h
      split at h
      case isTrue hdone =>
        exact effect_forget rfl rfl (fun _ => id) (not_unfinished_of_taskDone hdone)
          (Option.some.inj h)
      case isFalse =>
        obtain rfl := Option.some.inj h
        exact effect_setPhase (by simp) (by simp) (fun _ => by simp) nofun
  | release call =>
      simp only [step, releaseStep, Option.ite_none_right_eq_some, Option.some.injEq] at h
      exact effect_forget rfl rfl (fun _ => id) (not_unfinished_of_taskDone h.1.2) h.2
  | cancelTask call =>
      simp only [step, Option.ite_none_right_eq_some, Option.some.injEq] at h
      obtain ⟨-, rfl⟩ := h
      exact effect_cancel
  | cancelCaller call =>
      simp only [step, cancelCallerStep] at h
      split at h
      case h_1 =>
        obtain rfl := Option.some.inj h
        exact effect_setPhase rfl rfl (fun _ => id) nofun
      case h_2 =>
        obtain rfl := Option.some.inj h
        exact effect_cancel
      case h_3 =>
        obtain rfl := Option.some.inj h
        exact effect_cancel
      case h_4 => simp at h

variable (session)

/-- At most one produce task of a session is unfinished. -/
def AtMostOneRun (s : State ε) : Prop :=
  ∀ call other, session call = session other → s.Unfinished call → s.Unfinished other →
    call = other

/-- A call enters only while no other call of its session waits for an older task. -/
def EntersAlone (s : State ε) (a : Action ε) : Prop :=
  ∀ call, a = .enter call → ∀ other old, session other = session call → other ≠ call →
    s.phase other ≠ .waiting old

/-- The unfinished task of a session is the stored one, and the one call that
may wait does so for the stored task. -/
structure Guarded (s : State ε) : Prop where
  stored : ∀ call, s.Unfinished call → s.active (session call) = some call
  alone : ∀ call other old older, session call = session other →
    s.phase call = .waiting old → s.phase other = .waiting older → call = other
  awaited : ∀ call old, s.phase call = .waiting old →
    ∀ current, s.active (session call) = some current → current = old

variable {session}

theorem Guarded.atMostOneRun {s : State ε} (h : Guarded session s) : AtMostOneRun session s := by
  intro call other hsame hcall hother
  have hstored := h.stored call hcall
  rw [hsame, h.stored other hother] at hstored
  exact (Option.some.inj hstored).symm

/-- Nothing is unfinished in the session of a call that creates its task. -/
theorem Guarded.clear {s : State ε} (h : Guarded session s) {a : Action ε} {call : Nat}
    (cause : (a = .enter call ∧ ∀ old, s.active (session call) = some old →
        s.taskDone old = true) ∨
      ∃ old, s.phase call = .waiting old ∧ s.taskDone old = true)
    {other : Nat} (hsame : session other = session call) : ¬ s.Unfinished other := by
  intro hopen
  have hstored := h.stored other hopen
  rw [hsame] at hstored
  rcases cause with ⟨-, hdone⟩ | ⟨old, hwait, hdone⟩
  · exact not_unfinished_of_taskDone (hdone other hstored) hopen
  · obtain rfl := h.awaited call old hwait other hstored
    exact not_unfinished_of_taskDone hdone hopen

/-- A call that waits after a step waited before it, or has just entered and
awaits the stored task. -/
theorem Effect.waiting {s s' : State ε} {a : Action ε} (heffect : Effect session s s' a)
    {call old : Nat} (hwait : s'.phase call = .waiting old) :
    s.phase call = .waiting old ∨ a = .enter call ∧ s.active (session call) = some old := by
  cases heffect with
  | spawned other cause phase active unfinished =>
      rw [phase] at hwait
      by_cases heq : call = other
      · simp [heq] at hwait
      · exact Or.inl (by simpa [Function.update_of_ne heq] using hwait)
  | waits other older cause stored phase active unfinished =>
      rw [phase] at hwait
      by_cases heq : call = other
      · subst call
        obtain rfl : older = old := by simpa using hwait
        exact Or.inr ⟨cause, stored⟩
      · exact Or.inl (by simpa [Function.update_of_ne heq] using hwait)
  | settles phase kept dropped unfinished => exact Or.inl (phase call old hwait)

section Invariance

variable {s s' : State ε} {a : Action ε}

theorem Guarded.stored_step (h : Guarded session s) (heffect : Effect session s s' a) {call : Nat}
    (hopen : s'.Unfinished call) : s'.active (session call) = some call := by
  cases heffect with
  | spawned other cause phase active unfinished =>
      rw [active]
      by_cases hname : session call = session other
      · rcases unfinished call hopen with hold | rfl
        · exact absurd hold (h.clear cause hname)
        · simp
      · rcases unfinished call hopen with hold | rfl
        · simpa [Function.update_of_ne hname] using h.stored call hold
        · exact absurd rfl hname
  | waits other old cause stored phase active unfinished =>
      rw [active]
      exact h.stored call (unfinished call hopen)
  | settles phase kept dropped unfinished =>
      rcases dropped _ _ (h.stored call (unfinished call hopen)) with hkept | hdone
      · exact hkept
      · exact absurd hopen hdone

theorem Guarded.alone_step (h : Guarded session s) (halone : EntersAlone session s a)
    (heffect : Effect session s s' a) {call other old older : Nat}
    (hsame : session call = session other) (hcall : s'.phase call = .waiting old)
    (hother : s'.phase other = .waiting older) : call = other := by
  by_contra hne
  rcases heffect.waiting hcall with hcall | ⟨hentered, -⟩
  · rcases heffect.waiting hother with hother | ⟨hentered, -⟩
    · exact hne (h.alone call other old older hsame hcall hother)
    · exact halone other hentered call old hsame hne hcall
  · rcases heffect.waiting hother with hother | ⟨hentered', -⟩
    · exact halone call hentered other older hsame.symm (Ne.symm hne) hother
    · exact hne (Action.enter.inj (hentered.symm.trans hentered'))

theorem Guarded.awaited_step (h : Guarded session s) (halone : EntersAlone session s a)
    (heffect : Effect session s s' a) {call old current : Nat}
    (hwait : s'.phase call = .waiting old)
    (hcurrent : s'.active (session call) = some current) : current = old := by
  have hbefore := heffect.waiting hwait
  cases heffect with
  | spawned other cause phase active unfinished =>
      have hne : call ≠ other := by
        rintro rfl
        simp [phase] at hwait
      have hwait' : s.phase call = .waiting old := by
        simpa [phase, Function.update_of_ne hne] using hwait
      by_cases hname : session call = session other
      · -- only the call that creates its task waited in this session
        rcases cause with ⟨hentered, -⟩ | ⟨older, hother, -⟩
        · exact absurd hwait' (halone other hentered call old hname hne)
        · exact absurd (h.alone call other old older hname hwait' hother) hne
      · rw [active, Function.update_of_ne hname] at hcurrent
        exact h.awaited call old hwait' current hcurrent
  | waits other older cause stored phase active unfinished =>
      rw [active] at hcurrent
      rcases hbefore with hold | ⟨-, hstored⟩
      · exact h.awaited call old hold current hcurrent
      · exact Option.some.inj (hcurrent.symm.trans hstored)
  | settles phase kept dropped unfinished =>
      exact h.awaited call old (phase call old hwait) current (kept _ _ hcurrent)

theorem guarded_step (h : Guarded session s) (halone : EntersAlone session s a)
    (hstep : step session s a = some s') : Guarded session s' where
  stored _ := h.stored_step (step_effect hstep)
  alone _ _ _ _ := h.alone_step halone (step_effect hstep)
  awaited _ _ hwait _ := h.awaited_step halone (step_effect hstep) hwait

end Invariance

/-- As long as every call enters alone, at most one produce task of each
session is unfinished in every state that is reached. -/
theorem atMostOneRun_of_entersAlone (session : Nat → String) {s : State ε}
    (h : (system session).ReachableWithin (EntersAlone session) s) : AtMostOneRun session s := by
  refine (h.invariant (I := Guarded session) ?_ ?_).atMostOneRun
  · rintro s rfl
    exact ⟨by rintro call ⟨t, ht, -⟩; simp [initial] at ht, nofun, nofun⟩
  · intro s a s' hs halone hstep
    exact guarded_step hs halone hstep

/-- One call barges in on another and then its graph starts. -/
theorem atMostOneRun_barge_in :
    ∃ s, (system (ε := Unit) fun _ => "s1").ReachableWithin (EntersAlone fun _ => "s1") s ∧
      s.Unfinished 1 ∧ AtMostOneRun (fun _ => "s1") s := by
  have hreach : (system (ε := Unit) fun _ => "s1").ReachableWithin (EntersAlone fun _ => "s1") _ :=
    ⟨_, [.enter 0, .start 0, .enter 1, .finish 0 .cancelled, .wake 1], rfl,
      Transition.System.run_of_exec rfl (by
        refine Transition.System.meets_cons rfl ?_ (Transition.System.meets_cons rfl nofun
          (Transition.System.meets_cons rfl ?_ (Transition.System.meets_cons rfl nofun
            (Transition.System.meets_cons rfl nofun trivial))))
        · rintro call - other old - -
          exact nofun
        · rintro call ⟨⟩ other old - hne
          by_cases h0 : other = 0 <;> simp [spawn, initial, h0])⟩
  exact ⟨_, hreach, ⟨_, rfl, rfl⟩, atMostOneRun_of_entersAlone _ hreach⟩

/-- Two calls that wait for the same task both create their own when it ends. -/
theorem two_runs_unfinished :
    ∃ s, (system (ε := Unit) fun _ => "s1").Reachable s ∧ s.Unfinished 1 ∧ s.Unfinished 2 ∧
      ¬ AtMostOneRun (fun _ => "s1") s := by
  have hreach : (system (ε := Unit) fun _ => "s1").Reachable _ :=
    Transition.System.reachable_of_exec (s := initial) [.enter 0, .start 0, .enter 1, .enter 2,
      .finish 0 .cancelled, .wake 1, .wake 2, .start 1, .start 2] rfl rfl
  refine ⟨_, hreach, ⟨_, rfl, rfl⟩, ⟨_, rfl, rfl⟩, fun h => ?_⟩
  exact absurd (h 1 2 rfl ⟨_, rfl, rfl⟩ ⟨_, rfl, rfl⟩) (by decide)

end GraphAgent.GuardStream
