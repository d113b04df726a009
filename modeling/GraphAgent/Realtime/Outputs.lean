import GraphAgent.Realtime.Delegate

/-!
# One output for each delegated call

Ids that are handled once, revisions, the cancellation of superseded tasks and
the failure path decide together what becomes of a call. They give each call its
one output as long as no brain run fails and no newer call comes while the older
one waits for another transport.
-/

namespace GraphAgent.Realtime

variable {env : Environment} {s s' : Supervisor} {callId : String} {t t' : Delegation}

/-- No call with a prompt was handled after this one. -/
def NewestSince (calls : List (String × Bool)) (callId : String) : Prop :=
  ∀ call ∈ calls.takeWhile (fun call => call.1 ≠ callId), call.2 = false

/-- The number of outputs that were sent for a call. -/
def Supervisor.outputsOf (s : Supervisor) (callId : String) : Nat :=
  s.outputs.countP fun sent => sent.callId = callId

/-- No call has two outputs, no output was sent once a newer call with a prompt had
been accepted, and a task that has ended without being cancelled has sent one. -/
structure OneFate (s : Supervisor) : Prop where
  once : ∀ callId, s.outputsOf callId ≤ 1
  newest : ∀ sent ∈ s.outputs, NewestSince sent.handled sent.callId
  answered : ∀ callId t, s.tasks callId = some t → t.isDone = true → t.cancelRequested = false →
    s.outputsOf callId = 1

/-- A call that `handle_call` is going to delegate. -/
def Accepts (env : Environment) (s : Supervisor) (callId arguments : String) : Prop :=
  callId ∉ s.calls.map Prod.fst ∧ parsePrompt env arguments ≠ ""

/-- No brain run raises unless its task has been cancelled, and no call is accepted
while the run of the active task waits for another transport's run to end. -/
def NoneFails (env : Environment) (s : Supervisor) : Step → Prop
  | .fail callId => ∀ t, s.tasks callId = some t → t.cancelRequested = true
  | .call callId arguments => Accepts env s callId arguments →
      ∀ old t, s.active = some old → s.tasks old = some t → t.phase ≠ .waiting
  | _ => True

section Tasks

/-- The output of a task is still to come, and nothing keeps the task from it. -/
def Delegation.Live (t : Delegation) : Prop :=
  t.phase = .waiting ∨ (t.phase = .created ∨ t.phase = .running) ∧ t.cancelling = false

/-- What holds of a task between the steps of the supervisor. -/
structure TaskOk (s : Supervisor) (callId : String) (t : Delegation) : Prop where
  revision : t.revision ≤ s.revision
  pending : t.phase = .created ∨ t.phase = .waiting ∨ t.phase = .running → s.outputsOf callId = 0
  replying : t.phase = .replying → s.outputsOf callId = 1
  answered : t.isDone = true → t.cancelRequested = false → s.outputsOf callId = 1
  requested : t.cancelling = true → t.cancelRequested = true
  active : t.isDone = false → t.cancelRequested = false → s.active = some callId

/-- A task stays in order where its outputs, the revision and the active task do. -/
theorem TaskOk.of_same (h : TaskOk s callId t) (hrevision : s'.revision = s.revision)
    (houtputs : s'.outputsOf callId = s.outputsOf callId) (hactive : s'.active = s.active) :
    TaskOk s' callId t where
  revision := by rw [hrevision]; exact h.revision
  pending := by rw [houtputs]; exact h.pending
  replying := by rw [houtputs]; exact h.replying
  answered := by rw [houtputs]; exact h.answered
  requested := h.requested
  active := by rw [hactive]; exact h.active

theorem isDone_of_phase (h : ∀ how, t.phase ≠ .done how) : t.isDone = false := by
  unfold Delegation.isDone
  split
  case h_1 how hphase => exact absurd hphase (h how)
  case h_2 => rfl

/-- A task that ends is in order if it was cancelled, or its output has been sent. -/
theorem TaskOk.ended (h : TaskOk s callId t) (how : DelegationEnd)
    (hanswered : t.cancelRequested = false → s.outputsOf callId = 1) :
    TaskOk s callId { t with phase := .done how } :=
  ⟨h.revision, by simp, nofun, fun _ => hanswered, h.requested, nofun⟩

theorem not_live_done (t : Delegation) (how : DelegationEnd) :
    ¬ Delegation.Live { t with phase := .done how } := by
  rintro (hwait | ⟨hphase, -⟩)
  · exact nomatch hwait
  · simp at hphase

theorem isDone_eq_false (h : t.isDone = false) : t.cancel.phase = t.phase ∧
    t.cancel.cancelling = true ∧ t.cancel.cancelRequested = true := by
  unfold Delegation.cancel
  rw [h]
  exact ⟨rfl, rfl, rfl⟩

theorem cancel_of_isDone (h : t.isDone = true) : t.cancel = t := by
  unfold Delegation.cancel
  rw [h]
  rfl

theorem revision_cancel (t : Delegation) : t.cancel.revision = t.revision := by
  unfold Delegation.cancel
  split <;> rfl

theorem phase_cancel (t : Delegation) : t.cancel.phase = t.phase := by
  unfold Delegation.cancel
  split <;> rfl

theorem not_live_cancel (hphase : t.phase ≠ .waiting) : ¬ t.cancel.Live := by
  rintro (hwait | ⟨hopen, hfree⟩)
  · exact hphase ((phase_cancel t).symm.trans hwait)
  · rw [phase_cancel] at hopen
    have hnot : t.isDone = false := by
      apply isDone_of_phase
      intro how heq
      simp [heq] at hopen
    rw [(isDone_eq_false hnot).2.1] at hfree
    exact nomatch hfree

theorem live_of_cancel (h : t.cancel.Live) : t.Live := by
  by_contra hnot
  have hphase : t.phase ≠ .waiting := fun hwait => hnot (Or.inl hwait)
  exact not_live_cancel hphase h

theorem TaskOk.cancel (h : TaskOk s callId t) : TaskOk s callId t.cancel := by
  cases hdone : t.isDone with
  | true => exact (cancel_of_isDone hdone).symm ▸ h
  | false =>
      obtain ⟨hphase, hcancelling, hrequested⟩ := isDone_eq_false hdone
      refine ⟨?_, ?_, ?_, ?_, fun _ => hrequested, ?_⟩
      · rw [revision_cancel]
        exact h.revision
      · rw [hphase]
        exact h.pending
      · rw [hphase]
        exact h.replying
      · intro _ hnot
        exact nomatch hrequested.symm.trans hnot
      · intro _ hnot
        exact nomatch hrequested.symm.trans hnot

end Tasks

section Calls

/-- The call that `handle_call` is delegating. -/
def Handling.current : Handling → Option String
  | .idle => none
  | .awaiting _ callId _ => some callId
  | .greeting callId _ _ _ => some callId

theorem newestSince_self (calls : List (String × Bool)) (hasPrompt : Bool) :
    NewestSince ((callId, hasPrompt) :: calls) callId := by
  unfold NewestSince
  simp

theorem NewestSince.cons {calls : List (String × Bool)} (h : NewestSince calls callId)
    (other : String) : NewestSince ((other, false) :: calls) callId := by
  unfold NewestSince at h ⊢
  intro call hmem
  rw [List.takeWhile_cons] at hmem
  split at hmem
  case isTrue =>
    rcases List.mem_cons.mp hmem with rfl | hrest
    · rfl
    · exact h call hrest
  case isFalse => exact nomatch hmem

theorem outputsOf_sendOutput (s : Supervisor) (callId other output : String) :
    (s.sendOutput callId output).outputsOf other =
      s.outputsOf other + if callId = other then 1 else 0 := by
  unfold Supervisor.outputsOf Supervisor.sendOutput
  simp [List.countP_append, List.countP_singleton]

end Calls

section Booked

/-- What holds of the outputs and the tasks of a supervisor. -/
structure Booked (s : Supervisor) : Prop where
  once : ∀ callId, s.outputsOf callId ≤ 1
  sent : ∀ sent ∈ s.outputs, NewestSince sent.handled sent.callId
  unhandled : ∀ callId, callId ∉ s.calls.map Prod.fst →
    s.outputsOf callId = 0 ∧ s.tasks callId = none
  tasks : ∀ callId t, s.tasks callId = some t → TaskOk s callId t
  unique : ∀ callId other t u, s.tasks callId = some t → s.tasks other = some u →
    t.revision = u.revision → callId = other
  active : ∀ callId, s.active = some callId → ∃ t, s.tasks callId = some t ∧ t.revision = s.revision

/-- A step of one task, which may send its output. -/
structure TaskStep (s s' : Supervisor) (callId : String) (t t' : Delegation) : Prop where
  before : s.tasks callId = some t
  tasks : s'.tasks = Function.update s.tasks callId (some t')
  taskRevision : t'.revision = t.revision
  revision : s'.revision = s.revision
  calls : s'.calls = s.calls
  active : s'.active = s.active
  handling : s'.handling = s.handling
  outputs : ∀ other, other ≠ callId → s'.outputsOf other = s.outputsOf other

theorem taskStep_setTask (ht : s.tasks callId = some t) (hrevision : t'.revision = t.revision) :
    TaskStep s (s.setTask callId t') callId t t' :=
  ⟨ht, rfl, hrevision, rfl, rfl, rfl, rfl, fun _ _ => rfl⟩

/-- The tasks after a step of one of them. -/
theorem TaskStep.cases (hstep : TaskStep s s' callId t t') {other : String} {u : Delegation}
    (hu : s'.tasks other = some u) :
    other = callId ∧ u = t' ∨ other ≠ callId ∧ s.tasks other = some u := by
  rw [hstep.tasks] at hu
  by_cases heq : other = callId
  · subst heq
    exact Or.inl ⟨rfl, by simpa [eq_comm] using hu⟩
  · rw [Function.update_of_ne heq] at hu
    exact Or.inr ⟨heq, hu⟩

/-- Every task after the step was there before, with the same revision. -/
theorem TaskStep.revision_eq (hstep : TaskStep s s' callId t t') {other : String} {u : Delegation}
    (hu : s'.tasks other = some u) : ∃ u₀, s.tasks other = some u₀ ∧ u.revision = u₀.revision := by
  rcases hstep.cases hu with ⟨rfl, rfl⟩ | ⟨-, hu⟩
  · exact ⟨t, hstep.before, hstep.taskRevision⟩
  · exact ⟨u, hu, rfl⟩

theorem Booked.taskStep (h : Booked s) (hstep : TaskStep s s' callId t t')
    (honce : s'.outputsOf callId ≤ 1)
    (hsent : ∀ sent ∈ s'.outputs, NewestSince sent.handled sent.callId)
    (hok : TaskOk s' callId t') : Booked s' := by
  constructor
  case once =>
    intro other
    by_cases heq : other = callId
    · exact heq ▸ honce
    · rw [hstep.outputs other heq]
      exact h.once other
  case sent => exact hsent
  case unhandled =>
    intro other hother
    rw [hstep.calls] at hother
    obtain ⟨hnone, htask⟩ := h.unhandled other hother
    have hne : other ≠ callId := by
      rintro rfl
      exact nomatch htask.symm.trans hstep.before
    rw [hstep.outputs other hne, hstep.tasks, Function.update_of_ne hne]
    exact ⟨hnone, htask⟩
  case tasks =>
    intro other u hu
    rcases hstep.cases hu with ⟨rfl, rfl⟩ | ⟨hne, hu⟩
    · exact hok
    · have hother := h.tasks other u hu
      have hcount := hstep.outputs other hne
      refine ⟨?_, ?_, ?_, ?_, hother.requested, ?_⟩
      · rw [hstep.revision]
        exact hother.revision
      · rw [hcount]
        exact hother.pending
      · rw [hcount]
        exact hother.replying
      · rw [hcount]
        exact hother.answered
      · rw [hstep.active]
        exact hother.active
  case unique =>
    intro one other u v hu hv heq
    obtain ⟨u₀, hu₀, hrev⟩ := hstep.revision_eq hu
    obtain ⟨v₀, hv₀, hrev'⟩ := hstep.revision_eq hv
    exact h.unique one other u₀ v₀ hu₀ hv₀ (by omega)
  case active =>
    intro other hother
    rw [hstep.active] at hother
    obtain ⟨u, hu, hrev⟩ := h.active other hother
    rw [hstep.tasks, hstep.revision]
    by_cases heq : other = callId
    · subst heq
      obtain rfl : t = u := Option.some.inj (hstep.before.symm.trans hu)
      exact ⟨t', Function.update_self _ _ _, hstep.taskRevision.trans hrev⟩
    · exact ⟨u, (Function.update_of_ne heq _ _).trans hu, hrev⟩

theorem Booked.setTask (h : Booked s) (ht : s.tasks callId = some t)
    (hrevision : t'.revision = t.revision) (hok : TaskOk s callId t') :
    Booked (s.setTask callId t') :=
  h.taskStep (taskStep_setTask ht hrevision) (h.once callId) h.sent (hok.of_same rfl rfl rfl)

theorem Booked.accept (h : Booked s) (callId : String) (hasPrompt : Bool) :
    Booked (s.accept callId hasPrompt) where
  once := h.once
  sent := h.sent
  unhandled other hother := h.unhandled other fun hmem => hother (List.mem_cons_of_mem _ hmem)
  tasks other u hu := (h.tasks other u hu).of_same rfl rfl rfl
  unique := h.unique
  active := h.active

/-- Nothing is active any more, and the active task has been cancelled. -/
theorem cancelActive_eq (hactive : s.active = some callId) (ht : s.tasks callId = some t) :
    s.cancelActive = { s.setTask callId t.cancel with active := none } := by
  simp only [Supervisor.cancelActive, Supervisor.setTask, hactive, ht, Option.map_some]

theorem Booked.cancelActive (h : Booked s) : Booked s.cancelActive := by
  cases hactive : s.active with
  | none =>
      unfold Supervisor.cancelActive
      rw [hactive]
      exact h
  | some callId =>
      obtain ⟨t, ht, -⟩ := h.active callId hactive
      rw [cancelActive_eq hactive ht]
      have hset := h.setTask ht (revision_cancel t) (h.tasks callId t ht).cancel
      refine ⟨hset.once, hset.sent, hset.unhandled, ?_, hset.unique, nofun⟩
      intro other u hu
      have hok := hset.tasks other u hu
      refine ⟨hok.revision, hok.pending, hok.replying, hok.answered, hok.requested, ?_⟩
      intro hopen hnot
      -- only the active task is neither done nor cancelled, and it has just been cancelled
      obtain rfl : callId = other := Option.some.inj (hactive.symm.trans (hok.active hopen hnot))
      obtain rfl : t.cancel = u := by simpa [Supervisor.setTask] using hu
      cases hdone : t.isDone with
      | true =>
          rw [cancel_of_isDone hdone, hdone] at hopen
          exact nomatch hopen
      | false => exact nomatch (isDone_eq_false hdone).2.2.symm.trans hnot

theorem Booked.greet (h : Booked s) (hactive : s.active = none) (callId prompt : String) :
    Booked (s.greet callId prompt) where
  once := h.once
  sent := h.sent
  unhandled := h.unhandled
  tasks other u hu :=
    have hok := h.tasks other u hu
    ⟨hok.revision.trans (Nat.le_succ _), hok.pending, hok.replying, hok.answered, hok.requested,
      hok.active⟩
  unique := h.unique
  active other hother := by
    have hnone : (s.greet callId prompt).active = none := hactive
    exact nomatch hnone.symm.trans hother

end Booked

section Invariant

/-- What holds between the steps of a supervisor under the guard. -/
structure Fated (s : Supervisor) : Prop extends Booked s where
  newest : ∀ callId t, s.tasks callId = some t → t.revision = s.revision → t.Live →
    NewestSince s.calls callId
  handling : ∀ callId, s.handling.current = some callId → callId ∈ s.calls.map Prod.fst ∧
    s.outputsOf callId = 0 ∧ s.tasks callId = none ∧ NewestSince s.calls callId ∧ s.active = none
  greeting : ∀ callId prompt revision context,
    s.handling = .greeting callId prompt revision context →
    revision = s.revision ∧ ∀ other t, s.tasks other = some t → t.revision < s.revision

theorem fated_initial : Fated initial where
  once _ := Nat.zero_le _
  sent := nofun
  unhandled _ _ := ⟨rfl, rfl⟩
  tasks := nofun
  unique := nofun
  active _ h := nomatch h
  newest := nofun
  handling _ h := nomatch h
  greeting _ _ _ _ h := nomatch h

/-- A step of a task that comes no closer to an output than it was allowed to. -/
theorem Fated.taskStep (h : Fated s) (hstep : TaskStep s s' callId t t') (hbooked : Booked s')
    (hlive : t'.Live → t.Live) : Fated s' := by
  refine ⟨hbooked, ?_, ?_, ?_⟩
  · intro other u hu hrev hopen
    rw [hstep.revision] at hrev
    rw [hstep.calls]
    rcases hstep.cases hu with ⟨rfl, rfl⟩ | ⟨-, hu⟩
    · exact h.newest other t hstep.before (hstep.taskRevision.symm.trans hrev) (hlive hopen)
    · exact h.newest other u hu hrev hopen
  · intro other hother
    rw [hstep.handling] at hother
    obtain ⟨hmem, hnone, htask, hnewest, hactive⟩ := h.handling other hother
    have hne : other ≠ callId := by
      rintro rfl
      exact nomatch htask.symm.trans hstep.before
    rw [hstep.calls, hstep.outputs other hne, hstep.tasks, Function.update_of_ne hne, hstep.active]
    exact ⟨hmem, hnone, htask, hnewest, hactive⟩
  · intro one prompt revision context hgreeting
    rw [hstep.handling] at hgreeting
    obtain ⟨hrev, hall⟩ := h.greeting one prompt revision context hgreeting
    rw [hstep.revision]
    refine ⟨hrev, fun other u hu => ?_⟩
    obtain ⟨u₀, hu₀, hsame⟩ := hstep.revision_eq hu
    rw [hsame]
    exact hall other u₀ hu₀

theorem Fated.setTask (h : Fated s) (ht : s.tasks callId = some t)
    (hrevision : t'.revision = t.revision) (hok : TaskOk s callId t') (hlive : t'.Live → t.Live) :
    Fated (s.setTask callId t') :=
  h.taskStep (taskStep_setTask ht hrevision) (h.toBooked.setTask ht hrevision hok) hlive

/-- What is recorded and passed on does not matter to the outputs. -/
theorem Fated.transcript (h : Fated s) (runs : List BrainRun) (buffer : List RecordedTurn)
    (recorded : Nat) (pushedOut : List Nat) :
    Fated { s with runs := runs, buffer := buffer, recorded := recorded, pushedOut := pushedOut } :=
  { once := h.once
    sent := h.sent
    unhandled := h.unhandled
    tasks := fun callId t ht => (h.tasks callId t ht).of_same rfl rfl rfl
    unique := h.unique
    active := h.active
    newest := h.newest
    handling := h.handling
    greeting := h.greeting }

theorem Fated.start (h : Fated s) {blocked : Bool}
    (hstep : startStep s callId blocked = some s') : Fated s' := by
  obtain ⟨t, ht, hcreated, hcases⟩ := startStep_cases hstep
  have hok := h.tasks callId t ht
  rcases hcases with ⟨hcancelling, rfl⟩ | ⟨hfree, rfl⟩
  · refine h.setTask ht rfl (hok.ended .cancelled fun hnot => ?_)
      fun hlive => absurd hlive (not_live_done t .cancelled)
    exact absurd (hok.requested hcancelling) (by rw [hnot]; decide)
  · have hopen : t.isDone = false := isDone_of_phase (by rw [hcreated]; exact nofun)
    refine Fated.transcript ?_ _ _ _ _
    refine h.setTask ht rfl ⟨hok.revision, fun _ => hok.pending (Or.inl hcreated), ?_, ?_,
      hok.requested, fun _ => hok.active hopen⟩ fun _ => Or.inr ⟨Or.inl hcreated, ?_⟩
    · cases blocked <;> exact nofun
    · cases blocked <;> exact nofun
    · exact hfree

theorem Fated.release (h : Fated s) (hstep : releaseStep s callId = some s') : Fated s' := by
  obtain ⟨t, ht, hwaiting, rfl⟩ := releaseStep_cases hstep
  have hok := h.tasks callId t ht
  have hopen : t.isDone = false := isDone_of_phase (by rw [hwaiting]; exact nofun)
  exact h.setTask ht rfl ⟨hok.revision, fun _ => hok.pending (Or.inr (Or.inl hwaiting)), nofun,
    nofun, nofun, fun _ => hok.active hopen⟩ fun _ => Or.inl hwaiting

theorem Fated.abort (h : Fated s) (hstep : abortStep s callId = some s') : Fated s' := by
  obtain ⟨t, ht, -, hcancelling, rfl⟩ := abortStep_cases hstep
  have hok := h.tasks callId t ht
  refine h.setTask ht rfl (hok.ended .cancelled fun hnot => ?_)
    fun hlive => absurd hlive (not_live_done t .cancelled)
  exact absurd (hok.requested hcancelling) (by rw [hnot]; decide)

theorem Fated.fail (h : Fated s) (hguard : NoneFails env s (.fail callId))
    (hstep : failStep s callId = some s') : Fated s' := by
  obtain ⟨t, ht, -, rfl⟩ := failStep_cases hstep
  have hok := h.tasks callId t ht
  refine h.setTask ht rfl (hok.ended .failed fun hnot => ?_)
    fun hlive => absurd hlive (not_live_done t .failed)
  exact absurd (hguard t ht) (by rw [hnot]; decide)

theorem Fated.replied (h : Fated s) (hstep : repliedStep s callId = some s') : Fated s' := by
  obtain ⟨t, ht, hreplying, rfl⟩ := repliedStep_cases hstep
  have hok := h.tasks callId t ht
  exact h.setTask ht rfl (hok.ended .finished fun _ => hok.replying hreplying)
    fun hlive => absurd hlive (not_live_done t .finished)

/-- A current task that has not been cancelled sends its output. -/
theorem Fated.send (h : Fated s) (ht : s.tasks callId = some t) (hrunning : t.phase = .running)
    (hfree : t.cancelling = false) (hcurrent : t.revision = s.revision) (output : String) :
    Fated ((s.setTask callId { t with phase := .replying }).sendOutput callId output) := by
  have hok := h.tasks callId t ht
  have hnone := hok.pending (Or.inr (Or.inr hrunning))
  have hopen : t.isDone = false := isDone_of_phase (by rw [hrunning]; exact nofun)
  have hcount : ∀ other, ((s.setTask callId { t with phase := .replying }).sendOutput callId
      output).outputsOf other = s.outputsOf other + if callId = other then 1 else 0 :=
    fun other => outputsOf_sendOutput _ callId other output
  have hone : ((s.setTask callId { t with phase := .replying }).sendOutput callId
      output).outputsOf callId = 1 := by rw [hcount, hnone, if_pos rfl]
  have hstep : TaskStep s ((s.setTask callId { t with phase := .replying }).sendOutput callId output)
      callId t { t with phase := .replying } :=
    ⟨ht, rfl, rfl, rfl, rfl, rfl, rfl, fun other hne => by rw [hcount, if_neg (Ne.symm hne)]; rfl⟩
  apply h.taskStep hstep
  · apply h.toBooked.taskStep hstep hone.le
    · intro sent hsent
      rcases List.mem_append.mp hsent with hold | hnew
      · exact h.sent sent hold
      · obtain rfl := List.mem_singleton.mp hnew
        exact h.newest callId t ht hcurrent (Or.inr ⟨Or.inr hrunning, hfree⟩)
    · exact ⟨hok.revision, by simp, fun _ => hone, nofun, hok.requested, fun _ => hok.active hopen⟩
  · rintro (hwait | ⟨hphase, -⟩)
    · exact nomatch hwait
    · simp at hphase

theorem Fated.finish (h : Fated s) {events : List Event}
    (hstep : finishStep env s callId events = some s') : Fated s' := by
  obtain ⟨t, ht, hrunning, hfree, hcases⟩ := finishStep_cases hstep
  have hok := h.tasks callId t ht
  rcases hcases with ⟨hcurrent, rfl⟩ | ⟨hstale, rfl⟩
  · exact h.send ht hrunning hfree hcurrent _
  · refine h.setTask ht rfl (hok.ended .stale fun hnot => ?_)
      fun hlive => absurd hlive (not_live_done t .stale)
    -- a task that was never cancelled is the active one, and its revision is current
    have hopen : t.isDone = false := isDone_of_phase (by rw [hrunning]; exact nofun)
    obtain ⟨u, hu, hrev⟩ := h.active callId (hok.active hopen hnot)
    obtain rfl : t = u := Option.some.inj (ht.symm.trans hu)
    exact absurd hrev hstale

/-- With the next revision every older output is stale. -/
theorem Fated.greet (h : Booked s) (hactive : s.active = none)
    (hmem : callId ∈ s.calls.map Prod.fst) (hnone : s.outputsOf callId = 0)
    (htask : s.tasks callId = none) (hnewest : NewestSince s.calls callId) (prompt : String) :
    Fated (s.greet callId prompt) := by
  refine ⟨h.greet hactive callId prompt, ?_, ?_, ?_⟩
  · intro other t ht hrev _
    have hle := (h.tasks other t ht).revision
    have hnext : t.revision = s.revision + 1 := hrev
    omega
  · intro other hother
    obtain rfl : callId = other := Option.some.inj hother
    exact ⟨hmem, hnone, htask, hnewest, hactive⟩
  · intro one prompt' revision context hgreeting
    obtain ⟨-, -, rfl, -⟩ := Handling.greeting.inj hgreeting
    exact ⟨rfl, fun other t ht => Nat.lt_succ_of_le (h.tasks other t ht).revision⟩

theorem Fated.wake (h : Fated s) (hstep : wakeStep s = some s') : Fated s' := by
  obtain ⟨old, callId, prompt, hawaiting, rfl⟩ := wakeStep_cases hstep
  have hcurrent : s.handling.current = some callId := by rw [hawaiting]; rfl
  obtain ⟨hmem, hnone, htask, hnewest, hactive⟩ := h.handling callId hcurrent
  exact .greet h.toBooked hactive hmem hnone htask hnewest prompt

theorem Fated.dispatch (h : Fated s) (hstep : dispatchStep s = some s') : Fated s' := by
  obtain ⟨callId, prompt, revision, context, hgreeting, rfl⟩ := dispatchStep_cases hstep
  have hcurrent : s.handling.current = some callId := by rw [hgreeting]; rfl
  obtain ⟨hmem, hnone, -, hnewest, hactive⟩ := h.handling callId hcurrent
  obtain ⟨rfl, hall⟩ := h.greeting callId prompt revision context hgreeting
  have htasks : ∀ other u, Function.update s.tasks callId
        (some ⟨s.revision, prompt, context, .created, false, false⟩) other = some u →
      other = callId ∧ u = ⟨s.revision, prompt, context, .created, false, false⟩ ∨
        s.tasks other = some u := by
    intro other u hu
    by_cases heq : other = callId
    · subst heq
      exact Or.inl ⟨rfl, by simpa [eq_comm] using hu⟩
    · rw [Function.update_of_ne heq] at hu
      exact Or.inr hu
  refine ⟨⟨?once, ?sent, ?unhandled, ?tasks, ?unique, ?active⟩, ?newest, ?handling, ?greeting⟩
  case once => exact h.once
  case sent => exact h.sent
  case unhandled =>
    intro other hother
    have hne : other ≠ callId := by
      rintro rfl
      exact hother hmem
    exact ⟨(h.unhandled other hother).1,
      (Function.update_of_ne hne _ _).trans (h.unhandled other hother).2⟩
  case tasks =>
    intro other u hu
    rcases htasks other u hu with ⟨rfl, rfl⟩ | hu
    · exact ⟨Nat.le_refl _, fun _ => hnone, nofun, nofun, nofun, fun _ _ => rfl⟩
    · have hok := h.tasks other u hu
      refine ⟨hok.revision, hok.pending, hok.replying, hok.answered, hok.requested, ?_⟩
      intro hopen hnot
      exact nomatch hactive.symm.trans (hok.active hopen hnot)
  case unique =>
    intro one other u v hu hv heq
    rcases htasks one u hu with ⟨hone, rfl⟩ | hone
    · rcases htasks other v hv with ⟨hother, -⟩ | hother
      · exact hone.trans hother.symm
      · exact absurd heq.symm (Nat.ne_of_lt (hall other v hother))
    · rcases htasks other v hv with ⟨-, rfl⟩ | hother
      · exact absurd heq (Nat.ne_of_lt (hall one u hone))
      · exact h.unique one other u v hone hother heq
  case active =>
    intro other hother
    obtain rfl : callId = other := Option.some.inj hother
    exact ⟨_, Function.update_self _ _ _, rfl⟩
  case newest =>
    intro other u hu hrev _
    rcases htasks other u hu with ⟨rfl, rfl⟩ | hu
    · exact hnewest
    · exact absurd hrev (Nat.ne_of_lt (hall other u hu))
  case handling => exact fun _ hother => nomatch hother
  case greeting => exact fun _ _ _ _ hother => nomatch hother

/-- A call without a prompt has its output at once. -/
theorem Fated.refuse (h : Fated s) (hidle : s.handling = .idle)
    (hnew : callId ∉ s.calls.map Prod.fst) (output : String) :
    Fated ((s.accept callId false).sendOutput callId output) := by
  obtain ⟨hnone, htask⟩ := h.unhandled callId hnew
  have hcount : ∀ other, ((s.accept callId false).sendOutput callId output).outputsOf other =
      s.outputsOf other + if callId = other then 1 else 0 :=
    fun other => outputsOf_sendOutput _ callId other output
  have hother : ∀ other, other ≠ callId →
      ((s.accept callId false).sendOutput callId output).outputsOf other = s.outputsOf other :=
    fun other hne => by rw [hcount, if_neg (Ne.symm hne), Nat.add_zero]
  have hne : ∀ other t, s.tasks other = some t → other ≠ callId := by
    rintro other t ht rfl
    exact nomatch htask.symm.trans ht
  refine ⟨⟨?once, ?sent, ?unhandled, ?tasks, ?unique, ?active⟩, ?newest, ?handling, ?greeting⟩
  case once =>
    intro other
    by_cases heq : other = callId
    · rw [hcount, heq, hnone, if_pos rfl]
    · rw [hother other heq]
      exact h.once other
  case sent =>
    intro sent hsent
    rcases List.mem_append.mp hsent with hold | hnewOutput
    · exact h.sent sent hold
    · obtain rfl := List.mem_singleton.mp hnewOutput
      exact newestSince_self s.calls false
  case unhandled =>
    intro other hunhandled
    have hdistinct : other ≠ callId := by
      rintro rfl
      exact hunhandled List.mem_cons_self
    rw [hother other hdistinct]
    exact h.unhandled other fun hmem => hunhandled (List.mem_cons_of_mem _ hmem)
  case tasks =>
    intro other t ht
    exact (h.tasks other t ht).of_same rfl (hother other (hne other t ht)) rfl
  case unique => exact h.unique
  case active => exact h.active
  case newest =>
    intro other t ht hrev hlive
    exact (h.newest other t ht hrev hlive).cons callId
  case handling =>
    intro other hbusy
    have hcurrent : s.handling.current = some other := hbusy
    rw [hidle] at hcurrent
    exact nomatch hcurrent
  case greeting =>
    intro one prompt revision context hgreeting
    exact nomatch hidle.symm.trans hgreeting

/-- A new call with a prompt leaves no task that may still send an older output. -/
theorem Fated.supersede (h : Fated s) (hnew : callId ∉ s.calls.map Prod.fst)
    (hwaiting : ∀ old t, s.active = some old → s.tasks old = some t → t.phase ≠ .waiting)
    (prompt : String) : Fated ((s.accept callId true).supersede callId prompt) := by
  obtain ⟨hnone, htask⟩ := h.unhandled callId hnew
  have haccepted : Booked (s.accept callId true) := h.toBooked.accept callId true
  have hmem : callId ∈ (s.accept callId true).calls.map Prod.fst := List.mem_cons_self
  have hnewest : NewestSince (s.accept callId true).calls callId := newestSince_self s.calls true
  unfold Supervisor.supersede
  split
  case h_1 hactive => exact .greet haccepted hactive hmem hnone htask hnewest prompt
  case h_2 old hactive =>
    obtain ⟨t, ht, hrev⟩ := haccepted.active old hactive
    have hne : callId ≠ old := by
      rintro rfl
      exact nomatch htask.symm.trans ht
    have hcancelled : Booked (s.accept callId true).cancelActive := haccepted.cancelActive
    have heq := cancelActive_eq hactive ht
    have htaskCancelled : (s.accept callId true).cancelActive.tasks callId = none := by
      rw [heq]
      exact (Function.update_of_ne hne _ _).trans htask
    have hcalls : (s.accept callId true).cancelActive.calls = (s.accept callId true).calls := by
      rw [heq]
      rfl
    have hactiveCancelled : (s.accept callId true).cancelActive.active = none := by rw [heq]
    have hcount : (s.accept callId true).cancelActive.outputsOf callId = 0 := by
      rw [heq]
      exact hnone
    split
    case isTrue =>
      exact .greet hcancelled hactiveCancelled (hcalls ▸ hmem) hcount htaskCancelled
        (hcalls ▸ hnewest) prompt
    case isFalse =>
      refine ⟨⟨hcancelled.once, hcancelled.sent, hcancelled.unhandled, ?_, hcancelled.unique,
        hcancelled.active⟩, ?_, ?_, nofun⟩
      · exact fun other u hu => (hcancelled.tasks other u hu).of_same rfl rfl rfl
      · intro other u hu hcurrent hlive
        rw [heq] at hu hcurrent
        by_cases hsame : other = old
        · subst hsame
          obtain rfl : t.cancel = u := by simpa [Supervisor.setTask] using hu
          exact absurd hlive (not_live_cancel (hwaiting other t hactive ht))
        · simp only [Supervisor.setTask, Function.update_of_ne hsame] at hu
          exact absurd (h.unique other old u t hu ht (hcurrent.trans hrev.symm)) hsame
      · intro other hother
        obtain rfl : callId = other := Option.some.inj hother
        exact ⟨hcalls ▸ hmem, hcount, htaskCancelled, hcalls ▸ hnewest, hactiveCancelled⟩

theorem Fated.call (h : Fated s) {arguments : String}
    (hguard : NoneFails env s (.call callId arguments))
    (hstep : callStep env s callId arguments = some s') : Fated s' := by
  obtain ⟨hidle, rfl | ⟨hnew, rfl | ⟨hprompt, rfl⟩⟩⟩ := callStep_cases hstep
  · exact h
  · exact h.refuse hidle hnew emptyPromptError
  · exact h.supersede hnew (hguard ⟨hnew, hprompt⟩) _

theorem Fated.close (h : Fated s) (hidle : s.handling = .idle) : Fated s.cancelActive := by
  have hbooked := h.toBooked.cancelActive
  cases hactive : s.active with
  | none =>
      unfold Supervisor.cancelActive
      rw [hactive]
      exact h
  | some old =>
      obtain ⟨t, ht, -⟩ := h.active old hactive
      rw [cancelActive_eq hactive ht] at hbooked ⊢
      refine ⟨hbooked, ?_, ?_, ?_⟩
      · intro other u hu hrev hlive
        by_cases hsame : other = old
        · subst hsame
          obtain rfl : t.cancel = u := by simpa [Supervisor.setTask] using hu
          exact h.newest other t ht ((revision_cancel t).symm.trans hrev) (live_of_cancel hlive)
        · simp only [Supervisor.setTask, Function.update_of_ne hsame] at hu
          exact h.newest other u hu hrev hlive
      · intro other hbusy
        have hcurrent : s.handling.current = some other := hbusy
        rw [hidle] at hcurrent
        exact nomatch hcurrent
      · intro one prompt revision context hgreeting
        exact nomatch hidle.symm.trans hgreeting

theorem Fated.step {a : Step} (h : Fated s) (hguard : NoneFails env s a)
    (hstep : step env s a = some s') : Fated s' := by
  cases a with
  | call callId arguments => exact h.call hguard hstep
  | wake => exact h.wake hstep
  | dispatch => exact h.dispatch hstep
  | start callId blocked => exact h.start hstep
  | release callId => exact h.release hstep
  | finish callId events => exact h.finish hstep
  | fail callId => exact h.fail hguard hstep
  | abort callId => exact h.abort hstep
  | replied callId => exact h.replied hstep
  | record event =>
      rcases step_record hstep with rfl | ⟨message, rfl⟩
      · exact h
      · exact h.transcript _ _ _ _
  | close =>
      obtain ⟨hidle, rfl⟩ := step_close hstep
      exact h.close hidle

/-- As long as no brain run fails and no call is accepted while the older one waits
for another transport, each call has one fate. -/
theorem oneFate_of_noneFails (env : Environment) {s : Supervisor}
    (h : (system env).ReachableWithin (NoneFails env) s) : OneFate s := by
  have hfated : Fated s := by
    apply h.invariant
    · rintro s rfl
      exact fated_initial
    · intro s a s' hs hguard hstep
      exact hs.step hguard hstep
  refine ⟨hfated.once, hfated.sent, ?_⟩
  intro callId t ht hdone hnot
  exact (hfated.tasks callId t ht).answered hdone hnot

end Invariant

section Runs

/-- Arguments that are valid JSON with a prompt, and anything else. -/
def sampleEnvironment : Environment where
  py := defaultGraph.py
  loads arguments :=
    if arguments = "weather" then some (.obj [("prompt", .str "What is the weather?")])
    else if arguments = "flight" then some (.obj [("prompt", .str "When does the flight leave?")])
    else none
  normalize := id

/-- A call, a repetition of it, one without a prompt, and a newer one that
supersedes the first. -/
theorem oneFate_superseded : ∃ s,
    (system sampleEnvironment).ReachableWithin (NoneFails sampleEnvironment) s ∧
      s.outputs.map (fun sent => (sent.callId, sent.output)) =
        [("c0", emptyPromptError), ("c2", "At noon")] ∧ OneFate s := by
  have hreach : (system sampleEnvironment).ReachableWithin (NoneFails sampleEnvironment) _ :=
    ⟨initial, [.call "c0" "", .call "c1" "weather", .dispatch, .start "c1" false,
      .call "c1" "weather", .call "c2" "flight", .abort "c1", .wake, .dispatch, .start "c2" false,
      .finish "c2" [.token "At noon"], .replied "c2"], rfl,
      Transition.System.run_of_exec rfl (by
        refine Transition.System.meets_cons rfl (fun _ _ _ => nofun) ?_
        refine Transition.System.meets_cons rfl (fun _ _ _ => nofun) ?_
        refine Transition.System.meets_cons rfl trivial ?_
        refine Transition.System.meets_cons rfl trivial ?_
        refine Transition.System.meets_cons rfl (fun _ => ?_) ?_
        · rintro old t ⟨⟩ ⟨⟩
          decide
        refine Transition.System.meets_cons rfl (fun _ => ?_) ?_
        · rintro old t ⟨⟩ ⟨⟩
          decide
        repeat' refine Transition.System.meets_cons rfl trivial ?_
        trivial)⟩
  exact ⟨_, hreach, rfl, oneFate_of_noneFails sampleEnvironment hreach⟩

/-- A failed run leaves its call without an output, and a call that is superseded
while it waits for another transport answers after all. -/
theorem failed_and_late_outputs : ∃ s, (system sampleEnvironment).Reachable s ∧
    s.outputs.map (fun sent => (sent.callId, sent.handled.map Prod.fst)) =
      [("c1", ["c2", "c1", "c0"])] ∧
      (∃ t, s.tasks "c0" = some t ∧ t.phase = .done .failed ∧ t.cancelRequested = false) ∧
      ¬ (∀ sent ∈ s.outputs, NewestSince sent.handled sent.callId) ∧ ¬ OneFate s := by
  have hreach : (system sampleEnvironment).Reachable _ :=
    Transition.System.reachable_of_exec (s := initial)
      [.call "c0" "weather", .dispatch, .start "c0" false, .fail "c0",
        .call "c1" "weather", .dispatch, .start "c1" true, .call "c2" "flight",
        .release "c1", .finish "c1" [.token "Sunny"]] rfl rfl
  refine ⟨_, hreach, rfl, ⟨_, rfl, rfl, rfl⟩, fun h => ?_, fun h => ?_⟩
  · exact absurd (h _ List.mem_cons_self ("c2", true) (by decide)) (by decide)
  · exact absurd (h.answered "c0" _ rfl rfl rfl) (by decide)

end Runs

end GraphAgent.Realtime
