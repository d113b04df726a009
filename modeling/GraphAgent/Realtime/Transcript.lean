import GraphAgent.Library.Conveyor
import GraphAgent.Realtime.Outputs

/-!
# The way of a recorded turn to the brain

A recorded turn waits in the buffer until a call drains it, and from there on it
goes with the call and its task until the first step of the task passes it to
`service.run`. A task that is cancelled before that step takes its turns with it.
-/

namespace GraphAgent.Realtime

variable {env : Environment} {s s' : Supervisor} {callId : String} {t t' : Delegation}

/-- The turns that were passed to `service.run`. -/
def Supervisor.passed (s : Supervisor) : List RecordedTurn := s.runs.flatMap BrainRun.context

/-- No call is being handled, and every task has taken its first step. -/
def AtRest (s : Supervisor) : Prop :=
  s.handling = .idle ∧ ∀ callId t, s.tasks callId = some t → t.phase ≠ .created

/-- No turn is passed twice or before an older one, and a turn that the cap did not
push out is in the buffer or has been passed. -/
structure TurnsKept (s : Supervisor) : Prop where
  ordered : (s.passed.map RecordedTurn.index).Pairwise (· < ·)
  kept : AtRest s → ∀ index < s.recorded, index ∈ s.pushedOut ∨
    index ∈ s.buffer.map RecordedTurn.index ∨ index ∈ s.passed.map RecordedTurn.index

/-- A task that still has to take its first step has no turns to pass. -/
def NothingToPass (s : Supervisor) : Prop :=
  ∀ old t, s.active = some old → s.tasks old = some t → t.phase = .created → t.context = []

/-- The active task is cancelled only when it has passed its turns on. -/
def PassesFirst (env : Environment) (s : Supervisor) : Step → Prop
  | .call callId arguments => Accepts env s callId arguments → NothingToPass s
  | .close => NothingToPass s
  | _ => True

section Line

/-- The turns that a task is going to pass. -/
def Delegation.carried (t : Delegation) : List RecordedTurn :=
  if t.phase = .created ∧ t.cancelling = false then t.context else []

/-- The turns on their way from the buffer to `service.run`. -/
def Supervisor.carried (s : Supervisor) : List RecordedTurn :=
  match s.handling with
  | .greeting _ _ _ context => context
  | _ => ((s.active.bind s.tasks).map Delegation.carried).getD []

/-- All turns that are not lost, the ones that were passed first. -/
def Supervisor.line (s : Supervisor) : List RecordedTurn := s.passed ++ (s.carried ++ s.buffer)

theorem carried_of_phase (hphase : t.phase ≠ .created) : t.carried = [] :=
  if_neg fun h => hphase h.1

theorem carried_of_cancelling (hcancelling : t.cancelling = true) : t.carried = [] :=
  if_neg fun h => absurd (hcancelling.symm.trans h.2) (by decide)

theorem carried_of_nothingToPass (h : NothingToPass s) (hidle : s.handling = .idle) :
    s.carried = [] := by
  unfold Supervisor.carried
  rw [hidle]
  cases hactive : s.active with
  | none => rfl
  | some old =>
      cases ht : s.tasks old with
      | none => simp only [Option.bind_some, ht, Option.map_none, Option.getD_none]
      | some t =>
          simp only [Option.bind_some, ht, Option.map_some, Option.getD_some]
          by_cases hphase : t.phase = .created
          · unfold Delegation.carried
            rw [h old t hactive ht hphase, ite_self]
          · exact carried_of_phase hphase

theorem AtRest.nothingToPass (h : AtRest s) : NothingToPass s :=
  fun old t _ ht hphase => absurd hphase (h.2 old t ht)

/-- What a task is going to pass does not change where neither its old nor its new
state has anything to pass. -/
theorem carried_setTask (ht : s.tasks callId = some t) (hbefore : t.carried = [])
    (hafter : t'.carried = []) : (s.setTask callId t').carried = s.carried := by
  unfold Supervisor.carried
  cases hhandling : s.handling with
  | greeting other prompt revision context => simp only [Supervisor.setTask, hhandling]
  | idle | awaiting =>
      simp only [Supervisor.setTask, hhandling]
      cases hactive : s.active with
      | none => rfl
      | some other =>
          simp only [Option.bind_some]
          by_cases heq : other = callId
          · subst heq
            simp only [Function.update_self, ht, Option.map_some, hbefore, hafter]
          · rw [Function.update_of_ne heq]

theorem active_cancelActive (s : Supervisor) : s.cancelActive.active = none := by
  unfold Supervisor.cancelActive
  split
  case h_1 hactive => exact hactive
  case h_2 => rfl

theorem handling_cancelActive (s : Supervisor) : s.cancelActive.handling = s.handling := by
  unfold Supervisor.cancelActive
  split <;> rfl

theorem carried_cancelActive (hidle : s.handling = .idle) : s.cancelActive.carried = [] := by
  unfold Supervisor.carried
  rw [handling_cancelActive, hidle, active_cancelActive]
  rfl

theorem line_cancelActive (hidle : s.handling = .idle) (hcarried : s.carried = []) :
    s.cancelActive.line = s.line := by
  unfold Supervisor.line
  rw [carried_cancelActive hidle, hcarried]
  unfold Supervisor.passed Supervisor.cancelActive
  split <;> rfl

theorem tasks_cancelActive (ht : s.cancelActive.tasks callId = some t') :
    s.tasks callId = some t' ∧ s.active ≠ some callId ∨
      ∃ t, s.tasks callId = some t ∧ t' = t.cancel := by
  unfold Supervisor.cancelActive at ht
  split at ht
  case h_1 hactive => exact Or.inl ⟨ht, fun hother => nomatch hactive.symm.trans hother⟩
  case h_2 old hactive =>
    change Function.update s.tasks old ((s.tasks old).map .cancel) callId = some t' at ht
    by_cases hsame : callId = old
    · subst hsame
      rw [Function.update_self, Option.map_eq_some_iff] at ht
      obtain ⟨t, ht, rfl⟩ := ht
      exact Or.inr ⟨t, ht, rfl⟩
    · rw [Function.update_of_ne hsame] at ht
      exact Or.inl ⟨ht, fun hother => hsame (Option.some.inj (hother.symm.trans hactive))⟩

end Line

section Flow

/-- What holds of the turns and the tasks that carry them. -/
structure Flow (s : Supervisor) : Prop where
  line : Conveyor.Carries s.recorded s.pushedOut (s.line.map RecordedTurn.index)
  created : ∀ callId t, s.tasks callId = some t → t.phase = .created → t.cancelling = false →
    s.active = some callId
  busy : s.handling ≠ .idle → s.active = none

theorem flow_initial : Flow initial where
  line := Conveyor.carries_empty
  created := nofun
  busy h := absurd rfl h

theorem Flow.turnsKept (h : Flow s) : TurnsKept s := by
  have hline := h.line
  constructor
  case ordered =>
    exact hline.ordered.sublist
      ((List.sublist_append_left s.passed (s.carried ++ s.buffer)).map RecordedTurn.index)
  case kept =>
    intro hrest index hindex
    have hcarried := carried_of_nothingToPass hrest.nothingToPass hrest.1
    rcases hline.kept index hindex with hpushed | hmem
    · exact Or.inl hpushed
    · rw [Supervisor.line, hcarried, List.nil_append, List.map_append, List.mem_append] at hmem
      exact Or.inr hmem.symm

theorem Flow.accept (h : Flow s) (callId : String) (hasPrompt : Bool) :
    Flow (s.accept callId hasPrompt) := ⟨h.line, h.created, h.busy⟩

theorem Flow.sendOutput (h : Flow s) (callId output : String) : Flow (s.sendOutput callId output) :=
  ⟨h.line, h.created, h.busy⟩

theorem Flow.setTask (h : Flow s) (ht : s.tasks callId = some t) (hbefore : t.carried = [])
    (hphase : t'.phase ≠ .created) : Flow (s.setTask callId t') := by
  have hcarried := carried_setTask ht hbefore (carried_of_phase hphase)
  constructor
  case line =>
    have hline : (s.setTask callId t').line = s.line := by
      unfold Supervisor.line
      rw [hcarried]
      rfl
    rw [hline]
    exact h.line
  case created =>
    intro other u hu hcreated hfree
    by_cases heq : other = callId
    · subst heq
      obtain rfl : t' = u := by simpa [Supervisor.setTask] using hu
      exact absurd hcreated hphase
    · exact h.created other u ((Function.update_of_ne heq _ _).symm.trans hu) hcreated hfree
  case busy => exact h.busy

theorem Flow.append (h : Flow s) (message : Message) : Flow (s.append message) := by
  refine ⟨?_, h.created, h.busy⟩
  have harrive := h.line.arrive
  have hline : (s.line ++ [RecordedTurn.mk s.recorded message]).map RecordedTurn.index =
      (s.passed ++ s.carried).map RecordedTurn.index ++
        (s.buffer ++ [RecordedTurn.mk s.recorded message]).map RecordedTurn.index := by
    simp [Supervisor.line]
  rw [List.map_append, List.map_singleton] at hline
  rw [hline] at harrive
  have hshed := harrive.shed
    ((s.buffer ++ [RecordedTurn.mk s.recorded message]).length - maxContextMessages)
  rw [← List.map_take, ← List.map_drop, ← List.map_append, List.append_assoc] at hshed
  exact hshed

/-- The buffer goes over to the call when no task has anything to pass. -/
theorem Flow.greet (h : Flow s) (hactive : s.active = none) (hcarried : s.carried = [])
    (callId prompt : String) : Flow (s.greet callId prompt) := by
  refine ⟨?_, h.created, fun _ => hactive⟩
  have hline : (s.greet callId prompt).line = s.line := by
    simp only [Supervisor.line, Supervisor.greet, Supervisor.carried, Supervisor.passed] at hcarried ⊢
    rw [hcarried, List.append_nil, List.nil_append]
  rw [hline]
  exact h.line

/-- A task that has nothing to pass may be cancelled. -/
theorem Flow.cancelActive (h : Flow s) (hnothing : NothingToPass s) (hidle : s.handling = .idle) :
    Flow s.cancelActive := by
  refine ⟨?line, ?created, fun _ => active_cancelActive s⟩
  case line =>
    rw [line_cancelActive hidle (carried_of_nothingToPass hnothing hidle)]
    unfold Supervisor.cancelActive
    split <;> exact h.line
  case created =>
    intro other u hu hcreated hfree
    rcases tasks_cancelActive hu with ⟨hkept, hother⟩ | ⟨t, ht, rfl⟩
    · exact absurd (h.created other u hkept hcreated hfree) hother
    · rw [phase_cancel] at hcreated
      have hopen : t.isDone = false :=
        isDone_of_phase fun how hdone => nomatch hcreated.symm.trans hdone
      exact absurd ((isDone_eq_false hopen).2.1.symm.trans hfree) (by decide)

theorem Flow.supersede (h : Flow s) (hnothing : NothingToPass s) (hidle : s.handling = .idle)
    (callId prompt : String) : Flow (s.supersede callId prompt) := by
  have hcancelled := h.cancelActive hnothing hidle
  have hinactive := active_cancelActive s
  have hcarried := carried_cancelActive hidle
  unfold Supervisor.supersede
  split
  case h_1 hactive =>
    exact h.greet hactive (carried_of_nothingToPass hnothing hidle) callId prompt
  case h_2 old hactive =>
    split
    case isTrue => exact hcancelled.greet hinactive hcarried callId prompt
    case isFalse =>
      refine ⟨?_, hcancelled.created, fun _ => hinactive⟩
      have hline : Supervisor.line { s.cancelActive with handling := .awaiting old callId prompt } =
          s.cancelActive.line := by
        unfold Supervisor.line
        rw [hcarried]
        simp only [Supervisor.carried, hinactive]
        rfl
      rw [hline]
      exact hcancelled.line

theorem Flow.call (h : Flow s) {arguments : String}
    (hguard : PassesFirst env s (.call callId arguments))
    (hstep : callStep env s callId arguments = some s') : Flow s' := by
  obtain ⟨hidle, rfl | ⟨hnew, rfl | ⟨hprompt, rfl⟩⟩⟩ := callStep_cases hstep
  · exact h
  · exact (h.accept callId false).sendOutput callId emptyPromptError
  · exact (h.accept callId true).supersede (hguard ⟨hnew, hprompt⟩) hidle callId _

theorem Flow.wake (h : Flow s) (hstep : wakeStep s = some s') : Flow s' := by
  obtain ⟨old, callId, prompt, hawaiting, rfl⟩ := wakeStep_cases hstep
  have hinactive : s.active = none := h.busy fun hidle => nomatch hawaiting.symm.trans hidle
  refine h.greet hinactive ?_ callId prompt
  unfold Supervisor.carried
  rw [hawaiting, hinactive]
  rfl

theorem Flow.dispatch (h : Flow s) (hstep : dispatchStep s = some s') : Flow s' := by
  obtain ⟨callId, prompt, revision, context, hgreeting, rfl⟩ := dispatchStep_cases hstep
  have hinactive : s.active = none := h.busy fun hidle =>
    absurd (hgreeting.symm.trans hidle) (by simp)
  refine ⟨?line, ?created, fun hbusy => absurd rfl hbusy⟩
  case line =>
    have hline := h.line
    simp only [Supervisor.line, Supervisor.carried, hgreeting] at hline
    simp only [Supervisor.line, Supervisor.carried, Supervisor.setTask, Option.bind_some,
      Function.update_self, Option.map_some, Option.getD_some, Delegation.carried]
    exact hline
  case created =>
    intro other u hu hcreated hfree
    by_cases hsame : other = callId
    · exact congrArg some hsame.symm
    · have hother := h.created other u ((Function.update_of_ne hsame _ _).symm.trans hu)
        hcreated hfree
      exact absurd (hinactive.symm.trans hother) (by simp)

/-- The first step of a task passes its turns on, unless it has been cancelled. -/
theorem Flow.start (h : Flow s) {blocked : Bool} (hstep : startStep s callId blocked = some s') :
    Flow s' := by
  obtain ⟨t, ht, hphase, hcases⟩ := startStep_cases hstep
  rcases hcases with ⟨hcancelling, rfl⟩ | ⟨hfree, rfl⟩
  · exact h.setTask ht (carried_of_cancelling hcancelling) nofun
  · have hactive : s.active = some callId := h.created callId t ht hphase hfree
    have hidle : s.handling = .idle := by
      by_contra hbusy
      exact nomatch hactive.symm.trans (h.busy hbusy)
    have hstarted : (if blocked then DelegationPhase.waiting else .running) ≠ .created := by
      cases blocked <;> nofun
    refine ⟨?line, ?created, h.busy⟩
    case line =>
      have hline := h.line
      simp only [Supervisor.line, Supervisor.carried, hidle, hactive, Option.bind_some, ht,
        Option.map_some, Option.getD_some, Delegation.carried, hphase,
        hfree, and_self, if_true] at hline
      simp only [Supervisor.line, Supervisor.carried, Supervisor.passed, Supervisor.setTask, hidle,
        hactive, Option.bind_some, Function.update_self, Option.map_some, Option.getD_some,
        List.flatMap_append, List.flatMap_singleton]
      rw [carried_of_phase hstarted, List.nil_append, List.append_assoc]
      exact hline
    case created =>
      intro other u hu hcreated hfree
      by_cases hsame : other = callId
      · exact hactive.trans (congrArg some hsame.symm)
      · exact h.created other u ((Function.update_of_ne hsame _ _).symm.trans hu) hcreated hfree

/-- Later steps of a task leave the turns alone. -/
theorem Flow.taskStep (h : Flow s) (ht : s.tasks callId = some t) (hbefore : t.phase ≠ .created)
    (hafter : t'.phase ≠ .created) : Flow (s.setTask callId t') :=
  h.setTask ht (carried_of_phase hbefore) hafter

theorem Flow.release (h : Flow s) (hstep : releaseStep s callId = some s') : Flow s' := by
  obtain ⟨t, ht, hphase, rfl⟩ := releaseStep_cases hstep
  exact h.taskStep ht (by simp [hphase]) nofun

theorem Flow.finish (h : Flow s) {events : List Event}
    (hstep : finishStep env s callId events = some s') : Flow s' := by
  obtain ⟨t, ht, hphase, -, hcases⟩ := finishStep_cases hstep
  rcases hcases with ⟨-, rfl⟩ | ⟨-, rfl⟩
  · have hreplying : Flow (s.setTask callId { t with phase := .replying }) :=
      h.taskStep ht (by simp [hphase]) nofun
    exact hreplying.sendOutput callId _
  · exact h.taskStep ht (by simp [hphase]) nofun

theorem Flow.fail (h : Flow s) (hstep : failStep s callId = some s') : Flow s' := by
  obtain ⟨t, ht, hphase, rfl⟩ := failStep_cases hstep
  exact h.taskStep ht (by simp [hphase]) nofun

theorem Flow.abort (h : Flow s) (hstep : abortStep s callId = some s') : Flow s' := by
  obtain ⟨t, ht, hphase, -, rfl⟩ := abortStep_cases hstep
  refine h.taskStep ht (fun hcreated => ?_) nofun
  simp [hcreated] at hphase

theorem Flow.replied (h : Flow s) (hstep : repliedStep s callId = some s') : Flow s' := by
  obtain ⟨t, ht, hphase, rfl⟩ := repliedStep_cases hstep
  exact h.taskStep ht (by simp [hphase]) nofun

theorem Flow.step {a : Step} (h : Flow s) (hguard : PassesFirst env s a)
    (hstep : step env s a = some s') : Flow s' := by
  cases a with
  | call callId arguments => exact h.call hguard hstep
  | wake => exact h.wake hstep
  | dispatch => exact h.dispatch hstep
  | start callId blocked => exact h.start hstep
  | release callId => exact h.release hstep
  | finish callId events => exact h.finish hstep
  | fail callId => exact h.fail hstep
  | abort callId => exact h.abort hstep
  | replied callId => exact h.replied hstep
  | record event =>
      rcases step_record hstep with rfl | ⟨message, rfl⟩
      · exact h
      · exact h.append message
  | close =>
      obtain ⟨hidle, rfl⟩ := step_close hstep
      exact h.cancelActive hguard hidle

/-- As long as no task is cancelled that still has turns to pass, every recorded turn
reaches the brain once and in order. -/
theorem turnsKept_of_passesFirst (env : Environment) {s : Supervisor}
    (h : (system env).ReachableWithin (PassesFirst env) s) : TurnsKept s := by
  have hflow : Flow s := by
    apply h.invariant
    · rintro s rfl
      exact flow_initial
    · intro s a s' hs hguard hstep
      exact hs.step hguard hstep
  exact hflow.turnsKept

end Flow

section Runs

/-- What the backend sends when it has transcribed the user. -/
def userTurn (text : String) : Args :=
  [("type", .str "conversation.item.input_audio_transcription.completed"),
    ("transcript", .str text)]

/-- Two delegations, with a turn recorded before each of them and one while the first
is still running. -/
theorem turnsKept_twice : ∃ s,
    (system sampleEnvironment).ReachableWithin (PassesFirst sampleEnvironment) s ∧
      s.passed.map RecordedTurn.message = [humanTurn "Hello", humanTurn "And flights?"] ∧
      TurnsKept s := by
  have hreach : (system sampleEnvironment).ReachableWithin (PassesFirst sampleEnvironment) _ :=
    ⟨initial, [.record (userTurn "Hello"), .call "c1" "weather", .dispatch, .start "c1" false,
      .record (userTurn "And flights?"), .finish "c1" [.token "Sunny"], .replied "c1",
      .call "c2" "flight", .dispatch, .start "c2" false, .record (userTurn "Thanks")], rfl,
      Transition.System.run_of_exec rfl (by
        refine Transition.System.meets_cons rfl trivial ?_
        refine Transition.System.meets_cons rfl (fun _ _ _ => nofun) ?_
        refine Transition.System.meets_cons rfl trivial ?_
        refine Transition.System.meets_cons rfl trivial ?_
        refine Transition.System.meets_cons rfl trivial ?_
        refine Transition.System.meets_cons rfl trivial ?_
        refine Transition.System.meets_cons rfl trivial ?_
        refine Transition.System.meets_cons rfl (fun _ => ?_) ?_
        · rintro old t ⟨⟩ ⟨⟩
          nofun
        repeat' refine Transition.System.meets_cons rfl trivial ?_
        trivial)⟩
  exact ⟨_, hreach, rfl, turnsKept_of_passesFirst sampleEnvironment hreach⟩

/-- A second call cancels the task of the first before its first step, and the turn
that the first call had drained is gone. -/
theorem superseded_task_loses_turn : ∃ s, (system sampleEnvironment).Reachable s ∧
    AtRest s ∧ s.recorded = 1 ∧ s.pushedOut = [] ∧ s.buffer.map RecordedTurn.index = [] ∧
      s.runs.map BrainRun.request = ["When does the flight leave?" ++ delegateRequestSuffix] ∧
      s.passed.map RecordedTurn.index = [] ∧ ¬ TurnsKept s := by
  have hreach : (system sampleEnvironment).Reachable _ :=
    Transition.System.reachable_of_exec (s := initial)
      [.record (userTurn "Hello"), .call "c1" "weather", .dispatch, .call "c2" "flight",
        .start "c1" false, .wake, .dispatch, .start "c2" false] rfl rfl
  refine ⟨_, hreach, ?_⟩
  refine (fun hrest : AtRest _ => ⟨hrest, rfl, rfl, rfl, rfl, rfl, fun h => ?lost⟩) ⟨rfl, ?rest⟩
  case rest =>
    intro callId t ht
    by_cases hsecond : callId = "c2"
    · subst hsecond
      obtain rfl := Option.some.inj ht
      nofun
    · by_cases hfirst : callId = "c1"
      · subst hfirst
        obtain rfl := Option.some.inj ht
        nofun
      · change Function.update (Function.update (Function.update (Function.update (Function.update
          (fun _ => none) "c1" _) "c1" _) "c1" _) "c2" _) "c2" _ callId = some t at ht
        simp only [Function.update_of_ne hfirst, Function.update_of_ne hsecond] at ht
        exact nomatch ht
  case lost =>
    rcases h.kept hrest 0 (by decide) with hpushed | hbuffer | hpassed
    · exact absurd hpushed List.not_mem_nil
    · exact absurd hbuffer List.not_mem_nil
    · exact absurd hpassed List.not_mem_nil

end Runs

end GraphAgent.Realtime
