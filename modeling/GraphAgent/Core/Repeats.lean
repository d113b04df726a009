import GraphAgent.Core.JsonRoundTrip
import GraphAgent.Core.Turn
import GraphAgent.Library.Distinct

/-!
# Repeated calls

The repeat guard goes by the text of a call's arguments. Which of the calls of one stream it
refuses, and what it says of them.
-/

namespace GraphAgent

variable (g : Graph)

/-- The arguments with which a call comes to the repeat guard, if it does. -/
def guardedArgs? (manualMode : Bool) (call : ToolCall) (pass : Pass) : Option Args :=
  if known g call = false then none
  else if (policed g call pass).1.result.isSome then none
  else if needsApproval g call && manualMode then
    if pass.answers.head? = some true then some call.args else none
  else some (policed g call pass).1.args

/-- A call that came to the repeat guard, and what the guard made of it. -/
structure GuardedCall where
  name : String
  args : Args
  admission : Admission

/-- The calls of a pass that come to the repeat guard. -/
def guardedCalls (manualMode : Bool) : List ToolCall → Pass → List GuardedCall
  | [], _ => []
  | call :: rest, pass =>
      let admitted := admitCall g manualMode call pass
      ((guardedArgs? g manualMode call pass).map fun args =>
          ⟨call.name, args, admitted.1⟩).toList ++ guardedCalls manualMode rest admitted.2

/-- A thread with the calls that came to the guard since its stream began. -/
structure Stream where
  run : Run
  calls : List GuardedCall

/-- The calls of the stream after a step. An answer and a message begin a new stream. -/
def Stream.callsAfter (s : Stream) : Act → List GuardedCall
  | .tools _ =>
      s.calls ++ guardedCalls g (resolveApprovalMode s.run.state = .manual)
        (lastToolCalls s.run.state.messages) ⟨s.run.metrics, s.run.answers, []⟩
  | .resume _ _ => if s.run.waiting.isSome then [] else s.calls
  | .message _ => []
  | _ => s.calls

/-- The streams of a thread, from any state of it. -/
def streamSystem : Transition.System Stream Act where
  init s := ∃ state, s = ⟨.start state, []⟩
  step s a := (s.run.step g a).map fun next => ⟨next, s.callsAfter g a⟩

/-- What the guard makes of a call that came to it a number of times before. -/
def verdict (name : String) (args : Args) (count : Nat) : Admission :=
  if g.config.repeatToolCallLimit < (count + 1 : Nat) then
    .answered (repeatedToolCall name (count + 1))
  else .started args

/-- How often a signature came to the guard. -/
def tally (calls : List GuardedCall) (signature : String × String) : Nat :=
  calls.countP fun call => (call.name, call.args.signature) = signature

/-- Each call got the verdict on the number of its predecessors with its signature. -/
def Judged (calls : List GuardedCall) : Prop :=
  ∀ before call after, calls = before ++ call :: after →
    call.admission =
      verdict g call.name call.args (tally before (call.name, call.args.signature))

variable {g} {m : Bool} {call : ToolCall} {pass : Pass}

section Passes

theorem admission_admitGuarded (hlimit : 0 < g.config.repeatToolCallLimit)
    (callId name : String) (args : Args) (pass : Pass) :
    (admitGuarded g callId name args pass).1 =
      verdict g name args (pass.metrics.signatures (name, args.signature)) := by
  unfold admitGuarded verdict
  dsimp only
  by_cases hcount : g.config.repeatToolCallLimit <
      (pass.metrics.signatures (name, args.signature) + 1 : Nat)
  · rw [if_pos hcount, if_pos ⟨hlimit, hcount⟩]
  · rw [if_neg hcount, if_neg fun h => hcount h.2]

theorem signatures_admitGuarded_eq (hlimit : 0 < g.config.repeatToolCallLimit)
    (callId name : String) (args : Args) (pass : Pass) :
    (admitGuarded g callId name args pass).2.metrics.signatures =
      Function.update pass.metrics.signatures (name, args.signature)
        (pass.metrics.signatures (name, args.signature) + 1) := by
  rw [(admitGuarded_spec callId name args pass).2.2.2]
  unfold Pass.counted
  rw [if_pos hlimit]

/-- A call comes to the guard, or leaves the counts as they are. -/
theorem guardedArgs?_cases (g : Graph) (m : Bool) (call : ToolCall) (pass : Pass) :
    (∃ args pass', guardedArgs? g m call pass = some args ∧
      admitCall g m call pass = admitGuarded g call.callId call.name args pass' ∧
        pass'.metrics.signatures = pass.metrics.signatures) ∨
      guardedArgs? g m call pass = none ∧
        (admitCall g m call pass).2.metrics.signatures = pass.metrics.signatures := by
  unfold guardedArgs? admitCall known needsApproval
  dsimp only
  cases hget : g.registry.get call.name with
  | none => exact .inr ⟨rfl, rfl⟩
  | some spec =>
      rw [Option.isSome_some, Option.any_some, if_neg (by decide)]
      cases hresult : (policed g call pass).1.result with
      | some result =>
          rw [Option.isSome_some, if_pos rfl]
          exact .inr ⟨rfl, rfl⟩
      | none =>
          rw [Option.isSome_none, if_neg (by decide)]
          dsimp only
          by_cases hasks : (spec.requiresApproval && m) = true
          · rw [if_pos hasks, if_pos hasks]
            have hneeds : needsApproval g call = true := by
              rw [needsApproval, hget]
              exact (Bool.and_eq_true_iff.1 hasks).1
            rw [afterPolicies_of_needsApproval hneeds, policed_of_needsApproval hneeds]
            cases hanswers : pass.answers with
            | nil => exact .inr ⟨rfl, rfl⟩
            | cons approved later =>
                cases approved with
                | true => exact .inl ⟨call.args, _, rfl, rfl, rfl⟩
                | false => exact .inr ⟨rfl, rfl⟩
          · rw [if_neg hasks, if_neg hasks]
            exact .inl ⟨_, _, rfl, rfl, rfl⟩

/-- The counts of a list of calls and of the one behind it. -/
theorem tally_concat (before : List GuardedCall) (call : GuardedCall) :
    tally (before ++ [call]) = Function.update (tally before) (call.name, call.args.signature)
      (tally before (call.name, call.args.signature) + 1) := by
  funext signature
  unfold tally
  rw [List.countP_append, List.countP_singleton]
  by_cases h : signature = (call.name, call.args.signature)
  · rw [h, Function.update_self, if_pos (by simp)]
  · rw [Function.update_of_ne h, if_neg (by simpa using Ne.symm h), Nat.add_zero]

theorem Judged.concat {before : List GuardedCall} {call : GuardedCall} (h : Judged g before)
    (hcall : call.admission =
      verdict g call.name call.args (tally before (call.name, call.args.signature))) :
    Judged g (before ++ [call]) := by
  intro front other after hsplit
  rcases Distinct.concat_eq_append_cons hsplit with ⟨rfl, rfl⟩ | ⟨after, hbefore⟩
  · exact hcall
  · exact h front other after hbefore

/-- Over a pass the counters stay the tally of the calls that came to the guard, and each of
these got its verdict. -/
theorem judged_guardedCalls (hlimit : 0 < g.config.repeatToolCallLimit) (m : Bool)
    (calls : List ToolCall) (pass : Pass) {before : List GuardedCall} (h : Judged g before)
    (hcounts : pass.metrics.signatures = tally before) :
    Judged g (before ++ guardedCalls g m calls pass) ∧
      (admitAll g m calls pass).2.metrics.signatures =
        tally (before ++ guardedCalls g m calls pass) := by
  induction calls generalizing pass before with
  | nil =>
      rw [guardedCalls, List.append_nil]
      exact ⟨h, hcounts⟩
  | cons call rest ih =>
      rw [guardedCalls]
      simp only [admitAll]
      rcases guardedArgs?_cases g m call pass with ⟨args, pass', hargs, hAllowed, hsame⟩ | ⟨hargs, hsame⟩
      · have hadmission := admission_admitGuarded hlimit call.callId call.name args pass'
        have hmetrics := signatures_admitGuarded_eq hlimit call.callId call.name args pass'
        rw [hsame, hcounts] at hadmission hmetrics
        rw [hargs, Option.map_some, Option.toList_some, ← List.append_assoc]
        refine ih _ (h.concat ?_) ?_
        · rw [hAllowed]
          exact hadmission
        · rw [hAllowed, hmetrics, tally_concat]
      · rw [hargs, Option.map_none, Option.toList_none, List.nil_append]
        exact ih _ h (hsame.trans hcounts)

end Passes

section Streams

variable {s s' : Stream}

/-- The counters of a stream are the tally of its calls, and each call got its verdict. -/
structure Stream.Judges (g : Graph) (s : Stream) : Prop where
  judged : Judged g s.calls
  counts : s.run.metrics.signatures = tally s.calls

theorem judged_nil : Judged g [] := fun before _ _ h => absurd h (by simp)

theorem Stream.Judges.step (hlimit : 0 < g.config.repeatToolCallLimit) (h : s.Judges g) {a : Act}
    (hstep : (streamSystem g).step s a = some s') : s'.Judges g := by
  obtain ⟨next, hrun, rfl⟩ := Option.map_eq_some_iff.1 hstep
  cases a with
  | tools outcomes =>
      obtain ⟨-, rfl⟩ := Run.step_tools hrun
      obtain ⟨hjudged, hcounts⟩ := judged_guardedCalls hlimit
        (resolveApprovalMode s.run.state = .manual) (lastToolCalls s.run.state.messages)
        ⟨s.run.metrics, s.run.answers, []⟩ h.judged h.counts
      exact ⟨hjudged, by rw [metrics_toolsStep]; exact hcounts⟩
  | resume approvalId approved =>
      unfold Stream.callsAfter
      rcases Run.step_resume hrun with ⟨hwaiting, rfl⟩ | ⟨payload, hwaiting, rfl⟩
      · rw [hwaiting]
        exact h
      · rw [hwaiting]
        exact ⟨judged_nil, rfl⟩
  | message input =>
      obtain rfl := Option.some.inj hrun
      exact ⟨judged_nil, rfl⟩
  | _ =>
      have hcounts := (counters_step hrun (by simp) (by simp) (by simp)).1
      exact ⟨h.judged, hcounts.trans h.counts⟩

/-- Two calls of one tool whose arguments are the same up to the order of keys. -/
def Identical (call other : GuardedCall) : Prop :=
  other.name = call.name ∧ other.args.SameUpToOrder call.args

open Classical in
/-- How often a call came to the guard before. -/
noncomputable def repeatsOf (call : GuardedCall) (before : List GuardedCall) : Nat :=
  before.countP fun other => Identical call other

theorem tally_eq_repeatsOf {reprFloat : String → String} {call : GuardedCall}
    {before : List GuardedCall} (hcall : (Value.obj call.args).Proper reprFloat)
    (hbefore : ∀ other ∈ before, (Value.obj other.args).Proper reprFloat) :
    tally before (call.name, call.args.signature) = repeatsOf call before := by
  refine List.countP_congr fun other hother => ?_
  simp only [decide_eq_true_eq]
  rw [Prod.mk.injEq, signature_eq_iff (hbefore other hother) hcall]
  rfl

/-- In every stream of a thread the repeat guard starts exactly the first calls of a tool with
the same arguments, as many as the limit allows, whatever the order of the keys; to every later
one it says how often the call came before. -/
theorem repeats_judged {reprFloat : String → String} (hlimit : 0 < g.config.repeatToolCallLimit)
    (h : (streamSystem g).Reachable s)
    (hproper : ∀ call ∈ s.calls, (Value.obj call.args).Proper reprFloat)
    {before after : List GuardedCall} {call : GuardedCall}
    (hsplit : s.calls = before ++ call :: after) :
    call.admission = verdict g call.name call.args (repeatsOf call before) := by
  have hjudges : s.Judges g := by
    apply h.invariant
    · rintro s ⟨state, rfl⟩
      exact ⟨judged_nil, rfl⟩
    · intro s a s' hs _ hstep
      exact hs.step hlimit hstep
  rw [hsplit] at hproper
  rw [hjudges.judged before call after hsplit, tally_eq_repeatsOf
    (hproper call (List.mem_append_right _ List.mem_cons_self))
    fun other hother => hproper other (List.mem_append_left _ hother)]

/-- A listing, and the same with its arguments the other way round. -/
def listArgs : Args := [("action", .str "list"), ("path", .str ".")]

def listArgsReversed : Args := [("path", .str "."), ("action", .str "list")]

/-- The stream in which both are asked for, where each call is allowed once. -/
def listStream : Option Stream :=
  (streamSystem strictGraph).exec ⟨.start {}, []⟩
    [.compact (.ok ""),
      .reply [{ toolCalls := [⟨some "c1", "filesystem", listArgs⟩,
        ⟨some "c2", "filesystem", listArgsReversed⟩] }] none,
      .tools fun _ => .returned .null]

/-- The second call is refused. -/
theorem repeats_judged_reordered : ∃ first second, listStream.map Stream.calls = some [first, second] ∧
    second.admission = .answered (repeatedToolCall "filesystem" 2) ∧
      second.admission =
        verdict strictGraph second.name second.args (repeatsOf second [first]) := by
  have hcalls : listStream.map Stream.calls = some
      [⟨"filesystem", listArgs, .started listArgs⟩,
        ⟨"filesystem", listArgsReversed, .answered (repeatedToolCall "filesystem" 2)⟩] := rfl
  obtain ⟨s, hexec, hs⟩ := Option.map_eq_some_iff.1 hcalls
  have hproper : ∀ call ∈ s.calls, (Value.obj call.args).Proper id := by
    rw [hs]
    simp [listArgs, listArgsReversed, Value.Proper, Value.ProperFields]
  exact ⟨_, _, hcalls, rfl, repeats_judged (by decide)
    (Transition.System.reachable_of_exec _ ⟨{}, rfl⟩ hexec) hproper hs⟩

end Streams

end GraphAgent
