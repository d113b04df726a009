import GraphAgent.Core.Run

/-!
# A pass over the tool calls of a message

In manual mode a pass gives the recorded answers to the calls that need an
approval, in call order. The first of them without an answer is the one that
the pass reports as interrupted.
-/

namespace GraphAgent

variable {g : Graph}

/-- The tool of a call is registered and asks for an approval. -/
def needsApproval (g : Graph) (call : ToolCall) : Bool :=
  (g.registry.get call.name).any ToolSpec.requiresApproval

/-- The tool of a call is registered. -/
def known (g : Graph) (call : ToolCall) : Bool := (g.registry.get call.name).isSome

def Admission.isStarted : Admission → Bool
  | .started _ => true
  | _ => false

def Admission.isInterrupted : Admission → Bool
  | .interrupted _ => true
  | _ => false

theorem not_needsApproval_of_unknown {call : ToolCall} (h : known g call = false) :
    needsApproval g call = false := by
  unfold known at h
  unfold needsApproval
  cases hget : g.registry.get call.name with
  | none => rfl
  | some spec =>
      rw [hget] at h
      exact nomatch h

theorem name_of_needsApproval {call : ToolCall} (h : needsApproval g call = true) :
    call.name ≠ "web_search" := by
  intro hname
  unfold needsApproval at h
  rw [hname] at h
  cases hget : g.registry.get "web_search" with
  | none => simp [hget] at h
  | some spec => simp [hget, ToolRegistry.get_web_search hget] at h

theorem known_congr {call other : ToolCall} (h : call.name = other.name) :
    known g call = known g other := by
  unfold known
  rw [h]

theorem needsApproval_congr {call other : ToolCall} (h : call.name = other.name) :
    needsApproval g call = needsApproval g other := by
  unfold needsApproval
  rw [h]

section Guard

variable (callId name : String) (args : Args) (pass : Pass)

@[simp] theorem answers_counted (signature : String × String) :
    (pass.counted g signature).answers = pass.answers := by
  unfold Pass.counted
  split <;> rfl

@[simp] theorem policyState_counted (signature : String × String) :
    (pass.counted g signature).metrics.policyState = pass.metrics.policyState := by
  unfold Pass.counted
  split <;> rfl

theorem signatures_counted {signature other : String × String} (h : other ≠ signature) :
    (pass.counted g signature).metrics.signatures other = pass.metrics.signatures other := by
  unfold Pass.counted
  split
  · exact Function.update_of_ne h _ _
  · rfl

/-- The repeat guard counts the call and then refuses or starts it. -/
theorem admitGuarded_spec :
    (admitGuarded g callId name args pass).1.isInterrupted = false ∧
      (admitGuarded g callId name args pass).2.answers = pass.answers ∧
      (admitGuarded g callId name args pass).2.metrics.policyState = pass.metrics.policyState ∧
      (admitGuarded g callId name args pass).2.metrics.signatures =
        (pass.counted g (name, args.signature)).metrics.signatures := by
  unfold admitGuarded
  dsimp only
  split
  · exact ⟨rfl, answers_counted pass _, policyState_counted pass _, rfl⟩
  · exact ⟨rfl, answers_counted pass _, policyState_counted pass _, rfl⟩

/-- The repeat guard lets a signature through that it has not seen yet. -/
theorem isStarted_admitGuarded
    (h : pass.metrics.signatures (name, args.signature) = 0) :
    (admitGuarded g callId name args pass).1.isStarted = true := by
  unfold admitGuarded
  dsimp only
  rw [if_neg]
  · rfl
  · rw [h]
    omega

theorem signatures_admitGuarded {other : String} (h : other ≠ name) (text : String) :
    (admitGuarded g callId name args pass).2.metrics.signatures (other, text) =
      pass.metrics.signatures (other, text) := by
  rw [(admitGuarded_spec callId name args pass).2.2.2]
  apply signatures_counted
  intro heq
  exact h (congrArg Prod.fst heq)

end Guard

section Admit

/-- The ways in which a call comes out of `admitCall`: its tool is unknown, a policy
blocks it, it comes to the repeat guard without an approval, or it waits for
its approval, has it, or is denied. -/
inductive Admitted (g : Graph) (manualMode : Bool) (call : ToolCall) (pass : Pass) :
    Admission × Pass → Prop
  | unknown (hknown : known g call = false) :
      Admitted g manualMode call pass
        (.answered ("unknown tool: " ++ call.name),
          (pass.announce call.callId call.name call.args).refuse call.callId call.name
            ("unknown tool: " ++ call.name) true)
  | blocked (hneeds : needsApproval g call = false) (result : String)
      (hresult : (policed g call pass).1.result = some result) :
      Admitted g manualMode call pass
        (.answered (toolMessageContent g.config.maxToolOutputChars (.str result)),
          ((afterPolicies g call pass).announce call.callId call.name
            (policed g call pass).1.args).refuse call.callId call.name result
              (policed g call pass).1.isError)
  | unattended (hknown : known g call = true) (hneeds : (needsApproval g call && manualMode) = false)
      (hresult : (policed g call pass).1.result = none) :
      Admitted g manualMode call pass
        (admitGuarded g call.callId call.name (policed g call pass).1.args
          (afterPolicies g call pass))
  | waits (hneeds : needsApproval g call = true) (hanswers : pass.answers = []) :
      Admitted g manualMode call pass
        (.interrupted ⟨call.callId, call.callId, call.name, call.args⟩, pass)
  | approved (hneeds : needsApproval g call = true) (later : List Bool)
      (hanswers : pass.answers = true :: later) :
      Admitted g manualMode call pass
        (admitGuarded g call.callId call.name call.args { pass with answers := later })
  | denied (hneeds : needsApproval g call = true) (later : List Bool)
      (hanswers : pass.answers = false :: later) :
      Admitted g manualMode call pass
        (.answered "user denied tool execution",
          { pass with answers := later }.refuse call.callId call.name
            "user denied tool execution" true)

variable {call : ToolCall} {pass : Pass}

/-- The policies have nothing to say to a call that needs an approval. -/
theorem policed_of_needsApproval (h : needsApproval g call = true) (pass : Pass) :
    policed g call pass = ({ args := call.args }, pass.metrics.policyState) :=
  applyPolicies_other (name_of_needsApproval h) _ _

theorem afterPolicies_of_needsApproval (h : needsApproval g call = true) (pass : Pass) :
    afterPolicies g call pass = pass := by
  unfold afterPolicies
  rw [policed_of_needsApproval h]

theorem admitted (g : Graph) (manualMode : Bool) (call : ToolCall) (pass : Pass) :
    Admitted g manualMode call pass (admitCall g manualMode call pass) := by
  unfold admitCall
  dsimp only
  cases hget : g.registry.get call.name with
  | none => exact .unknown (by rw [known, hget]; rfl)
  | some spec =>
      have hknown : known g call = true := by rw [known, hget]; rfl
      have hspec : needsApproval g call = spec.requiresApproval := by rw [needsApproval, hget]; rfl
      dsimp only
      cases hresult : (policed g call pass).1.result with
      | some result =>
          have hneeds : needsApproval g call = false := by
            by_contra hasks
            rw [policed_of_needsApproval (Bool.not_eq_false _ ▸ hasks)] at hresult
            exact nomatch hresult
          exact .blocked hneeds result hresult
      | none =>
          dsimp only
          split
          case isFalse hfree =>
            exact .unattended hknown (by rw [hspec]; simpa using hfree) hresult
          case isTrue hasks =>
            have hneeds : needsApproval g call = true := by
              rw [hspec]
              exact (Bool.and_eq_true_iff.mp hasks).1
            rw [afterPolicies_of_needsApproval hneeds, policed_of_needsApproval hneeds]
            split
            case h_1 hanswers => exact .waits hneeds hanswers
            case h_2 later hanswers => exact .approved hneeds later hanswers
            case h_3 later hanswers => exact .denied hneeds later hanswers

theorem exists_spec (hneeds : needsApproval g call = true) :
    ∃ spec, g.registry.get call.name = some spec ∧ spec.requiresApproval = true := by
  unfold needsApproval at hneeds
  cases hget : g.registry.get call.name with
  | none =>
      rw [hget] at hneeds
      exact nomatch hneeds
  | some spec =>
      rw [hget] at hneeds
      exact ⟨spec, rfl, hneeds⟩

/-- An approved call comes to the repeat guard with the later answers left. -/
theorem admitCall_approved (hneeds : needsApproval g call = true) {later : List Bool}
    (hanswers : pass.answers = true :: later) :
    admitCall g true call pass =
      admitGuarded g call.callId call.name call.args { pass with answers := later } := by
  obtain ⟨spec, hget, hasks⟩ := exists_spec hneeds
  simp only [admitCall, hget, policed_of_needsApproval hneeds, afterPolicies_of_needsApproval hneeds,
    hasks, hanswers, Bool.and_self, if_true]

/-- A denied call is answered at once with the later answers left. -/
theorem admitCall_denied (hneeds : needsApproval g call = true) {later : List Bool}
    (hanswers : pass.answers = false :: later) :
    admitCall g true call pass =
      (.answered "user denied tool execution",
        { pass with answers := later }.refuse call.callId call.name
          "user denied tool execution" true) := by
  obtain ⟨spec, hget, hasks⟩ := exists_spec hneeds
  simp only [admitCall, hget, policed_of_needsApproval hneeds, afterPolicies_of_needsApproval hneeds,
    hasks, hanswers, Bool.and_self, if_true]

/-- A call that needs no approval comes to the repeat guard if no policy blocks it. -/
theorem admitCall_unattended (hknown : known g call = true) (hneeds : needsApproval g call = false)
    (hresult : (policed g call pass).1.result = none) (m : Bool) :
    admitCall g m call pass = admitGuarded g call.callId call.name (policed g call pass).1.args
      (afterPolicies g call pass) := by
  unfold known at hknown
  unfold needsApproval at hneeds
  unfold admitCall
  cases hget : g.registry.get call.name with
  | none =>
      rw [hget] at hknown
      exact nomatch hknown
  | some spec =>
      rw [hget] at hneeds
      have hfree : spec.requiresApproval = false := hneeds
      simp only [hget, hresult, hfree, Bool.false_and, Bool.false_eq_true, if_false]

/-- What becomes of a call in manual mode, and of the answers. -/
theorem approval_admitCall (call : ToolCall) (pass : Pass) :
    (admitCall g true call pass).1.isInterrupted =
        (needsApproval g call && pass.answers.isEmpty) ∧
      (admitCall g true call pass).2.answers =
        if needsApproval g call then pass.answers.tail else pass.answers := by
  have h := admitted g true call pass
  generalize admitCall g true call pass = result at h ⊢
  cases h with
  | unknown hknown =>
      rw [not_needsApproval_of_unknown hknown]
      exact ⟨rfl, rfl⟩
  | blocked hneeds =>
      rw [hneeds]
      exact ⟨rfl, rfl⟩
  | unattended hknown hneeds =>
      rw [Bool.and_true] at hneeds
      rw [hneeds]
      obtain ⟨hinterrupted, hanswers, -⟩ := admitGuarded_spec (g := g) _ _ _ _
      exact ⟨hinterrupted, hanswers⟩
  | waits hneeds hanswers =>
      rw [hneeds, hanswers]
      exact ⟨rfl, rfl⟩
  | approved hneeds later hanswers =>
      rw [hneeds, hanswers]
      obtain ⟨hinterrupted, hlater, -⟩ := admitGuarded_spec (g := g) _ _ _ _
      exact ⟨hinterrupted, hlater⟩
  | denied hneeds later hanswers =>
      rw [hneeds, hanswers]
      exact ⟨rfl, rfl⟩

/-- A call that needs an approval takes one answer, and no other call takes any. -/
theorem answers_admitCall (call : ToolCall) (pass : Pass) :
    (admitCall g true call pass).2.answers =
      if needsApproval g call then pass.answers.tail else pass.answers :=
  (approval_admitCall call pass).2

/-- Exactly the calls that need an approval and find no answer are interrupted. -/
theorem isInterrupted_admitCall (call : ToolCall) (pass : Pass) :
    (admitCall g true call pass).1.isInterrupted =
      (needsApproval g call && pass.answers.isEmpty) :=
  (approval_admitCall call pass).1

/-- A call that needs an approval and is not interrupted has found an answer. -/
theorem answers_pos_of_not_isInterrupted (hneeds : needsApproval g call = true)
    (h : (admitCall g true call pass).1.isInterrupted = false) : 0 < pass.answers.length := by
  rw [isInterrupted_admitCall, hneeds, Bool.true_and] at h
  apply List.length_pos_iff.mpr
  intro hnil
  rw [hnil] at h
  exact nomatch h

theorem approvalId_of_interrupted {payload : ApprovalPayload}
    (hadmission : (admitCall g true call pass).1 = .interrupted payload) :
    payload.approvalId = call.callId := by
  have h := admitted g true call pass
  generalize admitCall g true call pass = result at h hadmission
  cases h with
  | unknown => exact nomatch hadmission
  | blocked => exact nomatch hadmission
  | unattended =>
      have hnot := (admitGuarded_spec (g := g) call.callId call.name (policed g call pass).1.args
        (afterPolicies g call pass)).1
      rw [hadmission] at hnot
      exact nomatch hnot
  | waits => exact (Admission.interrupted.inj hadmission) ▸ rfl
  | approved _ later =>
      have hnot := (admitGuarded_spec (g := g) call.callId call.name call.args
        { pass with answers := later }).1
      rw [hadmission] at hnot
      exact nomatch hnot
  | denied => exact nomatch hadmission

/-- A call that needs an approval is started only with an answer that approves. -/
theorem head_of_isStarted (hneeds : needsApproval g call = true)
    (hstarted : (admitCall g true call pass).1.isStarted = true) : pass.answers.head? = some true := by
  have h := admitted g true call pass
  generalize admitCall g true call pass = result at h hstarted
  cases h with
  | unknown hknown => exact nomatch hstarted
  | blocked hnot => exact nomatch hstarted
  | unattended hknown hnot =>
      rw [hneeds] at hnot
      exact nomatch hnot
  | waits _ hanswers => exact nomatch hstarted
  | approved _ later hanswers =>
      rw [hanswers]
      rfl
  | denied _ later hanswers => exact nomatch hstarted

/-- A call counts signatures of its own tool only. -/
theorem signatures_admitCall {name : String} (hname : name ≠ call.name) (m : Bool) (text : String) :
    (admitCall g m call pass).2.metrics.signatures (name, text) =
      pass.metrics.signatures (name, text) := by
  have h := admitted g m call pass
  generalize admitCall g m call pass = result at h ⊢
  cases h with
  | unknown => rfl
  | blocked => rfl
  | unattended => exact signatures_admitGuarded _ _ _ _ hname text
  | waits => rfl
  | approved => exact signatures_admitGuarded _ _ _ _ hname text
  | denied => rfl

/-- A call of an unknown tool counts nothing. -/
theorem metrics_unknown (hknown : known g call = false) (m : Bool) :
    (admitCall g m call pass).2.metrics = pass.metrics := by
  unfold known at hknown
  unfold admitCall
  dsimp only
  rw [Option.isSome_eq_false_iff.mp hknown |> Option.isNone_iff_eq_none.mp]
  rfl

/-- A call of another tool than the search leaves the policies' state alone. -/
theorem policyState_admitCall (hname : call.name ≠ "web_search") (m : Bool) :
    (admitCall g m call pass).2.metrics.policyState = pass.metrics.policyState := by
  have hpolicies : (policed g call pass).2 = pass.metrics.policyState := by
    unfold policed
    rw [applyPolicies_other hname]
  have h := admitted g m call pass
  generalize admitCall g m call pass = result at h ⊢
  cases h with
  | unknown => rfl
  | blocked => exact hpolicies
  | unattended => exact (admitGuarded_spec _ _ _ _).2.2.1.trans hpolicies
  | waits => rfl
  | approved => exact (admitGuarded_spec _ _ _ _).2.2.1
  | denied => rfl

end Admit

section AdmitAll

/-- What every single call leaves alone, all of them leave alone. -/
theorem admitAll_preserves {β : Type} (f : Pass → β) {m : Bool} {calls : List ToolCall}
    (h : ∀ call ∈ calls, ∀ pass, f (admitCall g m call pass).2 = f pass) (pass : Pass) :
    f (admitAll g m calls pass).2 = f pass := by
  induction calls generalizing pass with
  | nil => rfl
  | cons call rest ih =>
      simp only [admitAll]
      rw [ih fun other hother => h other (List.mem_cons_of_mem _ hother)]
      exact h call List.mem_cons_self pass

/-- Each call is admitted in the pass that the calls before it leave. -/
theorem admitAll_getElem? (m : Bool) (calls : List ToolCall) (pass : Pass) (position : Nat) :
    (admitAll g m calls pass).1[position]? = calls[position]?.map fun call =>
      (admitCall g m call (admitAll g m (calls.take position) pass).2).1 := by
  induction calls generalizing pass position with
  | nil => rfl
  | cons call rest ih =>
      cases position with
      | zero => rfl
      | succ position =>
          simp only [admitAll, List.getElem?_cons_succ, List.take_succ_cons]
          exact ih _ position

/-- The calls of a message take the answers in call order. -/
theorem answers_admitAll (calls : List ToolCall) (pass : Pass) :
    (admitAll g true calls pass).2.answers =
      pass.answers.drop (calls.countP (needsApproval g)) := by
  induction calls generalizing pass with
  | nil => rfl
  | cons call rest ih =>
      simp only [admitAll]
      rw [ih, answers_admitCall, List.countP_cons]
      cases needsApproval g call with
      | true => simp [List.drop_tail]
      | false => simp

/-- A started call that needs an approval has an answer of its own that approves. -/
theorem answer_of_isStarted {calls : List ToolCall} {pass : Pass} {position : Nat} {call : ToolCall}
    (hcall : calls[position]? = some call) (hneeds : needsApproval g call = true)
    {admission : Admission} (hadmission : (admitAll g true calls pass).1[position]? = some admission)
    (hstarted : admission.isStarted = true) :
    pass.answers[(calls.take position).countP (needsApproval g)]? = some true := by
  rw [admitAll_getElem?, hcall, Option.map_some, Option.some.injEq] at hadmission
  rw [← hadmission] at hstarted
  have hhead := head_of_isStarted hneeds hstarted
  rwa [answers_admitAll, List.head?_drop] at hhead

theorem findIdx_cons_interrupted (admission : Admission) (admissions : List Admission) :
    (admission :: admissions).findIdx Admission.isInterrupted =
      if admission.isInterrupted then 0 else admissions.findIdx Admission.isInterrupted + 1 := by
  rw [List.findIdx_cons]
  cases admission.isInterrupted with
  | true => rfl
  | false => rfl

theorem firstInterrupt_cons {admission : Admission} (h : admission.isInterrupted = false)
    (admissions : List Admission) :
    firstInterrupt (admission :: admissions) = firstInterrupt admissions := by
  cases admission with
  | answered => rfl
  | interrupted => exact nomatch h
  | started => rfl

theorem exists_payload {admission : Admission} (h : admission.isInterrupted = true) :
    ∃ payload, admission = .interrupted payload := by
  cases admission with
  | answered => exact nomatch h
  | interrupted payload => exact ⟨payload, rfl⟩
  | started => exact nomatch h

/-- The interrupt that a pass reports is that of the first call without an answer. -/
theorem firstInterrupt_spec {calls : List ToolCall} {pass : Pass} {payload : ApprovalPayload}
    (h : firstInterrupt (admitAll g true calls pass).1 = some payload) :
    ∃ call, calls[(admitAll g true calls pass).1.findIdx Admission.isInterrupted]? = some call ∧
      needsApproval g call = true ∧ payload.approvalId = call.callId ∧
      (calls.take ((admitAll g true calls pass).1.findIdx Admission.isInterrupted)).countP
        (needsApproval g) = pass.answers.length := by
  induction calls generalizing pass with
  | nil => exact nomatch h
  | cons call rest ih =>
      simp only [admitAll] at h ⊢
      rw [findIdx_cons_interrupted]
      cases hfirst : (admitCall g true call pass).1.isInterrupted with
      | true =>
          obtain ⟨payload', hadmission⟩ := exists_payload hfirst
          rw [hadmission] at h
          obtain rfl : payload' = payload := Option.some.inj h
          rw [isInterrupted_admitCall] at hfirst
          obtain ⟨hneeds, hempty⟩ := Bool.and_eq_true_iff.mp hfirst
          refine ⟨call, rfl, hneeds, approvalId_of_interrupted hadmission, ?_⟩
          rw [List.isEmpty_iff.mp hempty]
          rfl
      | false =>
          rw [firstInterrupt_cons hfirst] at h
          obtain ⟨other, hother, hneeds, hid, hcount⟩ := ih h
          refine ⟨other, hother, hneeds, hid, ?_⟩
          rw [answers_admitCall] at hcount
          simp only [Bool.false_eq_true, if_false, List.take_succ_cons, List.countP_cons]
          rw [hcount]
          cases hcall : needsApproval g call with
          | true =>
              have hpos := answers_pos_of_not_isInterrupted hcall hfirst
              simp only [if_true, List.length_tail]
              omega
          | false => rfl

end AdmitAll

end GraphAgent
