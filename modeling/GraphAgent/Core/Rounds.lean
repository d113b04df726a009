import GraphAgent.Core.Approvals
import GraphAgent.Core.RunHistory
import Mathlib.Data.Finset.Card

/-!
# The passes over a round

A round with approvals is run in several passes: the first one, and one for each
answer. Every pass begins with the first call again, with the answers so far and,
after the first pass, with new counters.
-/

namespace GraphAgent

variable {g : Graph}

/-- What a pass does with the calls of a round in manual mode. -/
def passAdmissions (g : Graph) (calls : List ToolCall) (metrics : RunMetrics) (answers : List Bool)
    (k : Nat) : List Admission :=
  (admitAll g true calls ⟨if k = 0 then metrics else .fresh, answers.take k, []⟩).1

/-- The call at a position has its tool executed in a pass. -/
def executedIn (g : Graph) (calls : List ToolCall) (metrics : RunMetrics) (answers : List Bool)
    (position k : Nat) : Bool :=
  (passAdmissions g calls metrics answers k)[position]?.any Admission.isStarted

/-- In how many passes the call at a position has its tool executed. -/
def executions (g : Graph) (calls : List ToolCall) (metrics : RunMetrics) (answers : List Bool)
    (position : Nat) : Nat :=
  ((Finset.range (answers.length + 1)).filter fun k =>
    executedIn g calls metrics answers position k = true).card

section Machine

theorem firstInterrupt_isSome {calls : List ToolCall} {pass : Pass}
    (h : pass.answers.length < calls.countP (needsApproval g)) :
    (firstInterrupt (admitAll g true calls pass).1).isSome = true := by
  induction calls generalizing pass with
  | nil => exact absurd h (Nat.not_lt_zero _)
  | cons call rest ih =>
      simp only [admitAll]
      cases hfirst : (admitCall g true call pass).1.isInterrupted with
      | true =>
          obtain ⟨payload, hadmission⟩ := exists_payload hfirst
          rw [hadmission]
          rfl
      | false =>
          rw [firstInterrupt_cons hfirst]
          apply ih
          rw [answers_admitCall]
          rw [List.countP_cons] at h
          cases hcall : needsApproval g call with
          | false =>
              rw [hcall] at h
              simpa using h
          | true =>
              have hpos := answers_pos_of_not_isInterrupted hcall hfirst
              rw [hcall] at h
              simp only [if_true, List.length_tail] at h ⊢
              omega

/-- The actions up to the pass that follows the given answers. -/
def answering (approvalId : String) (outcomes : Nat → ToolOutcome) (answers : List Bool) : List Act :=
  answers.flatMap fun approved => [.tools outcomes, .resume approvalId approved]

theorem exec_answering {r : Run} (hnode : r.node = .tools) (hwaiting : r.waiting = none)
    (hmanual : resolveApprovalMode r.state = .manual) (approvalId : String)
    (outcomes : Nat → ToolOutcome) (answers : List Bool)
    (hbound : r.answers.length + answers.length ≤
      (lastToolCalls r.state.messages).countP (needsApproval g)) :
    ∃ r', (runSystem g).exec r (answering approvalId outcomes answers) = some r' ∧
      r' = { r with
        metrics := if answers = [] then r.metrics else .fresh
        answers := r.answers ++ answers } := by
  induction answers generalizing r with
  | nil => exact ⟨r, rfl, by simp⟩
  | cons approved rest ih =>
      rw [List.length_cons] at hbound
      have hopen : (firstInterrupt (r.pass g).1).isSome = true := by
        unfold Run.pass
        rw [hmanual]
        apply firstInterrupt_isSome
        dsimp only
        omega
      obtain ⟨payload, hpayload⟩ := Option.isSome_iff_exists.mp hopen
      have hresumed : (runSystem g).exec r [.tools outcomes, .resume approvalId approved] =
          some { r with answers := r.answers ++ [approved], metrics := .fresh } := by
        simp [Transition.System.exec, runSystem, Run.step, hnode, hwaiting, toolsStep, hpayload]
      have hlater : (r.answers ++ [approved]).length + rest.length ≤
          (lastToolCalls r.state.messages).countP (needsApproval g) := by
        rw [List.length_append, List.length_singleton]
        omega
      obtain ⟨r', hexec, hr'⟩ := ih (r := { r with answers := r.answers ++ [approved], metrics := .fresh })
        hnode hwaiting hmanual hlater
      refine ⟨r', ?_, ?_⟩
      · unfold answering
        rw [List.flatMap_cons, Transition.System.exec_append, hresumed]
        exact hexec
      · rw [hr']
        simp

/-- A run whose tools node is about to be executed for the first time comes, as
its interrupts are answered one by one, to the passes of its round. -/
theorem pass_of_answering {r : Run} (hnode : r.node = .tools) (hwaiting : r.waiting = none)
    (hanswers : r.answers = []) (hmanual : resolveApprovalMode r.state = .manual)
    (approvalId : String) (outcomes : Nat → ToolOutcome) (answers : List Bool)
    (hbound : answers.length ≤ (lastToolCalls r.state.messages).countP (needsApproval g)) :
    ∃ r', (runSystem g).exec r (answering approvalId outcomes answers) = some r' ∧
      (r'.pass g).1 = passAdmissions g (lastToolCalls r.state.messages) r.metrics answers
        answers.length := by
  obtain ⟨r', hexec, hr'⟩ := exec_answering hnode hwaiting hmanual approvalId outcomes answers
    (by rw [hanswers]; simpa using hbound)
  refine ⟨r', hexec, ?_⟩
  subst hr'
  unfold Run.pass passAdmissions
  rw [hmanual, hanswers, List.take_length]
  cases answers with
  | nil => rfl
  | cons approved rest => rfl

end Machine

section Starts

variable {calls : List ToolCall} {pass : Pass}

/-- Calls of other tools leave the signatures of a tool alone. -/
theorem signatures_admitAll_other {name : String} (h : ∀ call ∈ calls, call.name ≠ name)
    (pass : Pass) (text : String) :
    (admitAll g true calls pass).2.metrics.signatures (name, text) =
      pass.metrics.signatures (name, text) := by
  apply admitAll_preserves fun pass => pass.metrics.signatures (name, text)
  intro call hmem pass
  exact signatures_admitCall (Ne.symm (h call hmem)) true text

/-- A denied call counts nothing. -/
theorem metrics_denied {call : ToolCall} (hneeds : needsApproval g call = true)
    (hanswer : pass.answers.head? = some false) :
    (admitCall g true call pass).2.metrics = pass.metrics := by
  obtain ⟨later, hanswers⟩ := List.head?_eq_some_iff.mp hanswer
  rw [admitCall_denied hneeds hanswers]
  rfl

/-- Calls of a tool that needs an approval leave its signatures alone if they
are all denied. -/
theorem signatures_admitAll_denied {name : String}
    (hname : ∀ call ∈ calls, call.name = name → needsApproval g call = true) (pass : Pass)
    (hdenied : ∀ i < calls.countP (needsApproval g), pass.answers[i]? = some false)
    (text : String) :
    (admitAll g true calls pass).2.metrics.signatures (name, text) =
      pass.metrics.signatures (name, text) := by
  induction calls generalizing pass with
  | nil => rfl
  | cons call rest ih =>
      simp only [admitAll]
      rw [List.countP_cons] at hdenied
      have hrest : ∀ other ∈ rest, other.name = name → needsApproval g other = true :=
        fun other hother => hname other (List.mem_cons_of_mem _ hother)
      cases hneeds : needsApproval g call with
      | true =>
          rw [hneeds, if_pos rfl] at hdenied
          have hanswer : pass.answers.head? = some false := by
            rw [List.head?_eq_getElem?]
            exact hdenied 0 (Nat.succ_pos _)
          rw [ih hrest, metrics_denied hneeds hanswer]
          intro i hi
          rw [answers_admitCall, if_pos hneeds, List.getElem?_tail]
          exact hdenied (i + 1) (Nat.succ_lt_succ hi)
      | false =>
          have hne : name ≠ call.name := by
            intro heq
            rw [hname call List.mem_cons_self heq.symm] at hneeds
            exact absurd hneeds (by decide)
          rw [ih hrest, signatures_admitCall hne]
          intro i hi
          rw [answers_admitCall, hneeds]
          exact hdenied i (by rw [hneeds]; simpa using hi)

/-- Calls of tools other than the search leave the policies' state alone, and
so does a call of a search that is not registered. -/
theorem policyState_admitAll
    (h : ∀ call ∈ calls, known g call = true → needsApproval g call = true) (pass : Pass) :
    (admitAll g true calls pass).2.metrics.policyState = pass.metrics.policyState := by
  apply admitAll_preserves fun pass => pass.metrics.policyState
  intro call hmem pass
  cases hknown : known g call with
  | false => rw [metrics_unknown hknown]
  | true => exact policyState_admitCall (name_of_needsApproval (h call hmem hknown)) true

/-- In a pass with new counters the first call of a registered tool that asks for
no approval is started. -/
theorem isStarted_first {before : List ToolCall} {call : ToolCall} {answers : List Bool}
    (hbefore : ∀ other ∈ before, known g other = true → needsApproval g other = true)
    (hknown : known g call = true) (hneeds : needsApproval g call = false) :
    (admitCall g true call (admitAll g true before ⟨.fresh, answers, []⟩).2).1.isStarted = true := by
  have hpolicy := policyState_admitAll hbefore ⟨.fresh, answers, []⟩
  have hother : ∀ other ∈ before, other.name ≠ call.name := by
    intro other hmem heq
    have hasks := hbefore other hmem ((known_congr heq).trans hknown)
    rw [needsApproval_congr heq, hneeds] at hasks
    exact nomatch hasks
  have hsignatures := signatures_admitAll_other (g := g) hother ⟨.fresh, answers, []⟩
  generalize (admitAll g true before ⟨.fresh, answers, []⟩).2 = pass at hpolicy hsignatures ⊢
  have hresult : (policed g call pass).1.result = none := by
    unfold policed
    rw [hpolicy]
    exact applyPolicies_fresh _ _ _
  rw [admitCall_unattended hknown hneeds hresult]
  apply isStarted_admitGuarded
  exact hsignatures _

/-- In a pass with new counters the first approved call is started. -/
theorem isStarted_approved {before : List ToolCall} {call : ToolCall} {answers : List Bool}
    (hneeds : needsApproval g call = true)
    (hdenied : ∀ i < before.countP (needsApproval g), answers[i]? = some false)
    (happroved : answers[before.countP (needsApproval g)]? = some true) :
    (admitCall g true call (admitAll g true before ⟨.fresh, answers, []⟩).2).1.isStarted = true := by
  have hname : ∀ other ∈ before, other.name = call.name → needsApproval g other = true := by
    intro other _ heq
    rw [needsApproval_congr heq]
    exact hneeds
  have hsignatures := signatures_admitAll_denied hname ⟨.fresh, answers, []⟩ hdenied
  have hanswers := answers_admitAll (g := g) before ⟨.fresh, answers, []⟩
  have hhead : (answers.drop (before.countP (needsApproval g))).head? = some true := by
    rw [List.head?_drop]
    exact happroved
  rw [← hanswers] at hhead
  generalize (admitAll g true before ⟨.fresh, answers, []⟩).2 = pass at hsignatures hhead ⊢
  obtain ⟨later, hlater⟩ := List.head?_eq_some_iff.mp hhead
  rw [admitCall_approved hneeds hlater]
  apply isStarted_admitGuarded
  exact hsignatures _

end Starts

section Counting

variable {calls : List ToolCall} {metrics : RunMetrics} {answers : List Bool} {position k : Nat}

theorem executedIn_iff : executedIn g calls metrics answers position k = true ↔
    ∃ call, calls[position]? = some call ∧ (admitCall g true call (admitAll g true
      (calls.take position) ⟨if k = 0 then metrics else .fresh, answers.take k, []⟩).2).1.isStarted =
        true := by
  unfold executedIn passAdmissions
  rw [admitAll_getElem?]
  cases calls[position]? with
  | none => simp
  | some call => simp

/-- A call is executed at most once if no two passes execute it. -/
theorem executions_le_one_iff : executions g calls metrics answers position ≤ 1 ↔
    ∀ k ≤ answers.length, ∀ l ≤ answers.length,
      executedIn g calls metrics answers position k = true →
      executedIn g calls metrics answers position l = true → k = l := by
  unfold executions
  rw [Finset.card_le_one]
  simp only [Finset.mem_filter, Finset.mem_range, Nat.lt_succ_iff]
  constructor
  · intro h k hk l hl hexecuted hexecuted'
    exact h k ⟨hk, hexecuted⟩ l ⟨hl, hexecuted'⟩
  · rintro h k ⟨hk, hexecuted⟩ l ⟨hl, hexecuted'⟩
    exact h k hk l hl hexecuted hexecuted'

/-- Every call of a registered tool needs an approval, and every answer but the
last one denies. -/
def SingleApproval (g : Graph) (calls : List ToolCall) (answers : List Bool) : Prop :=
  (∀ call ∈ calls, known g call = true → needsApproval g call = true) ∧
    ∀ answer ∈ answers.dropLast, answer = false

theorem known_of_isStarted {call : ToolCall} {pass : Pass}
    (hstarted : (admitCall g true call pass).1.isStarted = true) : known g call = true := by
  by_contra hunknown
  rw [Bool.not_eq_true] at hunknown
  have h := admitted g true call pass
  generalize admitCall g true call pass = result at h hstarted
  have hneeds := not_needsApproval_of_unknown hunknown
  cases h with
  | unknown => exact nomatch hstarted
  | blocked => exact nomatch hstarted
  | unattended hknown =>
      rw [hunknown] at hknown
      exact nomatch hknown
  | waits => exact nomatch hstarted
  | approved hasks =>
      rw [hneeds] at hasks
      exact nomatch hasks
  | denied => exact nomatch hstarted

/-- Then a call is executed in the last pass only. -/
theorem SingleApproval.last (h : SingleApproval g calls answers)
    (hk : k ≤ answers.length) (hexecuted : executedIn g calls metrics answers position k = true) :
    k = answers.length := by
  obtain ⟨call, hcall, hstarted⟩ := executedIn_iff.mp hexecuted
  have hneeds := h.1 call (List.mem_of_getElem? hcall) (known_of_isStarted hstarted)
  have hanswer := head_of_isStarted hneeds hstarted
  rw [answers_admitAll, List.head?_drop, List.getElem?_take] at hanswer
  split at hanswer
  case isFalse => exact nomatch hanswer
  case isTrue hlt =>
    by_contra hne
    have hearlier : (calls.take position).countP (needsApproval g) < answers.length - 1 := by omega
    have hmem : true ∈ answers.dropLast := by
      apply List.mem_of_getElem?
      rw [List.getElem?_dropLast, if_pos hearlier]
      exact hanswer
    exact nomatch h.2 true hmem

theorem exists_position {j : Nat} (hj : j < calls.countP (needsApproval g)) :
    ∃ position call, calls[position]? = some call ∧ needsApproval g call = true ∧
      (calls.take position).countP (needsApproval g) = j := by
  induction calls generalizing j with
  | nil => exact nomatch hj
  | cons call rest ih =>
      rw [List.countP_cons] at hj
      cases hneeds : needsApproval g call with
      | true =>
          rw [hneeds, if_pos rfl] at hj
          cases j with
          | zero => exact ⟨0, call, rfl, hneeds, rfl⟩
          | succ j =>
              obtain ⟨position, other, hother, hasks, hcount⟩ := ih (Nat.lt_of_succ_lt_succ hj)
              refine ⟨position + 1, other, hother, hasks, ?_⟩
              rw [List.take_succ_cons, List.countP_cons, hcount, if_pos hneeds]
      | false =>
          rw [hneeds] at hj
          obtain ⟨position, other, hother, hasks, hcount⟩ := ih (by simpa using hj)
          refine ⟨position + 1, other, hother, hasks, ?_⟩
          rw [List.take_succ_cons, List.countP_cons, hcount, hneeds]
          rfl

/-- The first of the answers that approves. -/
theorem exists_first_approval {m : Nat} (hm : answers[m]? = some true) :
    ∃ j ≤ m, answers[j]? = some true ∧ ∀ i < j, answers[i]? = some false := by
  classical
  have hex : ∃ j, answers[j]? = some true := ⟨m, hm⟩
  refine ⟨Nat.find hex, Nat.find_min' hex hm, Nat.find_spec hex, fun i hi => ?_⟩
  have hnot := Nat.find_min hex hi
  have hlength : m < answers.length := (List.getElem?_eq_some_iff.mp hm).1
  have hle := Nat.find_min' hex hm
  rw [List.getElem?_eq_getElem (by omega)] at hnot ⊢
  cases hanswer : answers[i] with
  | true => exact absurd (congrArg some hanswer) hnot
  | false => rfl

/-- An approved call is executed again in every later pass. -/
theorem executedIn_after_approval {call : ToolCall} {j : Nat} (hcall : calls[position]? = some call)
    (hneeds : needsApproval g call = true)
    (hcount : (calls.take position).countP (needsApproval g) = j)
    (happroved : answers[j]? = some true) (hdenied : ∀ i < j, answers[i]? = some false)
    (hk : j < k) : executedIn g calls metrics answers position k = true := by
  rw [executedIn_iff]
  refine ⟨call, hcall, ?_⟩
  rw [if_neg (by omega)]
  apply isStarted_approved hneeds
  · intro i hi
    rw [List.getElem?_take_of_lt (by omega)]
    exact hdenied i (by omega)
  · rw [hcount, List.getElem?_take_of_lt hk]
    exact happroved

/-- In a round that begins with new counters the first call that needs no
approval is executed in every pass. -/
theorem executedIn_unattended {before after : List ToolCall} {call : ToolCall}
    (hbefore : ∀ other ∈ before, known g other = true → needsApproval g other = true)
    (hknown : known g call = true) (hneeds : needsApproval g call = false) :
    executedIn g (before ++ call :: after) .fresh answers before.length k = true := by
  rw [executedIn_iff]
  refine ⟨call, by simp, ?_⟩
  rw [ite_self, List.take_left]
  exact isStarted_first hbefore hknown hneeds

/-- The calls before the first registered one that needs no approval. -/
theorem exists_first_unattended
    (h : ¬ ∀ call ∈ calls, known g call = true → needsApproval g call = true) :
    ∃ before call after, calls = before ++ call :: after ∧
      (∀ other ∈ before, known g other = true → needsApproval g other = true) ∧
      known g call = true ∧ needsApproval g call = false := by
  induction calls with
  | nil => exact absurd (fun call hmem => nomatch hmem) h
  | cons call rest ih =>
      by_cases hcall : known g call = true → needsApproval g call = true
      · have hrest : ¬ ∀ call ∈ rest, known g call = true → needsApproval g call = true := by
          intro hall
          exact h (List.forall_mem_cons.mpr ⟨hcall, hall⟩)
        obtain ⟨before, other, after, rfl, hbefore, hother⟩ := ih hrest
        exact ⟨call :: before, other, after, rfl, List.forall_mem_cons.mpr ⟨hcall, hbefore⟩, hother⟩
      · rw [Classical.not_imp, Bool.not_eq_true] at hcall
        exact ⟨[], call, rest, rfl, (fun _ hmem => nomatch hmem), hcall⟩

/-- In a round that is run until its answers are used, no call is executed twice,
whatever the counters are, exactly when no answer is given at all, or every
registered call of the round needs an approval and only the last one has it. -/
theorem executions_le_one_iff_singleApproval
    (hbound : answers.length ≤ calls.countP (needsApproval g)) :
    (∀ metrics position, executions g calls metrics answers position ≤ 1) ↔
      answers = [] ∨ SingleApproval g calls answers := by
  constructor
  · intro h
    by_contra hnot
    rw [not_or] at hnot
    obtain ⟨hne, hnot⟩ := hnot
    have hpos := List.length_pos_iff.mpr hne
    by_cases hall : ∀ call ∈ calls, known g call = true → needsApproval g call = true
    · have happroved : ∃ m, m + 1 < answers.length ∧ answers[m]? = some true := by
        by_contra hnone
        apply hnot
        refine ⟨hall, fun answer hmem => ?_⟩
        obtain ⟨m, hm, hanswer⟩ := List.mem_iff_getElem.mp hmem
        rw [List.length_dropLast] at hm
        cases answer with
        | false => rfl
        | true =>
            refine absurd ⟨m, by omega, ?_⟩ hnone
            rw [List.getElem?_eq_getElem (by omega), ← hanswer, List.getElem_dropLast]
      obtain ⟨m, hm, hanswer⟩ := happroved
      obtain ⟨j, hj, happroved, hdenied⟩ := exists_first_approval hanswer
      have hlt : j < calls.countP (needsApproval g) := by omega
      obtain ⟨position, call, hcall, hneeds, hcount⟩ := exists_position hlt
      have hsame := executions_le_one_iff.mp (h .fresh position) (j + 1) (by omega) (j + 2) (by omega)
        (executedIn_after_approval hcall hneeds hcount happroved hdenied (by omega))
        (executedIn_after_approval hcall hneeds hcount happroved hdenied (by omega))
      omega
    · obtain ⟨before, call, after, rfl, hbefore, hknown, hneeds⟩ := exists_first_unattended hall
      have hsame := executions_le_one_iff.mp (h .fresh before.length) 0 (by omega) 1 (by omega)
        (executedIn_unattended hbefore hknown hneeds) (executedIn_unattended hbefore hknown hneeds)
      omega
  · intro h metrics position
    rw [executions_le_one_iff]
    intro k hk l hl hexecuted hexecuted'
    rcases h with rfl | hsingle
    · rw [List.length_nil, Nat.le_zero] at hk hl
      omega
    · rw [hsingle.last hk hexecuted, hsingle.last hl hexecuted']

/-- A round of one shell call that is approved. -/
theorem executions_list_call : executions defaultGraph [listCall] .fresh [true] 0 ≤ 1 := by
  have hbound : [true].length ≤ [listCall].countP (needsApproval defaultGraph) := by decide
  apply (executions_le_one_iff_singleApproval hbound).mpr
  refine Or.inr ⟨?_, by simp⟩
  intro call hmem _
  obtain rfl := List.mem_singleton.mp hmem
  decide

/-- A file is read again when the shell call beside it has been approved. -/
theorem executions_read_twice :
    executions defaultGraph [⟨some "c0", "filesystem", []⟩, listCall] .fresh [true] 0 = 2 := by
  decide

end Counting

end GraphAgent
