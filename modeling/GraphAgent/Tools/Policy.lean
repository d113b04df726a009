import GraphAgent.Core.Json
import GraphAgent.Core.Text
import Mathlib.Data.Finset.Basic
import Mathlib.Data.Finset.Card
import Mathlib.Data.Rat.Defs
import Mathlib.Algebra.Group.Nat.Defs
import Mathlib.Algebra.Order.Ring.Unbundled.Rat
import Mathlib.Logic.Function.Basic
import Mathlib.Data.Nat.Log

/-!
# Tool policies

The policies that look at a tool call before it executes, and the registry that
applies them in order. What a policy decides depends on the counters of the run.
-/

namespace GraphAgent

/-- What Python takes from its Unicode tables and from `repr` of a container. -/
structure Python where
  lower : String → String
  isWord : Char → Bool
  repr : Value → String

/-- `str(item)`. -/
def Python.str (py : Python) : Value → String
  | .null => "None"
  | .bool b => if b then "True" else "False"
  | .int n => toString n
  | .float repr => repr
  | .str s => s
  | v => py.repr v

/-- `int / int`, correctly rounded to a double, for `0 < a ≤ b`. -/
def trueDiv (a b : Nat) : ℚ :=
  let scale := Nat.log2 b - Nat.log2 a
  let shift := if b ≤ a * 2 ^ scale then scale + 52 else scale + 53
  let quotient := a * 2 ^ shift / b
  let remainder := a * 2 ^ shift % b
  let mantissa :=
    if b < 2 * remainder ∨ (b = 2 * remainder ∧ quotient % 2 = 1) then quotient + 1 else quotient
  (mantissa : ℚ) / (2 ^ shift : Nat)

section Queries

variable (py : Python)

/-- `normalize_query`. -/
def normalizeQuery (text : String) : String :=
  " ".intercalate ((((py.lower text).toList.splitOnP fun c => !py.isWord c).filter
    fun word => !word.isEmpty).map String.ofList)

/-- `_tokens`. -/
def tokens (text : String) : Finset String :=
  (Text.split (normalizeQuery py text)).toFinset

/-- `query_similarity`. -/
def querySimilarity (a b : String) : ℚ :=
  let left := tokens py a
  let right := tokens py b
  if left.card < 2 ∨ right.card < 2 then 0
  else
    let intersection := (left ∩ right).card
    if intersection = 0 then 0
    else
      max (trueDiv intersection (left ∪ right).card)
        (trueDiv intersection (min left.card right.card))

/-- `arg_queries`. -/
def argQueries (args : Args) : List String :=
  let single :=
    match args.get? "query" with
    | some (.str query) => if Text.strip query = "" then [] else [Text.strip query]
    | _ => []
  let batch :=
    match args.get? "queries" with
    | some (.arr items) =>
        (items.map fun item => Text.strip (py.str item)).filter fun query => !query.isEmpty
    | _ => []
  (single ++ batch).eraseDups

/-- `_with_kept_queries`. -/
def withKeptQueries (args : Args) (kept : List String) : Args :=
  let updated :=
    match args.get? "queries" with
    | some (.arr _) => args.set "queries" (.arr (kept.map .str))
    | _ => args
  updated.set "query" (.str (kept.headD ""))

end Queries

/-- `RunState`, the counters that the policies and tools of a run share. -/
structure RunState where
  counts : String → Nat
  searchQueries : List String
  seenUrls : Finset HashKey

/-- The state of a run that has just begun. -/
def RunState.fresh : RunState := ⟨fun _ => 0, [], ∅⟩

structure ToolCallInfo where
  name : String
  args : Args

/-- The verdict for one call: the arguments to run with, or the result to
return instead of running. -/
structure PolicyDecision where
  args : Args
  result : Option String := none
  isError : Bool := false

/-- `PolicyDecision.blocks`. -/
def PolicyDecision.blocks (decision : PolicyDecision) : Bool := decision.result.isSome

/-- The policies of the source. -/
inductive ToolPolicy where
  | searchDedup (similarity : ℚ)
  | searchBudget (maxCalls : Int)

/-- `SearchBudgetPolicy.apply`. -/
def searchBudgetPolicy (maxCalls : Int) (call : ToolCallInfo) (state : RunState) :
    PolicyDecision × RunState :=
  let used := state.counts "web_search"
  if 0 < maxCalls ∧ maxCalls ≤ used then
    ({ args := call.args
       result := some ("web_search budget reached for this turn (" ++ toString maxCalls ++
        " calls). Stop searching and answer with the information you already gathered, " ++
        "or ask the user for guidance.") }, state)
  else
    ({ args := call.args },
      { state with counts := Function.update state.counts "web_search" (used + 1) })

/-- The variables of the loop in `SearchDedupPolicy.apply`. -/
structure DedupScan where
  kept : List String
  dropped : List String
  recorded : List String

/-- `SearchDedupPolicy._is_duplicate`. -/
def isDuplicate (py : Python) (similarity : ℚ) (query : String) (seen : List String) : Bool :=
  seen.any fun previous => similarity ≤ querySimilarity py query previous

/-- One turn of the loop over the queries of a call. -/
def DedupScan.read (py : Python) (similarity : ℚ) (scan : DedupScan) (query : String) : DedupScan :=
  if isDuplicate py similarity query scan.recorded then
    { scan with dropped := scan.dropped ++ [query] }
  else
    { scan with
      kept := scan.kept ++ [query]
      recorded := scan.recorded ++ [normalizeQuery py query] }

/-- `SearchDedupPolicy.apply`. -/
def searchDedupPolicy (py : Python) (similarity : ℚ) (call : ToolCallInfo) (state : RunState) :
    PolicyDecision × RunState :=
  match argQueries py call.args with
  | [] => ({ args := call.args }, state)
  | queries =>
      let scan := queries.foldl (DedupScan.read py similarity) ⟨[], [], state.searchQueries⟩
      let state := { state with searchQueries := scan.recorded }
      if scan.kept.isEmpty then
        ({ args := call.args
           result := some ("Already searched this turn for: " ++ "; ".intercalate scan.dropped ++
            ". Do not repeat it: reuse the results already in the " ++
            "conversation, rephrase with new terms, or answer now.") }, state)
      else ({ args := withKeptQueries call.args scan.kept }, state)

/-- `applies_to`. -/
def ToolPolicy.appliesTo : ToolPolicy → String → Bool
  | .searchDedup _, name => name = "web_search"
  | .searchBudget _, name => name = "web_search"

def ToolPolicy.apply (py : Python) : ToolPolicy → ToolCallInfo → RunState →
    PolicyDecision × RunState
  | .searchDedup similarity => searchDedupPolicy py similarity
  | .searchBudget maxCalls => searchBudgetPolicy maxCalls

/-- `ToolPolicyRegistry.apply`. -/
def applyPolicies (py : Python) : List ToolPolicy → ToolCallInfo → RunState →
    PolicyDecision × RunState
  | [], call, state => ({ args := call.args }, state)
  | policy :: rest, call, state =>
      if policy.appliesTo call.name then
        let (decision, state) := policy.apply py call state
        if decision.blocks then (decision, state)
        else applyPolicies py rest { call with args := decision.args } state
      else applyPolicies py rest call state

/-- The policies that `build_agent_graph` registers. -/
def buildPolicies (dedupeSimilarity : ℚ) (maxCallsPerRun : Int) : List ToolPolicy :=
  (if 0 < dedupeSimilarity then [.searchDedup dedupeSimilarity] else []) ++
    (if 0 < maxCallsPerRun then [.searchBudget maxCallsPerRun] else [])

variable {py : Python}

theorem appliesTo_eq (policy : ToolPolicy) (name : String) :
    policy.appliesTo name = decide (name = "web_search") := by
  cases policy <;> rfl

/-- The policies leave the calls of every other tool alone. -/
theorem applyPolicies_other {call : ToolCallInfo} (h : call.name ≠ "web_search")
    (policies : List ToolPolicy) (state : RunState) :
    applyPolicies py policies call state = ({ args := call.args }, state) := by
  induction policies with
  | nil => rfl
  | cons policy rest ih => simp [applyPolicies, appliesTo_eq, h, ih]

/-- A query that was kept stays kept. -/
theorem kept_grows (py : Python) (similarity : ℚ) (queries : List String) (scan : DedupScan) :
    scan.kept <+: (queries.foldl (DedupScan.read py similarity) scan).kept := by
  induction queries generalizing scan with
  | nil => exact List.prefix_rfl
  | cons query rest ih =>
      refine List.IsPrefix.trans ?_ (ih (scan.read py similarity query))
      unfold DedupScan.read
      split
      · exact List.prefix_rfl
      · exact List.prefix_append _ _

/-- Nothing repeats in a run that has just begun. -/
theorem searchDedupPolicy_fresh (py : Python) (similarity : ℚ) (call : ToolCallInfo) :
    (searchDedupPolicy py similarity call .fresh).1.result = none ∧
      (searchDedupPolicy py similarity call .fresh).2.counts = RunState.fresh.counts := by
  unfold searchDedupPolicy
  cases hqueries : argQueries py call.args with
  | nil => exact ⟨rfl, rfl⟩
  | cons query rest =>
      have hfirst : DedupScan.read py similarity ⟨[], [], RunState.fresh.searchQueries⟩ query =
          ⟨[query], [], [normalizeQuery py query]⟩ := rfl
      obtain ⟨later, hkept⟩ := kept_grows py similarity rest
        ⟨[query], [], [normalizeQuery py query]⟩
      simp [hfirst, ← hkept]

theorem searchBudgetPolicy_fresh (maxCalls : Int) (call : ToolCallInfo) {state : RunState}
    (h : state.counts = RunState.fresh.counts) :
    (searchBudgetPolicy maxCalls call state).1.result = none := by
  have hused : state.counts "web_search" = 0 := by rw [h]; rfl
  unfold searchBudgetPolicy
  rw [if_neg (by simp only [hused]; omega)]

theorem applyPolicies_budget_fresh (maxCallsPerRun : Int) (call : ToolCallInfo) {state : RunState}
    (h : state.counts = RunState.fresh.counts) :
    (applyPolicies py (if 0 < maxCallsPerRun then [.searchBudget maxCallsPerRun] else [])
      call state).1.result = none := by
  have hallowed := searchBudgetPolicy_fresh maxCallsPerRun call h
  split
  · simp only [applyPolicies]
    split
    · simp [ToolPolicy.apply, PolicyDecision.blocks, hallowed]
    · rfl
  · rfl

/-- The first call of a run is blocked by no policy. -/
theorem applyPolicies_fresh (dedupeSimilarity : ℚ) (maxCallsPerRun : Int) (call : ToolCallInfo) :
    (applyPolicies py (buildPolicies dedupeSimilarity maxCallsPerRun) call .fresh).1.result =
      none := by
  unfold buildPolicies
  split
  · obtain ⟨hallowed, hcounts⟩ := searchDedupPolicy_fresh py dedupeSimilarity call
    simp only [List.singleton_append, applyPolicies]
    split
    · simp only [ToolPolicy.apply, PolicyDecision.blocks, hallowed, Option.isSome_none,
        Bool.false_eq_true, if_false]
      exact applyPolicies_budget_fresh maxCallsPerRun _ hcounts
    · exact applyPolicies_budget_fresh maxCallsPerRun _ rfl
  · exact applyPolicies_budget_fresh maxCallsPerRun _ rfl

section Budget

variable (py)

theorem counts_searchDedupPolicy (similarity : ℚ) (call : ToolCallInfo) (state : RunState) :
    (searchDedupPolicy py similarity call state).2.counts = state.counts := by
  unfold searchDedupPolicy
  split
  · rfl
  · dsimp only
    split <;> rfl

/-- The budget counts a search that it lets through, and nothing else. -/
theorem searchBudgetPolicy_spec {maxCalls : Int} (hmax : 0 < maxCalls) (call : ToolCallInfo)
    (state : RunState) :
    (searchBudgetPolicy maxCalls call state).1.result = none ∧
        (searchBudgetPolicy maxCalls call state).2.counts "web_search" =
          state.counts "web_search" + 1 ∧
        (state.counts "web_search" : Int) < maxCalls ∨
      (searchBudgetPolicy maxCalls call state).1.result ≠ none ∧
        (searchBudgetPolicy maxCalls call state).2.counts = state.counts := by
  unfold searchBudgetPolicy
  dsimp only
  split
  case isTrue hspent => exact Or.inr ⟨Option.some_ne_none _, rfl⟩
  case isFalse hleft =>
    refine Or.inl ⟨rfl, ?_, ?_⟩
    · exact Function.update_self ("web_search") _ state.counts
    · omega

/-- The first policy for searches decides, or hands its arguments on. -/
theorem applyPolicies_cons (policy : ToolPolicy) (rest : List ToolPolicy) {call : ToolCallInfo}
    (hname : call.name = "web_search") (state : RunState) :
    applyPolicies py (policy :: rest) call state =
      if (policy.apply py call state).1.result.isSome then policy.apply py call state
      else applyPolicies py rest { call with args := (policy.apply py call state).1.args }
        (policy.apply py call state).2 := by
  simp only [applyPolicies, appliesTo_eq, hname, decide_true, if_true]
  rfl

/-- With a budget, the policies of the graph count a search that they let
through, and nothing else. -/
theorem applyPolicies_search (dedupeSimilarity : ℚ) {maxCallsPerRun : Int}
    (hmax : 0 < maxCallsPerRun) {call : ToolCallInfo} (hname : call.name = "web_search")
    {state : RunState} {out : PolicyDecision × RunState}
    (hout : applyPolicies py (buildPolicies dedupeSimilarity maxCallsPerRun) call state = out) :
    out.1.result = none ∧ out.2.counts "web_search" = state.counts "web_search" + 1 ∧
        (state.counts "web_search" : Int) < maxCallsPerRun ∨
      out.1.result ≠ none ∧ out.2.counts = state.counts := by
  have hbudget : ∀ (call : ToolCallInfo) (state : RunState), call.name = "web_search" →
      (applyPolicies py [.searchBudget maxCallsPerRun] call state).1.result =
          (searchBudgetPolicy maxCallsPerRun call state).1.result ∧
        (applyPolicies py [.searchBudget maxCallsPerRun] call state).2 =
          (searchBudgetPolicy maxCallsPerRun call state).2 := by
    intro call state hname
    rw [applyPolicies_cons py _ _ hname]
    split
    case isTrue => exact ⟨rfl, rfl⟩
    case isFalse hopen => exact ⟨(Option.not_isSome_iff_eq_none.mp hopen).symm, rfl⟩
  subst hout
  unfold buildPolicies
  rw [if_pos hmax]
  split
  case isFalse =>
    rw [List.nil_append, (hbudget call state hname).1, (hbudget call state hname).2]
    exact searchBudgetPolicy_spec hmax call state
  case isTrue =>
    have hcounts := counts_searchDedupPolicy py dedupeSimilarity call state
    rw [List.singleton_append, applyPolicies_cons py _ _ hname]
    split
    case isTrue hblocks => exact Or.inr ⟨Option.isSome_iff_ne_none.mp hblocks, hcounts⟩
    case isFalse =>
      obtain ⟨hresult, hstate⟩ := hbudget
        { call with args := ((ToolPolicy.searchDedup dedupeSimilarity).apply py call state).1.args }
        ((ToolPolicy.searchDedup dedupeSimilarity).apply py call state).2 hname
      rw [hresult, hstate, ← hcounts]
      exact searchBudgetPolicy_spec hmax _ _

end Budget

end GraphAgent
