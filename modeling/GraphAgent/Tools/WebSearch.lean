import GraphAgent.Core.ToolPass
import GraphAgent.Library.Transition

/-!
# The searches of a run

`WebSearchTool` up to its requests, and the machine of all `web_search` calls of a
run: the deduplication writes a query down before the budget, the repeat guard, the
tool and the provider have had their say.
-/

namespace GraphAgent

section Tool

/-- `items[:n]`. -/
def sliceTo {α : Type} (items : List α) (n : Int) : List α :=
  items.take (if n < 0 then n + items.length else n).toNat

/-- What `WebSearchTool` reads of its configuration before it sends anything, with
Python's `int`. -/
structure WebSearchTool where
  provider : String
  apiBase : Option String
  maxQueriesPerCall : Int
  toInt : Value → Except String Int

variable (tool : WebSearchTool) (py : Python)

/-- `WebSearchTool._queries`. -/
def WebSearchTool.queries (args : Args) : Except String (List String) :=
  let unique := argQueries py args
  if unique.isEmpty then .error "web_search: query must not be empty"
  else .ok (sliceTo unique tool.maxQueriesPerCall)

/-- `WebSearchTool.execute` up to its requests: the queries to send and the number of
results to keep of each. -/
def WebSearchTool.plan (args : Args) : Except String (List String × Int) := do
  if tool.provider ≠ "searxng" then
    throw ("web_search: unsupported provider: " ++ tool.provider)
  if tool.apiBase.getD "" = "" then
    throw "web_search: api_base not configured"
  let queries ← tool.queries py args
  let maxResults ← tool.toInt ((args.get? "max_results").getD (.int 5))
  return (queries, min (max maxResults 1) 10)

end Tool

section Run

/-- What happens to the queries of a run: one is dropped as already searched, one is
sent, with the number of its search, or a search fails. -/
inductive SearchEntry where
  | dropped (query : String)
  | sent (search : Nat) (query : String)
  | failed (search : Nat)
  deriving DecidableEq

/-- A run with the queries that its started calls still have to send, the searches
whose answers are to come, and what has happened so far. -/
structure SearchRun where
  metrics : RunMetrics
  waiting : List String
  inFlight : List Nat
  searches : Nat
  log : List SearchEntry

/-- The searches of a run that has just begun. -/
def SearchRun.fresh : SearchRun := ⟨.fresh, [], [], 0, []⟩

/-- A call comes to the tools node, a query is sent, or a search comes to its end. -/
inductive SearchStep where
  | call (manualMode : Bool) (answers : List Bool) (call : ToolCall)
  | send (query : String)
  | answer (search : Nat) (found : Bool)

variable (g : Graph) (tool : WebSearchTool)

/-- `SearchDedupPolicy` looks at the call. -/
def Deduplicated (call : ToolCall) : Prop :=
  known g call = true ∧ call.name = "web_search" ∧ 0 < g.config.dedupeSimilarity

instance (call : ToolCall) : Decidable (Deduplicated g call) :=
  inferInstanceAs (Decidable (_ ∧ _ ∧ _))

/-- The loop of `SearchDedupPolicy.apply` over the queries of a call. -/
def dedupScan (metrics : RunMetrics) (call : ToolCall) : DedupScan :=
  (argQueries g.py call.args).foldl (DedupScan.read g.py g.config.dedupeSimilarity)
    ⟨[], [], metrics.policyState.searchQueries⟩

/-- The queries that `SearchDedupPolicy` drops from a call. -/
def droppedQueries (metrics : RunMetrics) (call : ToolCall) : List String :=
  if Deduplicated g call then (dedupScan g metrics call).dropped else []

/-- The queries that a call sends once it is started. -/
def plannedQueries (call : ToolCall) : Admission → List String
  | .started args =>
      if call.name = "web_search" then ((tool.plan g.py args).toOption.map Prod.fst).getD [] else []
  | _ => []

namespace SearchRun

variable (s : SearchRun)

def callStep (manualMode : Bool) (answers : List Bool) (call : ToolCall) : SearchRun :=
  let result := admitCall g manualMode call ⟨s.metrics, answers, []⟩
  { s with
    metrics := result.2.metrics
    waiting := s.waiting ++ plannedQueries g tool call result.1
    log := s.log ++ (droppedQueries g s.metrics call).map .dropped }

def step : SearchStep → Option SearchRun
  | .call manualMode answers call => some (s.callStep g tool manualMode answers call)
  | .send query =>
      if query ∈ s.waiting then
        some { s with
          waiting := s.waiting.erase query
          inFlight := s.inFlight ++ [s.searches]
          searches := s.searches + 1
          log := s.log ++ [.sent s.searches query] }
      else none
  | .answer search found =>
      if search ∈ s.inFlight then
        some { s with
          inFlight := s.inFlight.erase search
          log := if found then s.log else s.log ++ [.failed search] }
      else none

end SearchRun

def searchSystem : Transition.System SearchRun SearchStep where
  init s := s = .fresh
  step s := s.step g tool

/-- `SearchDedupPolicy` takes a query for a repetition of an earlier one. -/
def Similar (query earlier : String) : Prop :=
  g.config.dedupeSimilarity ≤ querySimilarity g.py query (normalizeQuery g.py earlier)

instance (query earlier : String) : Decidable (Similar g query earlier) :=
  inferInstanceAs (Decidable (_ ≤ _))

/-- A query is dropped only if a similar one was sent before it and did not fail. -/
def SearchRun.DropsSearched (s : SearchRun) : Prop :=
  ∀ before query after, s.log = before ++ .dropped query :: after →
    ∃ search earlier, .sent search earlier ∈ before ∧ Similar g query earlier ∧
      .failed search ∉ s.log

end Run

section Queries

variable (py : Python)

theorem nodup_eraseDups {α : Type} [DecidableEq α] (items : List α) : items.eraseDups.Nodup := by
  induction hn : items.length using Nat.strong_induction_on generalizing items with
  | h n ih =>
      cases items with
      | nil => simp
      | cons item rest =>
          rw [List.eraseDups_cons, List.nodup_cons]
          refine ⟨?_, ih _ ?_ _ rfl⟩
          · simp [List.mem_eraseDups]
          · have hshorter := List.length_filter_le (fun other => !other == item) rest
            simp only [List.length_cons] at hn
            omega

theorem eraseDups_of_nodup {α : Type} [DecidableEq α] {items : List α} (h : items.Nodup) :
    items.eraseDups = items := by
  induction items with
  | nil => rfl
  | cons item rest ih =>
      rw [List.nodup_cons] at h
      have hkeep : rest.filter (fun other => !other == item) = rest := by
        rw [List.filter_eq_self]
        intro other hother
        have hne : other ≠ item := by
          rintro rfl
          exact h.1 hother
        simpa using hne
      rw [List.eraseDups_cons, hkeep, ih h.2]

/-- The queries of a call are stripped and not empty. -/
theorem stripped_of_mem_argQueries {args : Args} {query : String}
    (h : query ∈ argQueries py args) : Text.strip query = query ∧ query ≠ "" := by
  unfold argQueries at h
  rw [List.mem_eraseDups, List.mem_append] at h
  rcases h with hsingle | hbatch
  · split at hsingle
    · split at hsingle
      · exact nomatch hsingle
      · rename_i hfull
        obtain rfl := List.mem_singleton.mp hsingle
        exact ⟨Text.strip_strip _, hfull⟩
    · exact nomatch hsingle
  · split at hbatch
    · obtain ⟨hmem, hfull⟩ := List.mem_filter.mp hbatch
      obtain ⟨item, -, rfl⟩ := List.mem_map.mp hmem
      exact ⟨Text.strip_strip _, by simpa using hfull⟩
    · exact nomatch hbatch

/-- A call whose `query` is a full text, with a batch and without one. -/
theorem argQueries_of_query {args : Args} {first : String}
    (hquery : args.get? "query" = some (.str first)) (hstrip : Text.strip first = first)
    (hfull : first ≠ "") :
    (∀ items, args.get? "queries" = some (.arr items) → argQueries py args =
      (first :: (items.map fun item => Text.strip (py.str item)).filter
        fun query => !query.isEmpty).eraseDups) ∧
    ((∀ items, args.get? "queries" ≠ some (.arr items)) → argQueries py args = [first]) := by
  constructor
  · intro items hbatch
    simp [argQueries, hquery, hbatch, hstrip, hfull]
  · intro hnone
    cases hbatch : args.get? "queries" with
    | none => simp [argQueries, hquery, hbatch, hstrip, hfull, List.eraseDups_cons]
    | some value =>
        cases value with
        | arr items => exact absurd hbatch (hnone items)
        | _ => simp [argQueries, hquery, hbatch, hstrip, hfull, List.eraseDups_cons]

/-- Without a batch a call has one query at most. -/
theorem length_argQueries {args : Args} (h : ∀ items, args.get? "queries" ≠ some (.arr items)) :
    (argQueries py args).length ≤ 1 := by
  unfold argQueries
  dsimp only
  split
  case h_1 query _ =>
    split
    case isTrue =>
      split
      case h_1 items hitems => exact absurd hitems (h items)
      case h_2 => simp
    case isFalse =>
      split
      case h_1 items hitems => exact absurd hitems (h items)
      case h_2 => simp [List.eraseDups_cons]
  case h_2 =>
    split
    case h_1 items hitems => exact absurd hitems (h items)
    case h_2 => simp

/-- The tool finds exactly the queries in a call that the deduplication has kept there. -/
theorem argQueries_withKeptQueries {args : Args} {kept : List String}
    (hsub : kept.Sublist (argQueries py args)) (hkept : kept ≠ []) :
    argQueries py (withKeptQueries args kept) = kept := by
  have hnodup : kept.Nodup := hsub.nodup (nodup_eraseDups _)
  have hstripped : ∀ query ∈ kept, Text.strip query = query ∧ query ≠ "" := fun query hquery =>
    stripped_of_mem_argQueries py (hsub.subset hquery)
  obtain ⟨first, rest, rfl⟩ := List.exists_cons_of_ne_nil hkept
  obtain ⟨hstrip, hfull⟩ := hstripped first List.mem_cons_self
  have hquery : Args.get? (withKeptQueries args (first :: rest)) "query" = some (.str first) := by
    simp [withKeptQueries, Args.get?_set]
  obtain ⟨hlist, hnolist⟩ := argQueries_of_query py hquery hstrip hfull
  by_cases hbatch : ∃ items, args.get? "queries" = some (.arr items)
  · obtain ⟨items, hbatch⟩ := hbatch
    have hkeptBatch : Args.get? (withKeptQueries args (first :: rest)) "queries" =
        some (.arr ((first :: rest).map .str)) := by
      simp [withKeptQueries, Args.get?_set, hbatch]
    have hsame : ((first :: rest).map Value.str).map (fun item => Text.strip (py.str item)) =
        first :: rest := by
      rw [List.map_map]
      exact (List.map_congr_left fun query hmem => (hstripped query hmem).1).trans (List.map_id _)
    have hnonempty : (first :: rest).filter (fun query => !query.isEmpty) = first :: rest := by
      rw [List.filter_eq_self]
      intro query hmem
      simpa using (hstripped query hmem).2
    rw [hlist _ hkeptBatch, hsame, hnonempty, List.eraseDups_cons]
    have hrest : (first :: rest).filter (fun other => !other == first) = rest := by
      simp only [List.filter_cons, beq_self_eq_true, Bool.not_true, Bool.false_eq_true, if_false]
      rw [List.filter_eq_self]
      intro other hother
      have hne : other ≠ first := by
        rintro rfl
        exact (List.nodup_cons.mp hnodup).1 hother
      simpa using hne
    rw [hrest, eraseDups_of_nodup (List.nodup_cons.mp hnodup).2]
  · have hnone : ∀ items, args.get? "queries" ≠ some (.arr items) :=
      fun items hitems => hbatch ⟨items, hitems⟩
    have hsame : Args.get? (withKeptQueries args (first :: rest)) "queries" =
        args.get? "queries" := by
      unfold withKeptQueries
      split
      case h_1 items hitems => exact absurd hitems (hnone items)
      case h_2 => simp [Args.get?_set]
    have hlength := hsub.length_le.trans (length_argQueries py hnone)
    obtain rfl : rest = [] := List.eq_nil_of_length_eq_zero (by simpa using hlength)
    exact hnolist fun items hitems => hnone items (hsame ▸ hitems)

end Queries

section Scan

variable (py : Python) (similarity : ℚ)

theorem isDuplicate_iff (query : String) (seen : List String) :
    isDuplicate py similarity query seen = true ↔
      ∃ previous ∈ seen, similarity ≤ querySimilarity py query previous := by
  simp [isDuplicate]

/-- Only a query of two words or more has anything similar to it. -/
theorem two_le_card_tokens (hpositive : 0 < similarity) {query previous : String}
    (h : similarity ≤ querySimilarity py query previous) : 2 ≤ (tokens py previous).card := by
  by_contra hshort
  have hzero : querySimilarity py query previous = 0 := by
    unfold querySimilarity
    exact if_pos (Or.inr (Nat.lt_of_not_le hshort))
  rw [hzero] at h
  exact absurd (hpositive.trans_le h) (lt_irrefl 0)

/-- Where the queries of a call are not similar to each other, the loop compares them
with what was recorded before the call. -/
theorem foldl_read (queries old : List String)
    (hapart : queries.Pairwise fun earlier query =>
      ¬ similarity ≤ querySimilarity py query (normalizeQuery py earlier)) :
    ∀ kept dropped added, (∀ query ∈ queries, ∀ previous ∈ added,
        ¬ similarity ≤ querySimilarity py query previous) →
      queries.foldl (DedupScan.read py similarity) ⟨kept, dropped, old ++ added⟩ =
        ⟨kept ++ queries.filter fun query => !isDuplicate py similarity query old,
          dropped ++ queries.filter fun query => isDuplicate py similarity query old,
          old ++ (added ++ (queries.filter fun query =>
            !isDuplicate py similarity query old).map (normalizeQuery py))⟩ := by
  induction queries with
  | nil => simp
  | cons query rest ih =>
      intro kept dropped added hadded
      obtain ⟨hfirst, hrest⟩ := List.pairwise_cons.mp hapart
      have hsame : isDuplicate py similarity query (old ++ added) =
          isDuplicate py similarity query old := by
        rw [Bool.eq_iff_iff, isDuplicate_iff, isDuplicate_iff]
        constructor
        · rintro ⟨previous, hmem, hsimilar⟩
          rcases List.mem_append.mp hmem with hold | hnew
          · exact ⟨previous, hold, hsimilar⟩
          · exact absurd hsimilar (hadded query List.mem_cons_self previous hnew)
        · rintro ⟨previous, hmem, hsimilar⟩
          exact ⟨previous, List.mem_append_left _ hmem, hsimilar⟩
      rw [List.foldl_cons, DedupScan.read, hsame]
      cases hduplicate : isDuplicate py similarity query old with
      | true =>
          have hlater := ih hrest kept (dropped ++ [query]) added
            fun other hother => hadded other (List.mem_cons_of_mem _ hother)
          simp only [if_true, hlater, hduplicate, List.filter_cons, Bool.not_true,
            Bool.false_eq_true, if_false, List.append_assoc, List.singleton_append]
      | false =>
          have hlater := ih hrest (kept ++ [query]) dropped (added ++ [normalizeQuery py query]) (by
            intro other hother previous hprevious
            rcases List.mem_append.mp hprevious with hbefore | hlast
            · exact hadded other (List.mem_cons_of_mem _ hother) previous hbefore
            · rw [List.mem_singleton.mp hlast]
              exact hfirst other hother)
          simp only [Bool.false_eq_true, if_false, List.append_assoc] at hlater ⊢
          rw [hlater]
          simp only [hduplicate, List.filter_cons, Bool.not_false, if_true, Bool.false_eq_true,
            if_false, List.singleton_append, List.map_cons]

end Scan

section Admission

variable {g : Graph} {call : ToolCall}

/-- The deduplication records what its loop recorded, and keeps what its loop kept. -/
theorem searchDedupPolicy_spec (py : Python) (similarity : ℚ) (info : ToolCallInfo)
    (state : RunState) {scan : DedupScan}
    (hscan : (argQueries py info.args).foldl (DedupScan.read py similarity)
      ⟨[], [], state.searchQueries⟩ = scan) :
    (searchDedupPolicy py similarity info state).2.searchQueries = scan.recorded ∧
      (scan.kept ≠ [] → searchDedupPolicy py similarity info state =
        ({ args := withKeptQueries info.args scan.kept },
          { state with searchQueries := scan.recorded })) := by
  unfold searchDedupPolicy
  cases hqueries : argQueries py info.args with
  | nil =>
      rw [hqueries] at hscan
      subst hscan
      exact ⟨rfl, fun hkept => absurd rfl hkept⟩
  | cons query rest =>
      rw [hqueries] at hscan
      simp only [hscan]
      constructor
      · split <;> rfl
      · intro hkept
        rw [if_neg (by simpa using hkept)]

/-- The budget does not touch the recorded queries. -/
theorem searchQueries_budget (py : Python) (maxCalls : Int) (info : ToolCallInfo)
    (state : RunState) :
    (applyPolicies py (if 0 < maxCalls then [.searchBudget maxCalls] else []) info
      state).2.searchQueries = state.searchQueries := by
  have hbudget : (searchBudgetPolicy maxCalls info state).2.searchQueries =
      state.searchQueries := by
    unfold searchBudgetPolicy
    dsimp only
    split <;> rfl
  split
  · simp only [applyPolicies]
    split
    · split <;> exact hbudget
    · rfl
  · rfl

/-- A budget that is not spent hands the arguments on. -/
theorem budget_open (py : Python) {maxCalls : Int} {info : ToolCallInfo} {state : RunState}
    (hleft : 0 < maxCalls → (state.counts "web_search" : Int) < maxCalls) :
    (applyPolicies py (if 0 < maxCalls then [.searchBudget maxCalls] else []) info state).1 =
      { args := info.args } := by
  split
  case isFalse => rfl
  case isTrue hmax =>
    have hallowed : (searchBudgetPolicy maxCalls info state).1 = { args := info.args } := by
      unfold searchBudgetPolicy
      rw [if_neg]
      have hcount := hleft hmax
      omega
    simp only [applyPolicies, ToolPolicy.apply]
    split
    · simp only [hallowed, PolicyDecision.blocks, Option.isSome_none, Bool.false_eq_true, if_false]
    · rfl

theorem searchQueries_policed (hdedup : Deduplicated g call) (pass : Pass) :
    (policed g call pass).2.searchQueries = (dedupScan g pass.metrics call).recorded := by
  obtain ⟨-, hname, hpositive⟩ := hdedup
  have hspec := (searchDedupPolicy_spec g.py g.config.dedupeSimilarity ⟨call.name, call.args⟩
    pass.metrics.policyState rfl).1
  unfold policed buildPolicies
  rw [if_pos hpositive, List.singleton_append, applyPolicies_cons g.py _ _ hname]
  split
  · exact hspec
  · rw [searchQueries_budget]
    exact hspec

/-- What the deduplication keeps gets past the policies while the budget lasts. -/
theorem policed_open (hdedup : Deduplicated g call) {pass : Pass}
    (hkept : (dedupScan g pass.metrics call).kept ≠ [])
    (hleft : 0 < g.config.maxCallsPerRun →
      (pass.metrics.policyState.counts "web_search" : Int) < g.config.maxCallsPerRun) :
    (policed g call pass).1 =
      { args := withKeptQueries call.args (dedupScan g pass.metrics call).kept } := by
  obtain ⟨-, hname, hpositive⟩ := hdedup
  have hspec := (searchDedupPolicy_spec g.py g.config.dedupeSimilarity ⟨call.name, call.args⟩
    pass.metrics.policyState rfl).2 hkept
  unfold policed buildPolicies
  rw [if_pos hpositive, List.singleton_append, applyPolicies_cons g.py _ _ hname]
  simp only [ToolPolicy.apply, hspec, Option.isSome_none, Bool.false_eq_true, if_false]
  exact budget_open g.py hleft

/-- The policies alone write to the state that the searches share. -/
theorem policyState_of_known (hknown : known g call = true) (m : Bool) (pass : Pass) :
    (admitCall g m call pass).2.metrics.policyState = (policed g call pass).2 := by
  have h := admitted g m call pass
  generalize admitCall g m call pass = result at h ⊢
  cases h with
  | unknown hunknown => exact absurd (hknown.symm.trans hunknown) (by decide)
  | blocked => rfl
  | unattended => exact (admitGuarded_spec _ _ _ _).2.2.1
  | waits hneeds => exact congrArg Prod.snd (policed_of_needsApproval hneeds pass).symm
  | approved hneeds =>
      exact (admitGuarded_spec _ _ _ _).2.2.1.trans
        (congrArg Prod.snd (policed_of_needsApproval hneeds pass).symm)
  | denied hneeds => exact congrArg Prod.snd (policed_of_needsApproval hneeds pass).symm

theorem searchQueries_admitCall (hdedup : Deduplicated g call) (m : Bool) (pass : Pass) :
    (admitCall g m call pass).2.metrics.policyState.searchQueries =
      (dedupScan g pass.metrics call).recorded := by
  rw [policyState_of_known hdedup.1, searchQueries_policed hdedup]

/-- A call that the deduplication does not look at records nothing. -/
theorem searchQueries_admitCall_other (hdedup : ¬ Deduplicated g call) (m : Bool) (pass : Pass) :
    (admitCall g m call pass).2.metrics.policyState.searchQueries =
      pass.metrics.policyState.searchQueries := by
  by_cases hname : call.name = "web_search"
  · cases hknown : known g call with
    | false =>
        have hget : g.registry.get call.name = none := by
          simpa [known, Option.isSome_eq_false_iff] using hknown
        simp only [admitCall, hget]
        rfl
    | true =>
        have hoff : ¬ 0 < g.config.dedupeSimilarity := fun hpositive =>
          hdedup ⟨hknown, hname, hpositive⟩
        rw [policyState_of_known hknown]
        unfold policed buildPolicies
        rw [if_neg hoff, List.nil_append, searchQueries_budget]
  · rw [policyState_admitCall hname]

/-- A search that gets past the policies and the repeat guard is started. -/
theorem admitCall_started (hdedup : Deduplicated g call) {args : Args} {m : Bool} {pass : Pass}
    (hpolicies : (policed g call pass).1 = { args := args })
    (hrepeats : 0 < g.config.repeatToolCallLimit →
      (pass.metrics.signatures ("web_search", args.signature) : Int) <
        g.config.repeatToolCallLimit) :
    (admitCall g m call pass).1 = .started args := by
  obtain ⟨hknown, hname, -⟩ := hdedup
  have hneeds : needsApproval g call = false := by
    by_contra hasks
    exact name_of_needsApproval (Bool.not_eq_false _ ▸ hasks) hname
  rw [admitCall_unattended hknown hneeds (by rw [hpolicies]), hpolicies]
  unfold admitGuarded
  rw [if_neg]
  rintro ⟨hlimit, hcount⟩
  have hleft := hrepeats hlimit
  simp only [hname, afterPolicies] at hcount
  omega

end Admission

section Condition

variable (g : Graph) (tool : WebSearchTool)

/-- A query of two words or more. -/
def Worded (query : String) : Prop := 2 ≤ (tokens g.py (normalizeQuery g.py query)).card

instance (query : String) : Decidable (Worded g query) := inferInstanceAs (Decidable (_ ≤ _))

/-- The queries of a call that repeat nothing recorded before it. -/
def newQueries (metrics : RunMetrics) (call : ToolCall) : List String :=
  (argQueries g.py call.args).filter fun query =>
    !isDuplicate g.py g.config.dedupeSimilarity query metrics.policyState.searchQueries

/-- Nothing keeps the new queries of a call from the provider: neither the budget nor
the repeat guard, nor the tool with its configuration, arguments and cap. -/
structure GoesOut (metrics : RunMetrics) (call : ToolCall) : Prop where
  budget : 0 < g.config.maxCallsPerRun →
    (metrics.policyState.counts "web_search" : Int) < g.config.maxCallsPerRun
  repeats : 0 < g.config.repeatToolCallLimit →
    (metrics.signatures ("web_search",
      (withKeptQueries call.args (newQueries g metrics call)).signature) : Int) <
        g.config.repeatToolCallLimit
  provider : tool.provider = "searxng"
  apiBase : tool.apiBase.getD "" ≠ ""
  maxResults : ∃ n, tool.toInt ((call.args.get? "max_results").getD (.int 5)) = .ok n
  cap : ∀ query ∈ newQueries g metrics call, Worded g query →
    query ∈ sliceTo (newQueries g metrics call) tool.maxQueriesPerCall

/-- A call has no two similar queries and none that is similar to one still to be sent,
its new queries of two words or more go out, and the search for such a query finds
something. -/
def SendsWhatItRecords (s : SearchRun) : SearchStep → Prop
  | .call _ _ call => Deduplicated g call →
      (argQueries g.py call.args).Pairwise (fun earlier query => ¬ Similar g query earlier) ∧
        (∀ query ∈ argQueries g.py call.args, ∀ earlier ∈ s.waiting, ¬ Similar g query earlier) ∧
          ((∃ query ∈ newQueries g s.metrics call, Worded g query) → GoesOut g tool s.metrics call)
  | .send _ => True
  | .answer search found =>
      found = false → ∀ query, .sent search query ∈ s.log → ¬ Worded g query

end Condition

section Invariant

variable {g : Graph} {tool : WebSearchTool} {s s' : SearchRun} {call : ToolCall}

/-- A query that was dropped comes after a similar one of two words or more. -/
def Covered (g : Graph) (log : List SearchEntry) : Prop :=
  ∀ before query after, log = before ++ .dropped query :: after →
    ∃ search earlier, .sent search earlier ∈ before ∧ Similar g query earlier ∧ Worded g earlier

theorem covered_append {log more : List SearchEntry} (h : Covered g log)
    (hmore : ∀ query, .dropped query ∈ more →
      ∃ search earlier, .sent search earlier ∈ log ∧ Similar g query earlier ∧ Worded g earlier) :
    Covered g (log ++ more) := by
  intro before query after heq
  rcases List.append_eq_append_iff.mp heq with ⟨rest, hbefore, hrest⟩ | ⟨rest, hlog, hrest⟩
  · obtain ⟨search, earlier, hsent, hsimilar⟩ := hmore query (by rw [hrest]; simp)
    exact ⟨search, earlier, by rw [hbefore]; exact List.mem_append_left _ hsent, hsimilar⟩
  · cases rest with
    | nil =>
        obtain ⟨search, earlier, hsent, hsimilar⟩ := hmore query (by
          rw [List.nil_append] at hrest
          rw [← hrest]
          exact List.mem_cons_self)
        rw [List.append_nil] at hlog
        exact ⟨search, earlier, hlog ▸ hsent, hsimilar⟩
    | cons first rest =>
        rw [List.cons_append, List.cons.injEq] at hrest
        obtain ⟨rfl, -⟩ := hrest
        exact h before query rest hlog

/-- What holds of the recorded queries, the searches and what has happened. -/
structure Accounted (g : Graph) (s : SearchRun) : Prop where
  covered : Covered g s.log
  recorded : ∀ record ∈ s.metrics.policyState.searchQueries, 2 ≤ (tokens g.py record).card →
    (∃ query ∈ s.waiting, normalizeQuery g.py query = record) ∨
      ∃ search query, .sent search query ∈ s.log ∧ normalizeQuery g.py query = record
  flying : ∀ search ∈ s.inFlight, search < s.searches
  failed : ∀ search, .failed search ∈ s.log → search < s.searches
  found : ∀ search query, .sent search query ∈ s.log → Worded g query → .failed search ∉ s.log

theorem accounted_fresh : Accounted g .fresh where
  covered before query after h := by simp [SearchRun.fresh] at h
  recorded := nofun
  flying := nofun
  failed := nofun
  found := nofun

theorem Accounted.dropsSearched (h : Accounted g s) : s.DropsSearched g := by
  intro before query after hlog
  obtain ⟨search, earlier, hsent, hsimilar, hworded⟩ := h.covered before query after hlog
  refine ⟨search, earlier, hsent, hsimilar, h.found search earlier ?_ hworded⟩
  rw [hlog]
  exact List.mem_append_left _ hsent

theorem Accounted.send {query : String} (h : Accounted g s) (tool : WebSearchTool)
    (hstep : s.step g tool (.send query) = some s') : Accounted g s' := by
  simp only [SearchRun.step, Option.ite_none_right_eq_some, Option.some.injEq] at hstep
  obtain ⟨hwaiting, rfl⟩ := hstep
  constructor
  case covered =>
    apply covered_append h.covered
    intro other hother
    simp at hother
  case recorded =>
    intro record hrecord hworded
    rcases h.recorded record hrecord hworded with ⟨other, hother, hnormal⟩ | ⟨search, other, hsent, hnormal⟩
    · by_cases heq : other = query
      · exact Or.inr ⟨s.searches, other, by simp [heq], hnormal⟩
      · exact Or.inl ⟨other, (List.mem_erase_of_ne heq).mpr hother, hnormal⟩
    · exact Or.inr ⟨search, other, List.mem_append_left _ hsent, hnormal⟩
  case flying =>
    intro search hsearch
    rcases List.mem_append.mp hsearch with hbefore | hlast
    · exact Nat.lt_succ_of_lt (h.flying search hbefore)
    · rw [List.mem_singleton.mp hlast]
      exact Nat.lt_succ_self _
  case failed =>
    intro search hfailed
    have hbefore : .failed search ∈ s.log := by simpa using hfailed
    exact Nat.lt_succ_of_lt (h.failed search hbefore)
  case found =>
    intro search other hsent hworded hfailed
    have hbefore : .failed search ∈ s.log := by simpa using hfailed
    rcases List.mem_append.mp hsent with hold | hnew
    · exact h.found search other hold hworded hbefore
    · simp only [List.mem_singleton, SearchEntry.sent.injEq] at hnew
      exact absurd (h.failed search hbefore) (by omega)

theorem Accounted.answer {search : Nat} {found : Bool} (h : Accounted g s)
    (hguard : SendsWhatItRecords g tool s (.answer search found))
    (hstep : s.step g tool (.answer search found) = some s') : Accounted g s' := by
  simp only [SearchRun.step, Option.ite_none_right_eq_some, Option.some.injEq] at hstep
  obtain ⟨hflying, rfl⟩ := hstep
  have hflights : ∀ other ∈ s.inFlight.erase search, other < s.searches :=
    fun other hother => h.flying other (List.mem_of_mem_erase hother)
  cases found with
  | true => exact ⟨h.covered, h.recorded, hflights, h.failed, h.found⟩
  | false =>
      refine ⟨?_, ?_, hflights, ?_, ?_⟩
      · apply covered_append h.covered
        intro other hother
        simp at hother
      · intro record hrecord hworded
        refine (h.recorded record hrecord hworded).imp_right ?_
        rintro ⟨other, query, hsent, hnormal⟩
        exact ⟨other, query, List.mem_append_left _ hsent, hnormal⟩
      · intro other hother
        rcases List.mem_append.mp hother with hbefore | hlast
        · exact h.failed other hbefore
        · simp only [List.mem_singleton, SearchEntry.failed.injEq] at hlast
          exact hlast ▸ h.flying search hflying
      · intro other query hsent hworded hfailed
        have hbefore : .sent other query ∈ s.log := by simpa using hsent
        rcases List.mem_append.mp hfailed with hold | hnew
        · exact h.found other query hbefore hworded hold
        · simp only [List.mem_singleton, SearchEntry.failed.injEq] at hnew
          exact hguard rfl query (hnew ▸ hbefore) hworded

/-- The loop over a call without similar queries keeps and records its new queries. -/
theorem dedupScan_eq (metrics : RunMetrics)
    (hapart : (argQueries g.py call.args).Pairwise fun earlier query => ¬ Similar g query earlier) :
    dedupScan g metrics call =
      ⟨newQueries g metrics call,
        (argQueries g.py call.args).filter fun query =>
          isDuplicate g.py g.config.dedupeSimilarity query metrics.policyState.searchQueries,
        metrics.policyState.searchQueries ++
          (newQueries g metrics call).map (normalizeQuery g.py)⟩ := by
  have hscan := foldl_read g.py g.config.dedupeSimilarity _ metrics.policyState.searchQueries
    hapart [] [] [] nofun
  rw [List.append_nil] at hscan
  exact hscan

theorem get?_withKeptQueries (args : Args) (kept : List String) :
    Args.get? (withKeptQueries args kept) "max_results" = args.get? "max_results" := by
  unfold withKeptQueries
  dsimp only
  rw [Args.get?_set, if_neg (by decide)]
  split
  · rw [Args.get?_set, if_neg (by decide)]
  · rfl

/-- A tool that is configured plans the queries that the deduplication has kept. -/
theorem GoesOut.plan {metrics : RunMetrics} (h : GoesOut g tool metrics call)
    (hnew : newQueries g metrics call ≠ []) :
    ((tool.plan g.py (withKeptQueries call.args (newQueries g metrics call))).toOption.map
      Prod.fst).getD [] = sliceTo (newQueries g metrics call) tool.maxQueriesPerCall := by
  have hqueries : tool.queries g.py (withKeptQueries call.args (newQueries g metrics call)) =
      .ok (sliceTo (newQueries g metrics call) tool.maxQueriesPerCall) := by
    have hkept : argQueries g.py (withKeptQueries call.args (newQueries g metrics call)) =
        newQueries g metrics call := argQueries_withKeptQueries g.py List.filter_sublist hnew
    unfold WebSearchTool.queries
    rw [hkept]
    exact if_neg (by simpa using hnew)
  obtain ⟨n, hn⟩ := h.maxResults
  have hplan : tool.plan g.py (withKeptQueries call.args (newQueries g metrics call)) =
      .ok (sliceTo (newQueries g metrics call) tool.maxQueriesPerCall, min (max n 1) 10) := by
    unfold WebSearchTool.plan
    rw [if_neg (by simpa using h.provider), if_neg h.apiBase, hqueries, get?_withKeptQueries, hn]
    rfl
  rw [hplan]
  rfl

/-- The new queries of a call that goes out wait for their turn, as far as the cap allows. -/
theorem plannedQueries_of_goesOut (hdedup : Deduplicated g call) {m : Bool} {answers : List Bool}
    (hapart : (argQueries g.py call.args).Pairwise fun earlier query => ¬ Similar g query earlier)
    (hnew : newQueries g s.metrics call ≠ []) (hout : GoesOut g tool s.metrics call) :
    plannedQueries g tool call (admitCall g m call ⟨s.metrics, answers, []⟩).1 =
      sliceTo (newQueries g s.metrics call) tool.maxQueriesPerCall := by
  have hkept : (dedupScan g s.metrics call).kept = newQueries g s.metrics call := by
    rw [dedupScan_eq s.metrics hapart]
  have hpolicies : (policed g call ⟨s.metrics, answers, []⟩).1 =
      { args := withKeptQueries call.args (dedupScan g s.metrics call).kept } :=
    policed_open hdedup (hkept ▸ hnew) hout.budget
  rw [hkept] at hpolicies
  rw [admitCall_started hdedup hpolicies hout.repeats]
  simp only [plannedQueries, hdedup.2.1, if_true]
  exact hout.plan hnew

/-- A query that was dropped repeats a recorded one that has been sent. -/
theorem Accounted.sent_of_dropped (h : Accounted g s) (hdedup : Deduplicated g call)
    (hapart : (argQueries g.py call.args).Pairwise fun earlier query => ¬ Similar g query earlier)
    (hwaiting : ∀ query ∈ argQueries g.py call.args, ∀ earlier ∈ s.waiting,
      ¬ Similar g query earlier)
    {query : String} (hquery : query ∈ droppedQueries g s.metrics call) :
    ∃ search earlier, .sent search earlier ∈ s.log ∧ Similar g query earlier ∧
      Worded g earlier := by
  unfold droppedQueries at hquery
  rw [if_pos hdedup, dedupScan_eq s.metrics hapart, List.mem_filter, isDuplicate_iff] at hquery
  obtain ⟨hmem, record, hrecord, hsimilar⟩ := hquery
  have hworded := two_le_card_tokens g.py _ hdedup.2.2 hsimilar
  rcases h.recorded record hrecord hworded with ⟨earlier, hearlier, rfl⟩ | ⟨search, earlier, hsent, rfl⟩
  · exact absurd hsimilar (hwaiting query hmem earlier hearlier)
  · exact ⟨search, earlier, hsent, hsimilar, hworded⟩

theorem Accounted.callStep {m : Bool} {answers : List Bool} (h : Accounted g s)
    (hguard : SendsWhatItRecords g tool s (.call m answers call)) :
    Accounted g (s.callStep g tool m answers call) := by
  have hnone : ∀ entry, (∀ query, entry ≠ SearchEntry.dropped query) →
      entry ∈ s.log ++ (droppedQueries g s.metrics call).map .dropped → entry ∈ s.log := by
    intro entry hentry hmem
    rcases List.mem_append.mp hmem with hbefore | hnew
    · exact hbefore
    · obtain ⟨query, -, rfl⟩ := List.mem_map.mp hnew
      exact absurd rfl (hentry query)
  constructor
  case covered =>
    apply covered_append h.covered
    intro query hquery
    obtain ⟨other, hother, heq⟩ := List.mem_map.mp hquery
    obtain rfl := SearchEntry.dropped.inj heq
    by_cases hdedup : Deduplicated g call
    · obtain ⟨hapart, hwaiting, -⟩ := hguard hdedup
      exact h.sent_of_dropped hdedup hapart hwaiting hother
    · unfold droppedQueries at hother
      rw [if_neg hdedup] at hother
      exact nomatch hother
  case recorded =>
    intro record hrecord hworded
    have hkept : record ∈ s.metrics.policyState.searchQueries →
        (∃ query ∈ s.waiting ++ plannedQueries g tool call
            (admitCall g m call ⟨s.metrics, answers, []⟩).1, normalizeQuery g.py query = record) ∨
          ∃ search query, .sent search query ∈
            s.log ++ (droppedQueries g s.metrics call).map .dropped ∧
              normalizeQuery g.py query = record := by
      intro hold
      rcases h.recorded record hold hworded with ⟨query, hquery, hnormal⟩ | ⟨search, query, hsent, hnormal⟩
      · exact Or.inl ⟨query, List.mem_append_left _ hquery, hnormal⟩
      · exact Or.inr ⟨search, query, List.mem_append_left _ hsent, hnormal⟩
    by_cases hdedup : Deduplicated g call
    · obtain ⟨hapart, -, hout⟩ := hguard hdedup
      have hrecorded := searchQueries_admitCall hdedup m ⟨s.metrics, answers, []⟩
      rw [dedupScan_eq s.metrics hapart] at hrecorded
      rcases List.mem_append.mp (hrecorded ▸ hrecord) with hold | hnew
      · exact hkept hold
      · obtain ⟨query, hquery, rfl⟩ := List.mem_map.mp hnew
        have hgoes := hout ⟨query, hquery, hworded⟩
        refine Or.inl ⟨query, List.mem_append_right _ ?_, rfl⟩
        rw [plannedQueries_of_goesOut hdedup hapart (List.ne_nil_of_mem hquery) hgoes]
        exact hgoes.cap query hquery hworded
    · exact hkept ((searchQueries_admitCall_other hdedup m ⟨s.metrics, answers, []⟩) ▸ hrecord)
  case flying => exact h.flying
  case failed =>
    intro search hfailed
    exact h.failed search (hnone _ nofun hfailed)
  case found =>
    intro search query hsent hworded hfailed
    exact h.found search query (hnone _ nofun hsent) hworded (hnone _ nofun hfailed)

/-- As long as every query of two words or more that is recorded is also sent and found,
nothing is dropped that was not searched for. -/
theorem dropsSearched_of_sendsWhatItRecords (g : Graph) (tool : WebSearchTool) {s : SearchRun}
    (h : (searchSystem g tool).ReachableWithin (SendsWhatItRecords g tool) s) :
    s.DropsSearched g := by
  have haccounted : Accounted g s := by
    apply h.invariant
    · rintro s rfl
      exact accounted_fresh
    · intro s step s' hs hguard hstep
      cases step with
      | call m answers call =>
          obtain rfl := Option.some.inj hstep
          exact hs.callStep hguard
      | send query => exact hs.send tool hstep
      | answer search found => exact hs.answer hguard hstep
  exact haccounted.dropsSearched

end Invariant

section Runs

/-- A tool with a provider and the given cap. -/
def sampleSearch (maxQueriesPerCall : Int) : WebSearchTool where
  provider := "searxng"
  apiBase := some "http://localhost:8888"
  maxQueriesPerCall := maxQueriesPerCall
  toInt
    | .int n => .ok n
    | _ => .error "not a number"

def romeCall : ToolCall := ⟨some "c1", "web_search", [("query", .str "weather in rome")]⟩

def romeTodayCall : ToolCall :=
  ⟨some "c2", "web_search", [("query", .str "weather in rome today")]⟩

def batchCall : ToolCall :=
  ⟨some "c1", "web_search", [("query", .str "weather in rome"),
    ("queries", .arr [.str "museum opening hours"])]⟩

theorem goesOut_rome : GoesOut defaultGraph (sampleSearch 4) .fresh romeCall where
  budget _ := by decide
  repeats _ := by decide +kernel
  provider := rfl
  apiBase := by decide
  maxResults := ⟨5, rfl⟩
  cap _ hquery _ := hquery

/-- A query is searched for, and one with a word more is dropped after it. -/
theorem dropsSearched_rome : ∃ s,
    (searchSystem defaultGraph (sampleSearch 4)).ReachableWithin
        (SendsWhatItRecords defaultGraph (sampleSearch 4)) s ∧
      s.log = [.sent 0 "weather in rome", .dropped "weather in rome today"] ∧
      s.DropsSearched defaultGraph := by
  have hreach : (searchSystem defaultGraph (sampleSearch 4)).ReachableWithin
      (SendsWhatItRecords defaultGraph (sampleSearch 4)) _ :=
    ⟨_, [.call true [] romeCall, .send "weather in rome", .answer 0 true,
      .call true [] romeTodayCall], rfl, Transition.System.run_of_exec rfl (by
        refine Transition.System.meets_cons rfl (fun _ => ⟨?_, ?_, fun _ => goesOut_rome⟩) ?_
        · decide +kernel
        · nofun
        refine Transition.System.meets_cons rfl trivial ?_
        refine Transition.System.meets_cons rfl nofun ?_
        refine Transition.System.meets_cons rfl (fun _ => ⟨?_, ?_, fun hnew => ?_⟩) trivial
        · decide +kernel
        · decide +kernel
        · exact absurd hnew (by decide +kernel))⟩
  exact ⟨_, hreach, by decide +kernel, dropsSearched_of_sendsWhatItRecords _ _ hreach⟩

/-- The first of two queries fails and the second is cut off by the cap, and yet both
count as searched afterwards. -/
theorem unsent_queries_dropped : ∃ s,
    (searchSystem defaultGraph (sampleSearch 1)).Reachable s ∧
      s.log = [.sent 0 "weather in rome", .failed 0, .dropped "weather in rome",
        .dropped "museum opening hours"] ∧
      ¬ s.DropsSearched defaultGraph := by
  have hreach : (searchSystem defaultGraph (sampleSearch 1)).Reachable _ :=
    Transition.System.reachable_of_exec (s := SearchRun.fresh)
      [.call true [] batchCall, .send "weather in rome", .answer 0 false,
        .call true [] batchCall] rfl rfl
  refine ⟨_, hreach, ?_⟩
  refine (fun hlog => ⟨hlog, fun h => ?lost⟩) ?log
  case log => decide +kernel
  case lost =>
    obtain ⟨search, earlier, hsent, -, hfailed⟩ :=
      h [.sent 0 "weather in rome", .failed 0] "weather in rome"
        [.dropped "museum opening hours"] hlog
    have hsearch : search = 0 := by
      simp only [List.mem_cons, SearchEntry.sent.injEq, reduceCtorEq, List.not_mem_nil,
        or_false] at hsent
      exact hsent.1
    rw [hlog, hsearch] at hfailed
    exact hfailed (List.mem_cons_of_mem _ List.mem_cons_self)

end Runs

end GraphAgent
