import GraphAgent.Library.Distinct
import GraphAgent.Realtime.Delegate
import GraphAgent.Tools.WebSearch
import Mathlib.Data.Finset.Insert
import Mathlib.Data.Finset.Lattice.Basic

/-!
# What the searches of a run return

`WebSearchTool.execute` from its answers on, and the machine of all `web_search` calls that
share one `RunState`: answers come in any order, and a call merges its batches in one go
once all of its queries are settled.
-/

namespace GraphAgent

section Selection

/-- What `execute` raises: before its requests, for a request, and then as Python says. -/
inductive SearchError where
  | refused (message : String)
  | request (message : String)
  | runtimeError (message : String)
  | attributeError
  | keyError
  | typeError
  | valueError
  | cancelled

/-- `iter(value)`. -/
def iterate : Value → Except SearchError (List Value)
  | .arr items => .ok items
  | .obj fields => .ok (fields.map fun field => .str field.1)
  | .str s => .ok (s.toList.map fun c => .str (String.singleton c))
  | _ => .error .typeError

/-- `first, second = value`. -/
def unpackPair (value : Value) : Except SearchError (Value × Value) := do
  match ← iterate value with
  | [first, second] => return (first, second)
  | _ => throw .valueError

/-- The fields of a value whose `get` is called. -/
def fieldsOf : Value → Except SearchError Args
  | .obj fields => .ok fields
  | _ => .error .attributeError

/-- `value[:n]`; an object looks the slice up as a key. -/
def slice (n : Int) : Value → Except SearchError Value
  | .str s => .ok (.str (String.ofList (sliceTo s.toList n)))
  | .arr items => .ok (.arr (sliceTo items n))
  | .obj _ => .error .keyError
  | _ => .error .typeError

/-- `WebSearchTool` with what it reads of its configuration for the answers, and the
integers that floats are equal to. -/
structure WebSearch extends WebSearchTool where
  maxSnippetChars : Int
  integral : String → Option Int

/-- A normalized result. Its URL has been looked up in a set, so that it has got a key. -/
structure SearchItem (integral : String → Option Int) where
  title : Value
  url : Value
  snippet : Value
  key : HashKey
  hashable : url.hashKey? integral = some key

variable (py : Python) (tool : WebSearch)

/-- `WebSearchTool._no_results_message`. -/
def noResultsMessage (body : Args) : Except SearchError String := do
  let unresponsive := Realtime.orElse (body.get? "unresponsive_engines") (some (.arr []))
  if Realtime.truthy unresponsive = false then
    return "web_search: provider returned no results"
  let engines ← (← iterate (unresponsive.getD .null)).mapM unpackPair
  let detail := ", ".intercalate (engines.map fun (engine, reason) =>
    py.str engine ++ ": " ++ py.str reason)
  return "web_search: no results, engines unavailable (" ++ detail ++ ")"

namespace WebSearch

/-- The loop of `_search_searxng` over the results of an answer. -/
def normalize (maxResults : Int) (seenUrls : Finset HashKey)
    (normalized : List (SearchItem tool.integral)) :
    List Value → Except SearchError (List (SearchItem tool.integral))
  | [] => .ok normalized
  | result :: rest => do
      let fields ← fieldsOf result
      let url := (fields.get? "url").getD (.str "")
      match hashable : url.hashKey? tool.integral with
      | none => throw .typeError
      | some key =>
          if key ∈ seenUrls then
            normalize maxResults seenUrls normalized rest
          else
            let content := Realtime.orElse (fields.get? "content") (some (.str ""))
            let snippet ← slice tool.maxSnippetChars (content.getD .null)
            let title := (fields.get? "title").getD (.str "")
            let normalized := normalized ++ [⟨title, url, snippet, key, hashable⟩]
            if maxResults ≤ normalized.length then return normalized
            normalize maxResults (insert key seenUrls) normalized rest

/-- `WebSearchTool._search_searxng`. The answer is the JSON body of the last response,
or what the request fails with. -/
def searchSearxng (maxResults : Int) (answer : Except String Value) :
    Except SearchError (List (SearchItem tool.integral)) := do
  let body ← fieldsOf (← answer.mapError .request)
  let results := (body.get? "results").getD (.arr [])
  if Realtime.truthy (some results) = false then
    throw (.runtimeError (← noResultsMessage py body))
  tool.normalize maxResults ∅ [] (← iterate results)

variable {tool}

/-- A turn of the loop goes over a result with a key that it knows, or takes an item with
a new one. -/
theorem normalize_cons {maxResults : Int} {seenUrls : Finset HashKey}
    {normalized items : List (SearchItem tool.integral)} {result : Value} {rest : List Value}
    (h : tool.normalize maxResults seenUrls normalized (result :: rest) = .ok items) :
    tool.normalize maxResults seenUrls normalized rest = .ok items ∨
      ∃ item : SearchItem tool.integral, item.key ∉ seenUrls ∧
        (items = normalized ++ [item] ∨
          tool.normalize maxResults (insert item.key seenUrls) (normalized ++ [item]) rest =
            .ok items) := by
  rw [normalize] at h
  cases hfields : fieldsOf result with
  | error error =>
      rw [hfields] at h
      exact nomatch h
  | ok fields =>
      rw [hfields] at h
      dsimp only [bind, Except.bind] at h
      split at h
      case h_1 => exact nomatch h
      case h_2 key hashable =>
        split at h
        case isTrue => exact Or.inl h
        case isFalse hnew =>
          split at h
          case h_1 => exact nomatch h
          case h_2 snippet hsnippet =>
            refine Or.inr ⟨⟨(fields.get? "title").getD (.str ""), _, snippet, key, hashable⟩,
              hnew, ?_⟩
            split at h
            case isTrue => exact Or.inl (Except.ok.inj h).symm
            case isFalse => exact Or.inr h

theorem nodup_normalize {maxResults : Int} {seenUrls : Finset HashKey}
    {normalized items : List (SearchItem tool.integral)} {results : List Value}
    (h : tool.normalize maxResults seenUrls normalized results = .ok items)
    (hseen : ∀ item ∈ normalized, item.key ∈ seenUrls)
    (hnodup : (normalized.map SearchItem.key).Nodup) : (items.map SearchItem.key).Nodup := by
  induction results generalizing seenUrls normalized with
  | nil => exact Except.ok.inj h ▸ hnodup
  | cons result rest ih =>
      rcases normalize_cons h with hskip | ⟨item, hnew, htake⟩
      · exact ih hskip hseen hnodup
      · have hnext : ((normalized ++ [item]).map SearchItem.key).Nodup := by
          rw [List.map_append]
          refine List.nodup_append.mpr ⟨hnodup, List.nodup_singleton _, ?_⟩
          rintro key hkey key' hkey' rfl
          obtain ⟨other, hother, rfl⟩ := List.mem_map.mp hkey
          exact hnew (List.mem_singleton.mp hkey' ▸ hseen other hother)
        rcases htake with rfl | htake
        · exact hnext
        · refine ih htake (fun other hother => ?_) hnext
          rcases List.mem_append.mp hother with hold | hlast
          · exact Finset.mem_insert_of_mem (hseen other hold)
          · exact List.mem_singleton.mp hlast ▸ Finset.mem_insert_self _ _

/-- A selection has got every URL once, the empty one too. -/
theorem nodup_searchSearxng {maxResults : Int} {answer : Except String Value}
    {items : List (SearchItem tool.integral)}
    (h : tool.searchSearxng py maxResults answer = .ok items) :
    (items.map SearchItem.key).Nodup := by
  unfold searchSearxng at h
  cases hbody : answer.mapError SearchError.request >>= fieldsOf with
  | error error =>
      rw [← bind_assoc, hbody] at h
      exact nomatch h
  | ok body =>
      rw [← bind_assoc, hbody] at h
      dsimp only [bind, Except.bind] at h
      split at h
      case isTrue =>
        split at h
        · exact nomatch h
        · exact nomatch h
      case isFalse =>
        split at h
        case h_1 => exact nomatch h
        case h_2 results => exact nodup_normalize h nofun List.nodup_nil

end WebSearch

end Selection

section Merging

variable {integral : String → Option Int}

/-- What `WebSearchTool._search_batch` makes of its settled queries. -/
def searchBatch (settled : List (Except SearchError (List (SearchItem integral)))) :
    Except SearchError (List (List (SearchItem integral))) :=
  let batches := settled.filterMap Except.toOption
  let errors := settled.filterMap fun item =>
    match item with
    | .ok _ => none
    | .error error => some error
  match batches, errors with
  | [], error :: _ => .error error
  | _, _ => .ok batches

/-- The batches of a call: a single query is awaited by itself. -/
def batchesOf : List (Except SearchError (List (SearchItem integral))) →
    Except SearchError (List (List (SearchItem integral)))
  | [item] => item.map fun batch => [batch]
  | settled => searchBatch settled

/-- The variables of `WebSearchTool._merge`. -/
structure Merge (integral : String → Option Int) where
  seen : Finset HashKey
  merged : List (SearchItem integral)

/-- A turn of the inner loop of `_merge`. The error is what its early return leaves with. -/
def Merge.read (maxTotal : Int) (m : Merge integral) (item : SearchItem integral) :
    Except (Merge integral) (Merge integral) :=
  let url := Realtime.truthy (some item.url)
  if url = true ∧ item.key ∈ m.seen then .ok m
  else
    let seen := if url = true then insert item.key m.seen else m.seen
    let merged := m.merged ++ [item]
    if 0 < maxTotal ∧ maxTotal ≤ merged.length then .error ⟨seen, merged⟩ else .ok ⟨seen, merged⟩

/-- What the loops end with, by themselves or early. -/
def Merge.outcome : Except (Merge integral) (Merge integral) → Merge integral
  | .ok m => m
  | .error m => m

/-- The loops of `_merge`. -/
def mergeLoops (maxTotal : Int) (batches : List (List (SearchItem integral)))
    (m : Merge integral) : Merge integral :=
  Merge.outcome (batches.foldlM (fun m batch => batch.foldlM (Merge.read maxTotal) m) m)

/-- `WebSearchTool._remember`. -/
def remember (state : Option RunState) (seen : Finset HashKey) : Option RunState :=
  state.map fun state => { state with seenUrls := state.seenUrls ∪ seen }

/-- `WebSearchTool._merge`, with the state of the run that it leaves. -/
def merge (state : Option RunState) (maxTotal : Int)
    (batches : List (List (SearchItem integral))) :
    List (SearchItem integral) × Option RunState :=
  let seen := (state.map RunState.seenUrls).getD ∅
  let m := mergeLoops maxTotal batches ⟨seen, []⟩
  (m.merged, remember state m.seen)

end Merging

section Machine

/-- A call waits for the answers to its queries, or it has come to its end. -/
inductive Execution where
  | waiting (maxResults : Int) (answers : List (Option (Except String Value)))
  | returned
  | raised (error : SearchError)

/-- What a call has returned, and the answers it has got. -/
structure SearchReturn (integral : String → Option Int) where
  call : Nat
  maxResults : Int
  answers : List (Except String Value)
  items : List (SearchItem integral)

/-- The calls of a run, in the order in which they began, and what they have returned. -/
structure SearchCalls (integral : String → Option Int) where
  state : RunState
  calls : List Execution
  returns : List (SearchReturn integral)

/-- A call begins, gets the answer to one of its queries, comes to its end or is cancelled. -/
inductive SearchAct where
  | execute (args : Args)
  | answer (call query : Nat) (answer : Except String Value)
  | finish (call : Nat)
  | cancel (call : Nat)

/-- The calls of a run that has just begun. -/
def SearchCalls.fresh (integral : String → Option Int) : SearchCalls integral :=
  ⟨.fresh, [], []⟩

/-- A call for as long as it waits. -/
def Execution.waiting? : Execution → Option (Int × List (Option (Except String Value)))
  | .waiting maxResults answers => some (maxResults, answers)
  | _ => none

variable (py : Python) (tool : WebSearch)

/-- `WebSearchTool.execute` up to its requests. -/
def WebSearch.begin (args : Args) : Execution :=
  match tool.plan py args with
  | .ok (queries, maxResults) => .waiting maxResults (queries.map fun _ => none)
  | .error message => .raised (.refused message)

namespace SearchCalls

variable (s : SearchCalls tool.integral)

def endCall (call : Nat) (execution : Execution) : SearchCalls tool.integral :=
  { s with calls := s.calls.set call execution }

/-- The rest of `execute`, once every query has got its answer. -/
def finish (call : Nat) (maxResults : Int) (answers : List (Except String Value)) :
    SearchCalls tool.integral :=
  match batchesOf (answers.map (tool.searchSearxng py maxResults)) with
  | .error error => s.endCall tool call (.raised error)
  | .ok batches =>
      let result := merge (some s.state) (maxResults * answers.length) batches
      { s.endCall tool call .returned with
        state := result.2.getD s.state
        returns := s.returns ++ [⟨call, maxResults, answers, result.1⟩] }

def step : SearchAct → Option (SearchCalls tool.integral)
  | .execute args => some { s with calls := s.calls ++ [tool.begin py args] }
  | .answer call query answer => do
      let (maxResults, answers) ← s.calls[call]?.bind Execution.waiting?
      match answers[query]? with
      | some none =>
          return s.endCall tool call (.waiting maxResults (answers.set query (some answer)))
      | _ => none
  | .finish call => do
      let (maxResults, answers) ← s.calls[call]?.bind Execution.waiting?
      return s.finish py tool call maxResults (← answers.mapM id)
  | .cancel call => do
      let _ ← s.calls[call]?.bind Execution.waiting?
      return s.endCall tool call (.raised .cancelled)

end SearchCalls

def searchCalls : Transition.System (SearchCalls tool.integral) SearchAct where
  init s := s = .fresh tool.integral
  step s := s.step py tool

end Machine

section Purpose

variable {integral : String → Option Int}

/-- The URL of an item as the set of the run knows it, unless it is empty. -/
def SearchItem.address? (item : SearchItem integral) : Option HashKey :=
  if Realtime.truthy (some item.url) = true then some item.key else none

/-- The non-empty URLs of some items. -/
def addresses (items : List (SearchItem integral)) : List HashKey :=
  Distinct.keys SearchItem.address? items

/-- The total cap of a call is reached. -/
def CapReached (maxTotal : Int) (count : Nat) : Prop := 0 < maxTotal ∧ maxTotal ≤ count

/-- Everything that the calls of a run have returned. -/
def SearchCalls.items (s : SearchCalls integral) : List (SearchItem integral) :=
  s.returns.flatMap SearchReturn.items

variable (py : Python) (tool : WebSearch)

/-- The results that the selections from the answers of a call have left, query by query. -/
def SearchReturn.survivors (ret : SearchReturn tool.integral) : List (SearchItem tool.integral) :=
  (ret.answers.filterMap fun answer =>
    (tool.searchSearxng py ret.maxResults answer).toOption).flatten

/-- A call returns what has survived, in its order. It leaves a result out only if its URL
has been returned before, by an earlier call or by itself, or if the cap is reached. -/
structure SearchReturn.Faithful (earlier : List (SearchItem tool.integral))
    (ret : SearchReturn tool.integral) : Prop where
  order : ret.items.Sublist (ret.survivors py tool)
  lossless : ∃ marked : List (SearchItem tool.integral × Bool),
    marked.map Prod.fst = ret.survivors py tool ∧ Distinct.taken marked = ret.items ∧
      ∀ before item after, marked = before ++ (item, false) :: after →
        (∃ key, item.address? = some key ∧
          key ∈ addresses (earlier ++ Distinct.taken before)) ∨
        CapReached (ret.maxResults * ret.answers.length) (Distinct.taken before).length

/-- No URL is returned twice, the set of the run holds what has been returned, and nothing
else is lost. -/
structure SearchCalls.SharesUrls (s : SearchCalls tool.integral) : Prop where
  distinct : (addresses s.items).Nodup
  seen : ∀ key, key ∈ s.state.seenUrls ↔ key ∈ addresses s.items
  faithful : ∀ before ret after, s.returns = before ++ ret :: after →
    ret.Faithful py tool (before.flatMap SearchReturn.items)

end Purpose

section Loops

variable {integral : String → Option Int} {seen : Finset HashKey} {maxTotal : Int}
variable {m : Merge integral} {marked : List (SearchItem integral × Bool)}

/-- The variables of `_merge` after the marked items. -/
structure Merge.Follows (seen : Finset HashKey) (maxTotal : Int)
    (marked : List (SearchItem integral × Bool)) (m : Merge integral) : Prop where
  account : Distinct.Account SearchItem.address? (CapReached maxTotal) {key | key ∈ seen} marked
  merged : m.merged = Distinct.taken marked
  seen : ∀ key, key ∈ m.seen ↔ key ∈ seen ∨ key ∈ addresses m.merged

theorem Merge.follows_nil (seen : Finset HashKey) (maxTotal : Int) :
    Merge.Follows seen maxTotal [] (⟨seen, []⟩ : Merge integral) :=
  ⟨.nil, rfl, fun _ => ⟨Or.inl, fun h => h.resolve_right nofun⟩⟩

theorem mem_addresses_append {items items' : List (SearchItem integral)} {key : HashKey} :
    key ∈ addresses (items ++ items') ↔ key ∈ addresses items ∨ key ∈ addresses items' := by
  unfold addresses
  rw [Distinct.keys_append, List.mem_append]

theorem mem_addresses_singleton {item : SearchItem integral} {key : HashKey} :
    key ∈ addresses [item] ↔ item.address? = some key := by
  unfold addresses
  rw [Distinct.mem_keys]
  simp

theorem SearchItem.address?_eq_some {item : SearchItem integral} {key : HashKey} :
    item.address? = some key ↔ Realtime.truthy (some item.url) = true ∧ item.key = key := by
  unfold SearchItem.address?
  split
  case isTrue h => simp [h]
  case isFalse h => simp [h]

/-- A turn leaves out an item whose URL has been seen. -/
theorem Merge.Follows.skip (h : m.Follows seen maxTotal marked) {item : SearchItem integral}
    (hseen : Realtime.truthy (some item.url) = true ∧ item.key ∈ m.seen) :
    m.Follows seen maxTotal (marked ++ [(item, false)]) where
  account := by
    refine .skip h.account (Or.inl ⟨item.key, ?_, ?_⟩)
    · exact SearchItem.address?_eq_some.mpr ⟨hseen.1, rfl⟩
    · exact h.merged ▸ (h.seen item.key).mp hseen.2
  merged := by
    rw [Distinct.taken_append, Distinct.taken_false, List.append_nil]
    exact h.merged
  seen := h.seen

/-- A turn takes any other item. -/
theorem Merge.Follows.take (h : m.Follows seen maxTotal marked) {item : SearchItem integral}
    (hnew : ¬ (Realtime.truthy (some item.url) = true ∧ item.key ∈ m.seen)) :
    Merge.Follows seen maxTotal (marked ++ [(item, true)])
      ⟨if Realtime.truthy (some item.url) = true then insert item.key m.seen else m.seen,
        m.merged ++ [item]⟩ where
  account := by
    refine .take h.account fun key hkey => ?_
    obtain ⟨hurl, rfl⟩ := SearchItem.address?_eq_some.mp hkey
    rw [← not_or]
    intro hold
    exact hnew ⟨hurl, (h.seen item.key).mpr (h.merged ▸ hold)⟩
  merged := by
    rw [Distinct.taken_append, Distinct.taken_true]
    exact congrArg (· ++ [item]) h.merged
  seen key := by
    rw [mem_addresses_append, mem_addresses_singleton, SearchItem.address?_eq_some, ← or_assoc,
      ← h.seen key]
    split
    case isTrue hurl => simp [hurl, or_comm, eq_comm]
    case isFalse hurl => simp [hurl]

/-- The inner loop marks the items that it comes to, and the rest once the cap is reached. -/
theorem Merge.Follows.loop (h : m.Follows seen maxTotal marked)
    (items : List (SearchItem integral)) :
    ∃ marks, marks.map Prod.fst = items ∧
      (Merge.outcome (items.foldlM (Merge.read maxTotal) m)).Follows seen maxTotal
        (marked ++ marks) := by
  induction items generalizing m marked with
  | nil => exact ⟨[], rfl, (List.append_nil marked).symm ▸ h⟩
  | cons item rest ih =>
      rw [List.foldlM_cons]
      unfold Merge.read
      by_cases hseen : Realtime.truthy (some item.url) = true ∧ item.key ∈ m.seen
      · obtain ⟨marks, rfl, hmarks⟩ := ih (h.skip hseen)
        refine ⟨(item, false) :: marks, rfl, ?_⟩
        rw [← List.append_cons] at hmarks
        simp only [if_pos hseen]
        exact hmarks
      · have htake := h.take hseen
        simp only [if_neg hseen]
        split
        case isTrue hcap =>
          refine ⟨(item, true) :: rest.map fun item => (item, false),
            congrArg (item :: ·) (Distinct.fst_map_false rest), ?_⟩
          rw [List.append_cons]
          refine ⟨htake.account.rest ?_ rest, ?_, htake.seen⟩
          · rw [← htake.merged]
            exact hcap
          · rw [Distinct.taken_append, Distinct.taken_map_false, List.append_nil]
            exact htake.merged
        case isFalse =>
          obtain ⟨marks, rfl, hmarks⟩ := ih htake
          refine ⟨(item, true) :: marks, rfl, ?_⟩
          rw [← List.append_cons] at hmarks
          exact hmarks

/-- The two loops go over all items one after the other. -/
theorem foldlM_flatten (batches : List (List (SearchItem integral))) (m : Merge integral) :
    batches.foldlM (fun m batch => batch.foldlM (Merge.read maxTotal) m) m =
      batches.flatten.foldlM (Merge.read maxTotal) m := by
  induction batches generalizing m with
  | nil => rfl
  | cons batch rest ih =>
      rw [List.foldlM_cons, List.flatten_cons, List.foldlM_append]
      exact bind_congr fun m => ih m

/-- What a call returns, and the set that it leaves in the state of the run. -/
theorem merge_spec (state : RunState) (maxTotal : Int)
    (batches : List (List (SearchItem integral))) :
    ∃ items state' marked, merge (some state) maxTotal batches = (items, some state') ∧
      Distinct.Account SearchItem.address? (CapReached maxTotal) {key | key ∈ state.seenUrls}
        marked ∧
      marked.map Prod.fst = batches.flatten ∧ Distinct.taken marked = items ∧
      ∀ key, key ∈ state'.seenUrls ↔ key ∈ state.seenUrls ∨ key ∈ addresses items := by
  obtain ⟨marked, hmarked, hloop⟩ :=
    (Merge.follows_nil state.seenUrls maxTotal).loop batches.flatten
  rw [← foldlM_flatten, List.nil_append] at hloop
  refine ⟨_, _, marked, rfl, hloop.account, hmarked, hloop.merged.symm, fun key => ?_⟩
  rw [Finset.mem_union]
  refine ⟨fun h => h.elim Or.inl (hloop.seen key).mp, fun h => Or.inr ((hloop.seen key).mpr h)⟩

/-- A call that does not fail goes on with the batches of the queries that have not. -/
theorem batchesOf_eq {settled : List (Except SearchError (List (SearchItem integral)))}
    {batches : List (List (SearchItem integral))} (h : batchesOf settled = .ok batches) :
    batches = settled.filterMap Except.toOption := by
  unfold batchesOf at h
  split at h
  case h_1 item =>
    cases item with
    | error error => exact nomatch h
    | ok batch => exact (Except.ok.inj h).symm
  case h_2 =>
    unfold searchBatch at h
    dsimp only at h
    split at h
    · exact nomatch h
    · exact (Except.ok.inj h).symm

end Loops

section Invariant

variable {py : Python} {tool : WebSearch} {s t : SearchCalls tool.integral}

/-- An act that ends or begins calls without returning keeps what has been returned. -/
theorem SearchCalls.SharesUrls.of_eq (h : s.SharesUrls py tool) (hstate : t.state = s.state)
    (hreturns : t.returns = s.returns) : t.SharesUrls py tool := by
  have hitems : t.items = s.items := congrArg (List.flatMap SearchReturn.items) hreturns
  exact ⟨hitems ▸ h.distinct, hstate ▸ hitems ▸ h.seen, hreturns ▸ h.faithful⟩

theorem SearchCalls.sharesUrls_fresh : (SearchCalls.fresh tool.integral).SharesUrls py tool where
  distinct := List.nodup_nil
  seen _ := ⟨nofun, nofun⟩
  faithful before _ _ hreturns := absurd hreturns (by simp [SearchCalls.fresh])

theorem SearchCalls.SharesUrls.finish (h : s.SharesUrls py tool) (call : Nat) (maxResults : Int)
    (answers : List (Except String Value)) :
    (s.finish py tool call maxResults answers).SharesUrls py tool := by
  unfold SearchCalls.finish
  split
  case h_1 => exact h.of_eq rfl rfl
  case h_2 batches hbatches =>
    obtain ⟨items, state, marked, hmerge, haccount, hmarked, htaken, hseen⟩ :=
      merge_spec s.state (maxResults * answers.length) batches
    rw [hmerge]
    have hitems : (s.returns ++ [⟨call, maxResults, answers, items⟩] :
        List (SearchReturn tool.integral)).flatMap SearchReturn.items = s.items ++ items := by
      rw [List.flatMap_append]
      exact congrArg (s.items ++ ·) (List.append_nil items)
    have hsurvivors : batches.flatten =
        SearchReturn.survivors py tool ⟨call, maxResults, answers, items⟩ := by
      rw [batchesOf_eq hbatches, List.filterMap_map]
      rfl
    constructor
    case distinct =>
      have hnew := haccount.nodup
      have hunseen := haccount.unseen
      rw [htaken] at hnew hunseen
      unfold SearchCalls.items addresses
      rw [hitems, Distinct.keys_append]
      refine List.nodup_append.mpr ⟨h.distinct, hnew, fun key hkey key' hkey' heq => ?_⟩
      exact hunseen key' hkey' ((h.seen key').mpr (heq ▸ hkey))
    case seen =>
      intro key
      unfold SearchCalls.items
      rw [hitems, mem_addresses_append, ← h.seen key]
      exact hseen key
    case faithful =>
      intro before ret after hreturns
      rcases Distinct.concat_eq_append_cons hreturns with ⟨rfl, rfl⟩ | ⟨after, hbefore⟩
      · refine ⟨?_, marked, hmarked.trans hsurvivors, htaken, fun before item after hcut => ?_⟩
        · rw [← hsurvivors, ← hmarked, ← htaken]
          exact Distinct.taken_sublist marked
        · refine (haccount.reason hcut).imp_left ?_
          rintro ⟨key, hkey, hold⟩
          refine ⟨key, hkey, mem_addresses_append.mpr (hold.imp_left (h.seen key).mp)⟩
      · exact h.faithful before ret after hbefore

theorem SearchCalls.SharesUrls.step (h : s.SharesUrls py tool) {act : SearchAct}
    (hstep : s.step py tool act = some t) : t.SharesUrls py tool := by
  cases act with
  | execute args =>
      obtain rfl := Option.some.inj hstep
      exact h.of_eq rfl rfl
  | answer call query answer =>
      obtain ⟨⟨maxResults, answers⟩, -, hstep⟩ := Option.bind_eq_some_iff.mp hstep
      dsimp only at hstep
      split at hstep
      · obtain rfl := Option.some.inj hstep
        exact h.of_eq rfl rfl
      · exact nomatch hstep
  | finish call =>
      obtain ⟨⟨maxResults, answers⟩, -, hstep⟩ := Option.bind_eq_some_iff.mp hstep
      obtain ⟨answers, -, hstep⟩ := Option.bind_eq_some_iff.mp hstep
      obtain rfl := Option.some.inj hstep
      exact h.finish call maxResults answers
  | cancel call =>
      obtain ⟨_, -, hstep⟩ := Option.bind_eq_some_iff.mp hstep
      obtain rfl := Option.some.inj hstep
      exact h.of_eq rfl rfl

/-- However the calls of a run are interleaved and whatever the provider answers, they share
the URLs among themselves. -/
theorem sharesUrls_of_reachable (py : Python) (tool : WebSearch) {s : SearchCalls tool.integral}
    (h : (searchCalls py tool).Reachable s) : s.SharesUrls py tool := by
  apply h.invariant
  · rintro s rfl
    exact SearchCalls.sharesUrls_fresh
  · intro s act t hs _ hstep
    exact hs.step hstep

end Invariant

section Run

/-- A tool of which a call may send two queries; every float has a fraction. -/
def sampleResults : WebSearch where
  toWebSearchTool := sampleSearch 2
  maxSnippetChars := 10
  integral _ := none

/-- An answer with results at the given URLs. -/
def resultsAt (urls : List String) : Except String Value :=
  .ok (.obj [("results", .arr (urls.map fun url => .obj [("url", .str url)]))])

/-- Two calls are under way at once. One of them gets a URL twice and a URL that the other
has returned, and both get results without a URL. -/
theorem sharesUrls_overlapping : ∃ s,
    (searchCalls defaultGraph.py sampleResults).Reachable s ∧
      s.returns.map (fun ret => (ret.call, ret.items.map SearchItem.key)) =
        [(1, [.str "u", .str ""]), (0, [.str "v", .str "w", .str ""])] ∧
      s.SharesUrls defaultGraph.py sampleResults := by
  have hreach : (searchCalls defaultGraph.py sampleResults).Reachable _ :=
    Transition.System.reachable_of_exec (s := SearchCalls.fresh sampleResults.integral)
      [.execute [("query", .str "a"), ("queries", .arr [.str "b"])],
        .execute [("query", .str "c")],
        .answer 0 1 (resultsAt ["v", "w", ""]), .answer 1 0 (resultsAt ["u", ""]), .finish 1,
        .answer 0 0 (resultsAt ["u", "v"]), .finish 0] rfl rfl
  exact ⟨_, hreach, by decide +kernel, sharesUrls_of_reachable _ _ hreach⟩

end Run

end GraphAgent
