import GraphAgent.Library.Distinct
import GraphAgent.Tools.Similarity

/-!
# Calls that pass the policies at the same time

`ToolPolicyRegistry.apply` for the calls of a run, one policy of one call at a time: a policy
decides under the lock of the run's state, and the lock is free between two policies. What
the deduplication and the budget guarantee whatever the order is.
-/

namespace GraphAgent

section Registry

/-- A call on its way through the registry, with its arguments so far: the listed policies
are still before it, or one has blocked it. -/
inductive Progress where
  | passing (call : ToolCallInfo) (policies : List ToolPolicy)
  | blocked (call : ToolCallInfo) (policy : ToolPolicy) (result : String)

namespace Progress

def call : Progress → ToolCallInfo
  | passing call _ => call
  | blocked call _ _ => call

/-- The verdict of the registry, once there is one. -/
def decision? : Progress → Option PolicyDecision
  | passing call [] => some { args := call.args }
  | passing _ (_ :: _) => none
  | blocked call _ result => some { args := call.args, result := some result }

variable (py : Python)

/-- One turn of the loop of `ToolPolicyRegistry.apply`. -/
def advance (state : RunState) : Progress → Option (Progress × RunState)
  | passing call (policy :: rest) =>
      if policy.appliesTo call.name then
        let (decision, state) := policy.apply py call state
        let call := { call with args := decision.args }
        match decision.result with
        | some result => some (blocked call policy result, state)
        | none => some (passing call rest, state)
      else some (passing call rest, state)
  | _ => none

end Progress

/-- What the deduplication has made of a call: the arguments that it got, what was recorded
before, and the queries that it has kept. -/
structure Screening where
  index : Nat
  args : Args
  seen : List String
  kept : List String

variable (py : Python)

/-- The queries that `SearchDedupPolicy.apply` keeps of a call. -/
def Progress.screening? (index : Nat) (state : RunState) : Progress → Option Screening
  | .passing call (.searchDedup similarity :: _) =>
      if call.name = "web_search" then
        some ⟨index, call.args, state.searchQueries,
          ((argQueries py call.args).foldl (DedupScan.read py similarity)
            ⟨[], [], state.searchQueries⟩).kept⟩
      else none
  | _ => none

/-- The calls of a run with the state that they share, and what the deduplication has done. -/
structure PolicyRun where
  state : RunState
  calls : List Progress
  screenings : List Screening

/-- The call with the given number takes its next turn. -/
def PolicyRun.step (s : PolicyRun) (index : Nat) : Option PolicyRun :=
  s.calls[index]?.bind fun progress =>
    (progress.advance py s.state).map fun out =>
      ⟨out.2, s.calls.set index out.1,
        s.screenings ++ (progress.screening? py index s.state).toList⟩

/-- The calls all begin with the first policy, in a run that has just begun. -/
def policySystem (policies : List ToolPolicy) (calls : List ToolCallInfo) :
    Transition.System PolicyRun Nat where
  init s := s = ⟨.fresh, calls.map fun call => .passing call policies, []⟩
  step := PolicyRun.step py

end Registry

section Turns

variable {py : Python}

/-- What one turn of a call does to it and to the state of the run. -/
inductive PolicyTurn (py : Python) (state : RunState) : Progress → Progress → RunState → Prop
  | other {call policy rest} (hname : call.name ≠ "web_search") :
      PolicyTurn py state (.passing call (policy :: rest)) (.passing call rest) state
  | noQueries {call similarity rest} (hname : call.name = "web_search")
      (hqueries : argQueries py call.args = []) :
      PolicyTurn py state (.passing call (.searchDedup similarity :: rest)) (.passing call rest) state
  | keeps {call similarity rest kept} (hname : call.name = "web_search")
      (hkept : keptQueries py similarity state.searchQueries (argQueries py call.args) = kept)
      (hsome : kept ≠ []) :
      PolicyTurn py state (.passing call (.searchDedup similarity :: rest))
        (.passing { call with args := withKeptQueries call.args kept } rest)
        { state with searchQueries := state.searchQueries ++ kept.map (normalizeQuery py) }
  | repeats {call similarity rest result} (hname : call.name = "web_search")
      (hkept : keptQueries py similarity state.searchQueries (argQueries py call.args) = []) :
      PolicyTurn py state (.passing call (.searchDedup similarity :: rest))
        (.blocked call (.searchDedup similarity) result) state
  | charges {call maxCalls rest} (hname : call.name = "web_search")
      (hleft : 0 < maxCalls → (state.counts "web_search" : Int) < maxCalls) :
      PolicyTurn py state (.passing call (.searchBudget maxCalls :: rest)) (.passing call rest)
        { state with
          counts := Function.update state.counts "web_search" (state.counts "web_search" + 1) }
  | spent {call maxCalls rest result} (hname : call.name = "web_search")
      (hspent : maxCalls ≤ (state.counts "web_search" : Int)) :
      PolicyTurn py state (.passing call (.searchBudget maxCalls :: rest))
        (.blocked call (.searchBudget maxCalls) result) state

/-- The deduplication finds no queries, keeps some, or blocks and changes nothing. -/
theorem searchDedupPolicy_cases (similarity : ℚ) (call : ToolCallInfo) (state : RunState) :
    let kept := keptQueries py similarity state.searchQueries (argQueries py call.args)
    argQueries py call.args = [] ∧
        searchDedupPolicy py similarity call state = ({ args := call.args }, state) ∨
      kept ≠ [] ∧ searchDedupPolicy py similarity call state =
        ({ args := withKeptQueries call.args kept },
          { state with searchQueries := state.searchQueries ++ kept.map (normalizeQuery py) }) ∨
      kept = [] ∧ ∃ result, searchDedupPolicy py similarity call state =
        ({ args := call.args, result := some result }, state) := by
  intro kept
  obtain ⟨hkept, hrecorded⟩ := foldl_read_eq py similarity (argQueries py call.args)
    ⟨[], [], state.searchQueries⟩
  rw [List.nil_append] at hkept
  unfold searchDedupPolicy
  split
  case h_1 hqueries => exact Or.inl ⟨hqueries, rfl⟩
  case h_2 hqueries =>
    refine Or.inr ?_
    dsimp only
    rw [hkept, hrecorded]
    by_cases hnone : kept = []
    · have hsame : state.searchQueries ++ (keptQueries py similarity state.searchQueries
          (argQueries py call.args)).map (normalizeQuery py) = state.searchQueries := by
        change state.searchQueries ++ kept.map (normalizeQuery py) = _
        rw [hnone, List.map_nil, List.append_nil]
      rw [if_pos (List.isEmpty_iff.mpr hnone), hsame]
      exact Or.inr ⟨hnone, _, rfl⟩
    · rw [if_neg (by simpa using hnone)]
      exact Or.inl ⟨hnone, rfl⟩

/-- Every turn is one of these. -/
theorem turn_of_advance {state state' : RunState} {before after : Progress}
    (h : before.advance py state = some (after, state')) : PolicyTurn py state before after state' := by
  rcases before with ⟨call, _ | ⟨policy, rest⟩⟩ | ⟨call, policy, result⟩
  · cases h
  · by_cases hname : call.name = "web_search"
    case neg =>
      simp only [Progress.advance, appliesTo_eq, hname, decide_false] at h
      cases h
      exact .other hname
    case pos =>
      obtain ⟨name, args⟩ := call
      obtain rfl : name = "web_search" := hname
      simp only [Progress.advance, appliesTo_eq, decide_true, if_true] at h
      cases policy with
      | searchDedup similarity =>
          have hcases := @searchDedupPolicy_cases py similarity ⟨"web_search", args⟩ state
          rcases hcases with ⟨hqueries, hout⟩ | ⟨hsome, hout⟩ | ⟨hnone, result, hout⟩
          all_goals
            simp only [ToolPolicy.apply, hout] at h
            cases h
          · exact .noQueries rfl hqueries
          · exact .keeps rfl rfl hsome
          · exact .repeats rfl hnone
      | searchBudget maxCalls =>
          simp only [ToolPolicy.apply, searchBudgetPolicy] at h
          by_cases hspent : 0 < maxCalls ∧ maxCalls ≤ (state.counts "web_search" : Int)
          · rw [if_pos hspent] at h
            cases h
            exact .spent rfl hspent.2
          · rw [if_neg hspent] at h
            cases h
            exact .charges rfl fun hmax => not_le.mp fun hle => hspent ⟨hmax, hle⟩
  · cases h

/-- A step is a turn of one call. -/
theorem exists_turn {s t : PolicyRun} {index : Nat} (h : s.step py index = some t) :
    ∃ before after, s.calls[index]? = some before ∧ PolicyTurn py s.state before after t.state ∧
      t.calls = s.calls.set index after ∧
      t.screenings = s.screenings ++ (before.screening? py index s.state).toList := by
  obtain ⟨before, hget, hadvance⟩ := Option.bind_eq_some_iff.mp h
  obtain ⟨⟨after, state⟩, hout, rfl⟩ := Option.map_eq_some_iff.mp hadvance
  exact ⟨before, after, hget, turn_of_advance hout, rfl, rfl⟩

end Turns

section Alone

variable {py : Python} {policies : List ToolPolicy} {calls : List ToolCallInfo}

theorem isError_apply (policy : ToolPolicy) (call : ToolCallInfo) (state : RunState) :
    (policy.apply py call state).1.isError = false := by
  cases policy with
  | searchDedup similarity =>
      rcases @searchDedupPolicy_cases py similarity call state with
        ⟨-, hout⟩ | ⟨-, hout⟩ | ⟨-, result, hout⟩ <;> simp only [ToolPolicy.apply, hout]
  | searchBudget maxCalls =>
      simp only [ToolPolicy.apply, searchBudgetPolicy]
      split <;> rfl

/-- A turn, and then further turns of the same call. -/
theorem exec_of_advance {s : PolicyRun} {index : Nat} {before after : Progress} {state : RunState}
    (hget : s.calls[index]? = some before)
    (hadvance : before.advance py s.state = some (after, state)) :
    ∃ t, t.state = state ∧ t.calls[index]? = some after ∧
      ∀ turns, (policySystem py policies calls).exec s (List.replicate (turns + 1) index) =
        (policySystem py policies calls).exec t (List.replicate turns index) := by
  have hlength : index < s.calls.length := (List.getElem?_eq_some_iff.mp hget).1
  let t : PolicyRun :=
    ⟨state, s.calls.set index after, s.screenings ++ (before.screening? py index s.state).toList⟩
  have hstep : (policySystem py policies calls).step s index = some t := by
    change s.step py index = some t
    rw [PolicyRun.step, hget, Option.bind_some, hadvance]
    rfl
  refine ⟨t, rfl, List.getElem?_set_self hlength, fun turns => ?_⟩
  rw [List.replicate_succ, Transition.System.exec_cons hstep]

/-- A call whose turns are taken one after the other gets the decision of the registry. -/
theorem exec_alone {s : PolicyRun} {index : Nat} {before : List ToolPolicy} {call : ToolCallInfo}
    (hget : s.calls[index]? = some (.passing call before)) :
    ∃ turns t, (policySystem py policies calls).exec s (List.replicate turns index) = some t ∧
      t.state = (applyPolicies py before call s.state).2 ∧
      t.calls[index]?.bind Progress.decision? = some (applyPolicies py before call s.state).1 := by
  induction before generalizing s call with
  | nil => exact ⟨0, s, rfl, rfl, by rw [hget]; rfl⟩
  | cons policy rest ih =>
      by_cases hname : call.name = "web_search"
      case neg =>
        have hadvance : (Progress.passing call (policy :: rest)).advance py s.state =
            some (.passing call rest, s.state) := by
          simp [Progress.advance, appliesTo_eq, hname]
        obtain ⟨t, hstate, hafter, hturns⟩ :=
          @exec_of_advance _ policies calls _ _ _ _ _ hget hadvance
        obtain ⟨turns, u, hexec, hlast⟩ := ih hafter
        refine ⟨turns + 1, u, (hturns turns).trans hexec, ?_⟩
        rw [hstate] at hlast
        simpa [applyPolicies, appliesTo_eq, hname] using hlast
      case pos =>
        rw [applyPolicies_cons py policy rest hname]
        cases hresult : (policy.apply py call s.state).1.result with
        | some result =>
            have hadvance : (Progress.passing call (policy :: rest)).advance py s.state =
                some (.blocked { call with args := (policy.apply py call s.state).1.args } policy
                  result, (policy.apply py call s.state).2) := by
              simp [Progress.advance, appliesTo_eq, hname, hresult]
            obtain ⟨t, hstate, hafter, hturns⟩ :=
              @exec_of_advance _ policies calls _ _ _ _ _ hget hadvance
            refine ⟨1, t, hturns 0, hstate, ?_⟩
            rw [hafter, Option.isSome_some, if_pos rfl]
            have hdecision := @isError_apply py policy call s.state
            rcases hout : (policy.apply py call s.state).1 with ⟨args, out, isError⟩
            rw [hout] at hresult hdecision
            obtain rfl : out = some result := hresult
            obtain rfl : isError = false := hdecision
            rfl
        | none =>
            have hadvance : (Progress.passing call (policy :: rest)).advance py s.state =
                some (.passing { call with args := (policy.apply py call s.state).1.args } rest,
                  (policy.apply py call s.state).2) := by
              simp [Progress.advance, appliesTo_eq, hname, hresult]
            obtain ⟨t, hstate, hafter, hturns⟩ :=
              @exec_of_advance _ policies calls _ _ _ _ _ hget hadvance
            obtain ⟨turns, u, hexec, hlast⟩ := ih hafter
            refine ⟨turns + 1, u, (hturns turns).trans hexec, ?_⟩
            rw [Option.isSome_none, if_neg (by decide), ← hstate]
            exact hlast

end Alone

section Budget

namespace Progress

/-- The registry has let the search through. -/
def letThrough : Progress → Bool
  | passing call [] => call.name = "web_search"
  | _ => false

/-- A search that the deduplication has not blocked. -/
def notDeduplicated : Progress → Bool
  | blocked _ (.searchDedup _) _ => false
  | progress => progress.call.name = "web_search"

/-- The registry has decided. -/
def finished (progress : Progress) : Bool := progress.decision?.isSome

def isBlocked : Progress → Bool
  | passing _ _ => false
  | blocked _ _ _ => true

end Progress

variable {py : Python} {similarity : ℚ} {maxCalls : Int}

/-- Where a call can be when the deduplication comes before the budget, of which `used` is
spent. -/
inductive Stage (similarity : ℚ) (maxCalls : Int) (used : Nat) : Progress → Prop
  | waiting (call) : Stage similarity maxCalls used
      (.passing call [.searchDedup similarity, .searchBudget maxCalls])
  | screened (call) : Stage similarity maxCalls used (.passing call [.searchBudget maxCalls])
  | through (call) : Stage similarity maxCalls used (.passing call [])
  | repeated (call result) (hname : call.name = "web_search") :
      Stage similarity maxCalls used (.blocked call (.searchDedup similarity) result)
  | spent (call result) (hname : call.name = "web_search") (h : maxCalls ≤ used) :
      Stage similarity maxCalls used (.blocked call (.searchBudget maxCalls) result)

theorem Stage.mono {used later : Nat} {progress : Progress} (hle : used ≤ later)
    (h : Stage similarity maxCalls used progress) : Stage similarity maxCalls later progress := by
  cases h with
  | waiting call => exact .waiting call
  | screened call => exact .screened call
  | through call => exact .through call
  | repeated call result hname => exact .repeated call result hname
  | spent call result hname h => exact .spent call result hname (by omega)

/-- A turn spends a unit of the budget exactly if it lets a search through. -/
theorem Stage.turn {state state' : RunState} {before after : Progress} (hmax : 0 < maxCalls)
    (h : Stage similarity maxCalls (state.counts "web_search") before)
    (hturn : PolicyTurn py state before after state')
    (hbounded : (state.counts "web_search" : Int) ≤ maxCalls) :
    Stage similarity maxCalls (state'.counts "web_search") after ∧
      (state'.counts "web_search" : Int) ≤ maxCalls ∧
      state'.counts "web_search" + before.letThrough.toNat =
        state.counts "web_search" + after.letThrough.toNat := by
  cases hturn with
  | other hname =>
      cases h with
      | waiting call => exact ⟨.screened _, hbounded, rfl⟩
      | screened call => exact ⟨.through _, hbounded, by simp [Progress.letThrough, hname]⟩
  | noQueries hname hqueries =>
      cases h with
      | waiting call => exact ⟨.screened _, hbounded, rfl⟩
  | keeps hname hkept hsome =>
      cases h with
      | waiting call => exact ⟨.screened _, hbounded, rfl⟩
  | repeats hname hkept =>
      cases h with
      | waiting call => exact ⟨.repeated _ _ hname, hbounded, rfl⟩
  | charges hname hleft =>
      cases h with
      | screened call =>
          have hbelow := hleft hmax
          simp only [Function.update_self]
          exact ⟨.through _, by omega, by simp [Progress.letThrough, hname]⟩
  | spent hname hspent =>
      cases h with
      | screened call => exact ⟨.spent _ _ hname hspent, hbounded, rfl⟩

theorem PolicyTurn.counts_le {state state' : RunState} {before after : Progress}
    (h : PolicyTurn py state before after state') :
    state.counts "web_search" ≤ state'.counts "web_search" := by
  cases h with
  | charges hname hleft =>
      simp only [Function.update_self]
      exact Nat.le_succ _
  | _ => exact Nat.le_refl _

/-- What the budget guarantees in every state that the calls of a run come to. -/
structure Budgeted (similarity : ℚ) (maxCalls : Int) (s : PolicyRun) : Prop where
  stages : ∀ progress ∈ s.calls, Stage similarity maxCalls (s.state.counts "web_search") progress
  bounded : (s.state.counts "web_search" : Int) ≤ maxCalls
  counted : s.state.counts "web_search" = s.calls.countP Progress.letThrough

theorem countP_set_add {α : Type} (p : α → Bool) {items : List α} {index : Nat} {old : α}
    (hget : items[index]? = some old) (new : α) :
    (items.set index new).countP p + (p old).toNat = items.countP p + (p new).toNat := by
  obtain ⟨hlength, rfl⟩ := List.getElem?_eq_some_iff.mp hget
  have hpos : p items[index] = true → 0 < items.countP p := fun h =>
    List.countP_pos_iff.mpr ⟨_, List.getElem_mem hlength, h⟩
  rw [List.countP_set hlength]
  cases hold : p items[index] <;> cases p new <;> simp_all

theorem Budgeted.step {s t : PolicyRun} {index : Nat} (hmax : 0 < maxCalls)
    (h : Budgeted similarity maxCalls s) (hstep : s.step py index = some t) :
    Budgeted similarity maxCalls t := by
  obtain ⟨before, after, hget, hturn, hcalls, -⟩ := exists_turn hstep
  obtain ⟨hstage, hbounded, hcharged⟩ :=
    (h.stages before (List.mem_of_getElem? hget)).turn hmax hturn h.bounded
  have hcount := countP_set_add Progress.letThrough hget after
  have hcounted := h.counted
  rw [← hcalls] at hcount
  refine ⟨fun progress hmem => ?_, hbounded, by omega⟩
  rw [hcalls] at hmem
  rcases List.mem_or_eq_of_mem_set hmem with hold | rfl
  · exact (h.stages progress hold).mono hturn.counts_le
  · exact hstage

theorem budgeted_of_reachable (hmax : 0 < maxCalls) {calls : List ToolCallInfo} {s : PolicyRun}
    (h : (policySystem py [.searchDedup similarity, .searchBudget maxCalls] calls).Reachable s) :
    Budgeted similarity maxCalls s := by
  refine h.invariant ?_ fun s index t hs _ hstep => hs.step hmax hstep
  rintro s rfl
  have hnone : ∀ call : ToolCallInfo, Progress.letThrough
      (.passing call [.searchDedup similarity, .searchBudget maxCalls]) = false := fun _ => rfl
  refine ⟨fun progress hmem => ?_, hmax.le, ?_⟩
  · obtain ⟨call, -, rfl⟩ := List.mem_map.mp hmem
    exact .waiting call
  · simp [List.countP_map, Function.comp_def, hnone, RunState.fresh]

/-- When all calls are decided, the searches that the deduplication has not blocked have been
let through, or the budget is spent. -/
theorem Budgeted.countP_eq_min {s : PolicyRun} (h : Budgeted similarity maxCalls s)
    (hfinished : ∀ progress ∈ s.calls, progress.finished = true) :
    (s.calls.countP Progress.letThrough : Int) =
      min maxCalls (s.calls.countP Progress.notDeduplicated) := by
  have hbounded := h.bounded
  rw [h.counted] at hbounded
  have hle : s.calls.countP Progress.letThrough ≤ s.calls.countP Progress.notDeduplicated := by
    refine List.countP_mono_left fun progress hmem hlet => ?_
    cases h.stages progress hmem with
    | through call => exact hlet
    | _ => cases hlet
  by_cases hspent : ∃ progress ∈ s.calls, ∃ call result,
      progress = .blocked call (.searchBudget maxCalls) result
  case pos =>
    obtain ⟨progress, hmem, call, result, rfl⟩ := hspent
    cases h.stages _ hmem with
    | spent call result hname hused =>
        rw [h.counted] at hused
        omega
  case neg =>
    have heq : s.calls.countP Progress.letThrough = s.calls.countP Progress.notDeduplicated := by
      refine List.countP_congr fun progress hmem => ?_
      have hdecided := hfinished progress hmem
      cases h.stages progress hmem with
      | waiting call => cases hdecided
      | screened call => cases hdecided
      | through call => rfl
      | repeated call result hname => rfl
      | spent call result hname hused => exact absurd ⟨_, hmem, _, _, rfl⟩ hspent
    omega

/-- A blocked call, and a call of another tool, leaves the state as it is. -/
theorem PolicyTurn.state_eq {state state' : RunState} {before after : Progress}
    (h : PolicyTurn py state before after state')
    (hleaves : after.isBlocked = true ∨ before.call.name ≠ "web_search") : state' = state := by
  cases h with
  | other hname => rfl
  | noQueries hname hqueries => rfl
  | keeps hname hkept hsome => exact absurd hname (hleaves.resolve_left nofun)
  | repeats hname hkept => rfl
  | charges hname hleft => exact absurd hname (hleaves.resolve_left nofun)
  | spent hname hspent => rfl

theorem PolicyTurn.name_eq {state state' : RunState} {before after : Progress}
    (h : PolicyTurn py state before after state') : after.call.name = before.call.name := by
  cases h <;> rfl

/-- The calls stay the calls of the run. -/
theorem names_of_reachable {policies : List ToolPolicy} {calls : List ToolCallInfo} {s : PolicyRun}
    (h : (policySystem py policies calls).Reachable s) :
    s.calls.map (fun progress => progress.call.name) = calls.map ToolCallInfo.name := by
  refine h.invariant (I := fun s => s.calls.map (fun progress => progress.call.name) =
    calls.map ToolCallInfo.name) ?_ fun s index t hs _ hstep => ?_
  · rintro s rfl
    simp [Function.comp_def, Progress.call]
  · obtain ⟨before, after, hget, hturn, hcalls, -⟩ := exists_turn hstep
    obtain ⟨hlength, hbefore⟩ := List.getElem?_eq_some_iff.mp hget
    rw [hcalls, List.map_set, hturn.name_eq, ← hs, ← hbefore]
    refine List.ext_getElem (by simp) fun position hposition _ => ?_
    rw [List.getElem_set]
    split
    case isTrue heq =>
      subst heq
      rw [List.getElem_map]
    case isFalse => rfl

/-- In every interleaving the searches that are let through are counted and never exceed the
budget, in the end there are as many of them as the budget and the deduplication allow, and a
call that is blocked, or of another tool, leaves the state as it is. -/
theorem letThrough_eq_min (py : Python) (similarity : ℚ) {maxCalls : Int} (hmax : 0 < maxCalls)
    {calls : List ToolCallInfo} {s : PolicyRun}
    (h : (policySystem py [.searchDedup similarity, .searchBudget maxCalls] calls).Reachable s) :
    s.calls.map (fun progress => progress.call.name) = calls.map ToolCallInfo.name ∧
      s.state.counts "web_search" = s.calls.countP Progress.letThrough ∧
      (s.state.counts "web_search" : Int) ≤ maxCalls ∧
      ((∀ progress ∈ s.calls, progress.finished = true) →
        (s.calls.countP Progress.letThrough : Int) =
          min maxCalls (s.calls.countP Progress.notDeduplicated)) ∧
      ∀ index t before after, s.step py index = some t → s.calls[index]? = some before →
        t.calls[index]? = some after →
        after.isBlocked = true ∨ before.call.name ≠ "web_search" → t.state = s.state := by
  have hbudgeted := budgeted_of_reachable hmax h
  refine ⟨names_of_reachable h, hbudgeted.counted, hbudgeted.bounded, hbudgeted.countP_eq_min, ?_⟩
  intro index t before after hstep hbefore hafter hleaves
  obtain ⟨old, new, hget, hturn, hcalls, -⟩ := exists_turn hstep
  obtain rfl := Option.some.inj (hbefore.symm.trans hget)
  have hlength := (List.getElem?_eq_some_iff.mp hget).1
  rw [hcalls, List.getElem?_set_self hlength] at hafter
  obtain rfl := Option.some.inj hafter
  exact hturn.state_eq hleaves

/-- Two searches whose turns alternate, with a budget of one. -/
def romeParis : Option PolicyRun :=
  let calls := [ToolCallInfo.mk "web_search" [("query", .str "rome")],
    ⟨"web_search", [("query", .str "paris")]⟩]
  let policies := [ToolPolicy.searchDedup (4 / 5), .searchBudget 1]
  (policySystem defaultGraph.py policies calls).exec
    ⟨.fresh, calls.map fun call => .passing call policies, []⟩ [0, 1, 1, 0]

theorem isSome_romeParis : romeParis.isSome = true := by decide +kernel

/-- Both searches pass the deduplication before one of them spends the budget. -/
theorem letThrough_race : ∃ s,
    (policySystem defaultGraph.py [.searchDedup (4 / 5), .searchBudget 1]
      [⟨"web_search", [("query", .str "rome")]⟩,
        ⟨"web_search", [("query", .str "paris")]⟩]).Reachable s ∧
      s.calls.countP Progress.notDeduplicated = 2 ∧
      (s.calls.countP Progress.letThrough : Int) = 1 := by
  have hreach := Transition.System.reachable_of_exec [0, 1, 1, 0] rfl
    (Option.some_get isSome_romeParis).symm
  have hmin := (letThrough_eq_min _ _ (by decide) hreach).2.2.2.1 (by decide +kernel)
  refine ⟨_, hreach, by decide +kernel, hmin.trans ?_⟩
  decide +kernel

end Budget

section Screenings

variable {py : Python} {similarity : ℚ} {maxCalls : Int} {calls : List ToolCallInfo}

/-- What the screenings of a run have recorded. -/
def recordedBy (py : Python) (screenings : List Screening) : List String :=
  screenings.flatMap fun screening => screening.kept.map (normalizeQuery py)

/-- A query of the call is kept exactly if it is below the threshold to everything that was
recorded before it, what has been kept of the call so far included. -/
def Screening.Exact (py : Python) (similarity : ℚ) (screening : Screening) : Prop :=
  screening.kept.Sublist (argQueries py screening.args) ∧
    ∀ front query back, argQueries py screening.args = front ++ query :: back →
      (query ∈ screening.kept ↔
        ∀ previous ∈ screening.seen ++ (front.filter fun other => other ∈ screening.kept).map
            (normalizeQuery py),
          querySimilarity py query previous < similarity)

/-- The screening of a call where `seen` is recorded. -/
def screeningOf (py : Python) (similarity : ℚ) (index : Nat) (args : Args) (seen : List String) :
    Screening :=
  ⟨index, args, seen, keptQueries py similarity seen (argQueries py args)⟩

theorem exact_screeningOf (index : Nat) (args : Args) (seen : List String) :
    (screeningOf py similarity index args seen).Exact py similarity := by
  refine ⟨keptQueries_sublist, fun front query back hqueries => ?_⟩
  have hsplit : argQueries py args = front ++ query :: back := hqueries
  have hnodup : (argQueries py args).Nodup := nodup_eraseDups _
  rw [hsplit] at hnodup
  exact mem_keptQueries_iff hnodup (congrArg (keptQueries py similarity seen) hsplit.symm)

theorem screening?_dedup {call : ToolCallInfo} {rest : List ToolPolicy} (index : Nat)
    (state : RunState) (hname : call.name = "web_search") :
    (Progress.passing call (.searchDedup similarity :: rest)).screening? py index state =
      some (screeningOf py similarity index call.args state.searchQueries) := by
  obtain ⟨hkept, -⟩ := foldl_read_eq py similarity (argQueries py call.args)
    ⟨[], [], state.searchQueries⟩
  rw [List.nil_append] at hkept
  simp only [Progress.screening?, hname, if_true, hkept]
  rfl

/-- The part of the registry behind the deduplication. -/
def budgetPolicies (maxCalls : Int) : List ToolPolicy :=
  if 0 < maxCalls then [.searchBudget maxCalls] else []

theorem buildPolicies_eq (hpositive : 0 < similarity) :
    buildPolicies similarity maxCalls = .searchDedup similarity :: budgetPolicies maxCalls := by
  unfold buildPolicies budgetPolicies
  rw [if_pos hpositive]
  rfl

/-- A call is still before the deduplication with the arguments that it came with, or it has
been screened, and the tool finds in its arguments what has been kept. -/
def Admits (py : Python) (similarity : ℚ) (maxCalls : Int) (original : Option ToolCallInfo)
    (screenings : List Screening) (index : Nat) (call : ToolCallInfo)
    (policies : List ToolPolicy) : Prop :=
  policies = .searchDedup similarity :: budgetPolicies maxCalls ∧ original = some call ∨
    policies <:+ budgetPolicies maxCalls ∧
      (call.name = "web_search" → ∃ screening ∈ screenings, screening.index = index ∧
        original.map ToolCallInfo.args = some screening.args ∧
        toolQueries py call.args = screening.kept)

/-- What the deduplication guarantees in every state that the calls of a run come to. -/
structure Screened (py : Python) (similarity : ℚ) (maxCalls : Int) (calls : List ToolCallInfo)
    (s : PolicyRun) : Prop where
  recorded : s.state.searchQueries = recordedBy py s.screenings
  apart : s.state.searchQueries.Pairwise fun a b => querySimilarity py a b < similarity
  exact : ∀ before screening after, s.screenings = before ++ screening :: after →
    screening.seen = recordedBy py before ∧ screening.Exact py similarity
  admits : ∀ index call policies, s.calls[index]? = some (.passing call policies) →
    Admits py similarity maxCalls calls[index]? s.screenings index call policies

theorem Admits.append {original : Option ToolCallInfo} {screenings more : List Screening}
    {index : Nat} {call : ToolCallInfo} {policies : List ToolPolicy}
    (h : Admits py similarity maxCalls original screenings index call policies) :
    Admits py similarity maxCalls original (screenings ++ more) index call policies := by
  refine h.imp_right fun ⟨hsuffix, hscreened⟩ => ⟨hsuffix, fun hname => ?_⟩
  obtain ⟨screening, hmem, hrest⟩ := hscreened hname
  exact ⟨screening, List.mem_append_left _ hmem, hrest⟩

/-- A screening that follows the others, or none. -/
theorem Screened.next {s t : PolicyRun} {index : Nat} {after : Progress}
    (screening? : Option Screening) (hpy : py.Lawful) (h : Screened py similarity maxCalls calls s)
    (hcalls : t.calls = s.calls.set index after)
    (hscreenings : t.screenings = s.screenings ++ screening?.toList)
    (hscreening : ∀ screening ∈ screening?, ∃ args,
      screening = screeningOf py similarity index args s.state.searchQueries)
    (hqueries : t.state.searchQueries = s.state.searchQueries ++ recordedBy py screening?.toList)
    (hafter : ∀ call policies, after = .passing call policies →
      Admits py similarity maxCalls calls[index]? t.screenings index call policies) :
    Screened py similarity maxCalls calls t where
  recorded := by
    rw [hqueries, hscreenings, h.recorded]
    unfold recordedBy
    rw [List.flatMap_append]
  apart := by
    rw [hqueries]
    cases screening? with
    | none => simpa [recordedBy] using h.apart
    | some screening =>
        obtain ⟨args, rfl⟩ := hscreening screening rfl
        simpa [recordedBy, screeningOf] using pairwise_recorded hpy h.apart
  exact := by
    intro before screening later hsplit
    rw [hscreenings] at hsplit
    cases screening? with
    | none =>
        rw [Option.toList_none, List.append_nil] at hsplit
        exact h.exact before screening later hsplit
    | some last =>
        obtain ⟨args, rfl⟩ := hscreening last rfl
        rcases Distinct.concat_eq_append_cons hsplit with ⟨rfl, rfl⟩ | ⟨later, hbefore⟩
        · exact ⟨h.recorded, exact_screeningOf _ _ _⟩
        · exact h.exact before screening later hbefore
  admits := by
    intro position call policies hget
    rw [hcalls] at hget
    by_cases hposition : index = position
    · subst hposition
      have hlength : index < s.calls.length := by
        have hlong := (List.getElem?_eq_some_iff.mp hget).1
        rwa [List.length_set] at hlong
      rw [List.getElem?_set_self hlength] at hget
      exact hafter call policies (Option.some.inj hget)
    · rw [List.getElem?_set_ne hposition] at hget
      rw [hscreenings]
      exact (h.admits position call policies hget).append

/-- What the turn of a search at the deduplication records and hands on. -/
theorem PolicyTurn.screens {state state' : RunState} {call : ToolCallInfo} {rest : List ToolPolicy}
    {after : Progress} (hname : call.name = "web_search")
    (h : PolicyTurn py state (.passing call (.searchDedup similarity :: rest)) after state')
    (index : Nat) :
    state'.searchQueries = state.searchQueries ++ recordedBy py
        [screeningOf py similarity index call.args state.searchQueries] ∧
      ∀ next policies, after = .passing next policies → policies = rest ∧
        toolQueries py next.args =
          (screeningOf py similarity index call.args state.searchQueries).kept := by
  cases h with
  | other hother => exact absurd hname hother
  | noQueries _ hqueries =>
      refine ⟨by simp [recordedBy, screeningOf, hqueries, keptQueries], ?_⟩
      rintro next policies ⟨rfl, rfl⟩
      exact ⟨rfl, by simp [toolQueries_eq, screeningOf, hqueries, keptQueries]⟩
  | keeps _ hkept hsome =>
      subst hkept
      refine ⟨by simp [recordedBy, screeningOf], ?_⟩
      rintro next policies ⟨rfl, rfl⟩
      exact ⟨rfl, toolQueries_withKeptQueries py hsome⟩
  | repeats _ hkept =>
      refine ⟨by simp [recordedBy, screeningOf, hkept], ?_⟩
      rintro next policies ⟨⟩

/-- Behind the deduplication nothing is recorded, and the arguments stay as they are. -/
theorem PolicyTurn.records_nothing {state state' : RunState} {call : ToolCallInfo}
    {policy : ToolPolicy} {rest : List ToolPolicy} {after : Progress}
    (hlate : call.name ≠ "web_search" ∨ ∃ maxCalls, policy = .searchBudget maxCalls)
    (h : PolicyTurn py state (.passing call (policy :: rest)) after state') :
    state'.searchQueries = state.searchQueries ∧
      (∀ next policies, after = .passing next policies → next = call ∧ policies = rest) ∧
      ∀ index, (Progress.passing call (policy :: rest)).screening? py index state = none := by
  have hnone : ∀ index, (Progress.passing call (policy :: rest)).screening? py index state =
      none := by
    intro index
    rcases hlate with hname | ⟨maxCalls, rfl⟩
    · cases policy with
      | searchDedup similarity => exact if_neg hname
      | searchBudget maxCalls => rfl
    · rfl
  have hsame : ∀ next policies, Progress.passing call rest = .passing next policies →
      next = call ∧ policies = rest := by
    rintro next policies ⟨rfl, rfl⟩
    exact ⟨rfl, rfl⟩
  cases h with
  | other => exact ⟨rfl, hsame, hnone⟩
  | noQueries hname => exact hlate.elim (absurd hname) nofun
  | keeps hname => exact hlate.elim (absurd hname) nofun
  | repeats hname => exact hlate.elim (absurd hname) nofun
  | charges => exact ⟨rfl, hsame, hnone⟩
  | spent => exact ⟨rfl, nofun, hnone⟩

/-- A screening that keeps nothing changes nothing. -/
theorem PolicyTurn.state_eq_of_kept_nil {state state' : RunState} {before after : Progress}
    {screening : Screening} {index : Nat} (h : PolicyTurn py state before after state')
    (hscreening : before.screening? py index state = some screening)
    (hnone : screening.kept = []) : state' = state := by
  cases h with
  | keeps hname hkept hsome =>
      rw [screening?_dedup index state hname] at hscreening
      obtain rfl := Option.some.inj hscreening
      exact absurd (hkept.symm.trans hnone) hsome
  | charges => cases hscreening
  | _ => rfl

theorem Screened.step {s t : PolicyRun} {index : Nat} (hpy : py.Lawful)
    (h : Screened py similarity maxCalls calls s) (hstep : s.step py index = some t) :
    Screened py similarity maxCalls calls t := by
  obtain ⟨before, after, hget, hturn, hcalls, hscreenings⟩ := exists_turn hstep
  rcases before with ⟨call, _ | ⟨policy, rest⟩⟩ | ⟨call, policy, result⟩
  · cases hturn
  · -- a turn that records nothing hands the call on as it is
    have hquiet (hlate : call.name ≠ "web_search" ∨ ∃ maxCalls, policy = .searchBudget maxCalls)
        (hrest : Admits py similarity maxCalls calls[index]? s.screenings index call rest) :
        Screened py similarity maxCalls calls t := by
      obtain ⟨hqueries, hsame, hnone⟩ := hturn.records_nothing hlate
      rw [hnone, Option.toList_none, List.append_nil] at hscreenings
      refine h.next none hpy hcalls (by simpa using hscreenings) nofun
        (by simpa [recordedBy] using hqueries) fun next policies hnext => ?_
      obtain ⟨rfl, rfl⟩ := hsame next policies hnext
      rwa [hscreenings]
    rcases h.admits index call (policy :: rest) hget with ⟨hpolicies, horiginal⟩ | ⟨hsuffix, hargs⟩
    · obtain ⟨rfl, rfl⟩ := List.cons.inj hpolicies
      by_cases hname : call.name = "web_search"
      · obtain ⟨hqueries, hnext⟩ := hturn.screens hname index
        rw [screening?_dedup index s.state hname] at hscreenings
        refine h.next (some _) hpy hcalls hscreenings ?_ hqueries ?_
        · rintro screening ⟨rfl⟩
          exact ⟨call.args, rfl⟩
        · intro next policies hafter
          obtain ⟨rfl, hfound⟩ := hnext next policies hafter
          refine Or.inr ⟨List.suffix_rfl, fun _ => ⟨_, ?_, rfl, ?_, hfound⟩⟩
          · rw [hscreenings]
            exact List.mem_append_right _ List.mem_cons_self
          · rw [horiginal]
            rfl
      · exact hquiet (Or.inl hname) (Or.inr ⟨List.suffix_rfl, fun hsearch => absurd hsearch hname⟩)
    · have hbudget : ∃ maxCalls, policy = .searchBudget maxCalls := by
        have hmem := hsuffix.subset List.mem_cons_self
        unfold budgetPolicies at hmem
        split at hmem
        · exact ⟨maxCalls, List.mem_singleton.mp hmem⟩
        · exact nomatch hmem
      exact hquiet (Or.inr hbudget) (Or.inr ⟨(List.suffix_cons _ _).trans hsuffix, hargs⟩)
  · cases hturn

theorem screened_of_reachable (hpy : py.Lawful) (hpositive : 0 < similarity) {s : PolicyRun}
    (h : (policySystem py (buildPolicies similarity maxCalls) calls).Reachable s) :
    Screened py similarity maxCalls calls s := by
  refine h.invariant ?_ fun s index t hs _ hstep => hs.step hpy hstep
  rintro s rfl
  refine ⟨rfl, List.Pairwise.nil, fun before screening after hsplit => ?_, ?_⟩
  · exact absurd hsplit.symm (by simp)
  · intro index call policies hget
    rw [List.getElem?_map] at hget
    obtain ⟨original, horiginal, hpassing⟩ := Option.map_eq_some_iff.mp hget
    obtain ⟨rfl, rfl⟩ := Progress.passing.inj hpassing
    exact Or.inl ⟨buildPolicies_eq hpositive, horiginal⟩

/-- In every interleaving the recorded queries are below the threshold to each other; each call
that is screened keeps exactly the queries that are below it to everything recorded before them,
and changes nothing where it keeps none; and the tool finds the kept queries in the arguments of
a search that is let through. -/
theorem screenings_exact (hpy : py.Lawful) (hpositive : 0 < similarity) {s : PolicyRun}
    (h : (policySystem py (buildPolicies similarity maxCalls) calls).Reachable s) :
    s.state.searchQueries.Pairwise (fun a b => querySimilarity py a b < similarity) ∧
      s.state.searchQueries = recordedBy py s.screenings ∧
      (∀ before screening after, s.screenings = before ++ screening :: after →
        screening.seen = recordedBy py before ∧ screening.Exact py similarity) ∧
      (∀ index t screening, s.step py index = some t →
        t.screenings = s.screenings ++ [screening] → screening.kept = [] → t.state = s.state) ∧
      ∀ index call, s.calls[index]? = some (.passing call []) → call.name = "web_search" →
        ∃ screening ∈ s.screenings, screening.index = index ∧
          calls[index]?.map ToolCallInfo.args = some screening.args ∧
          toolQueries py call.args = screening.kept := by
  have hscreened := screened_of_reachable hpy hpositive h
  refine ⟨hscreened.apart, hscreened.recorded, hscreened.exact, ?_, ?_⟩
  · intro index t screening hstep hscreenings hnone
    obtain ⟨before, after, -, hturn, -, hmore⟩ := exists_turn hstep
    have hlast := List.append_cancel_left (hscreenings.symm.trans hmore)
    exact hturn.state_eq_of_kept_nil (Option.toList_eq_singleton_iff.mp hlast.symm) hnone
  · intro index call hget hname
    rcases hscreened.admits index call [] hget with ⟨hpolicies, -⟩ | ⟨-, hfound⟩
    · exact nomatch hpolicies
    · exact hfound hname

theorem toLower_toLower (c : Char) : c.toLower.toLower = c.toLower := by
  have hnot : ¬ (c.toLower.val ≥ 'A'.val ∧ c.toLower.val ≤ 'Z'.val) := by
    unfold Char.toLower
    split
    case isTrue h =>
      simp only [ge_iff_le, UInt32.le_iff_toNat_le, UInt32.toNat_add] at h ⊢
      grind
    case isFalse h => exact h
  exact dif_neg hnot

/-- Lower case and words in ASCII. -/
theorem lawful_defaultPy : defaultGraph.py.Lawful where
  lower_of_lowered := by
    intro text hlowered
    rw [← String.toList_inj]
    change (String.ofList (text.toList.map Char.toLower)).toList = text.toList
    rw [String.toList_ofList]
    refine (List.map_congr_left fun c hc => ?_).trans (List.map_id _)
    rcases hlowered c hc with rfl | ⟨source, hsource⟩
    · rfl
    · change c ∈ (String.ofList (source.toList.map Char.toLower)).toList at hsource
      rw [String.toList_ofList] at hsource
      obtain ⟨letter, -, rfl⟩ := List.mem_map.mp hsource
      exact toLower_toLower letter
  isWord_space := by decide

/-- A query is recorded, and the same query with a word more is dropped from the next call. -/
def romeRepeated : Option PolicyRun :=
  let calls := [ToolCallInfo.mk "web_search" [("query", .str "Weather in Rome")],
    ⟨"web_search", [("query", .str "weather in rome today"),
      ("queries", .arr [.str "opening hours"])]⟩]
  let policies := buildPolicies (4 / 5) 6
  (policySystem defaultGraph.py policies calls).exec
    ⟨.fresh, calls.map fun call => .passing call policies, []⟩ [0, 1, 0, 1]

theorem isSome_romeRepeated : romeRepeated.isSome = true := by decide +kernel

theorem screenings_exact_rome : ∃ s,
    (policySystem defaultGraph.py (buildPolicies (4 / 5) 6)
      [⟨"web_search", [("query", .str "Weather in Rome")]⟩,
        ⟨"web_search", [("query", .str "weather in rome today"),
          ("queries", .arr [.str "opening hours"])]⟩]).Reachable s ∧
      s.screenings.map Screening.kept = [["Weather in Rome"], ["opening hours"]] ∧
      s.state.searchQueries = recordedBy defaultGraph.py s.screenings := by
  have hreach := Transition.System.reachable_of_exec [0, 1, 0, 1] rfl
    (Option.some_get isSome_romeRepeated).symm
  exact ⟨_, hreach, by decide +kernel,
    (screenings_exact lawful_defaultPy (by decide +kernel) hreach).2.1⟩

end Screenings

end GraphAgent
