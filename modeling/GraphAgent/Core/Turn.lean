import GraphAgent.Core.Approvals
import GraphAgent.Core.KeyOrder

/-!
# A turn and its limits

A turn is one `run()` with the `resume()` calls that continue it. The limits on
searches and on repeated calls are meant for the whole turn; the counters that
enforce them live as long as one stream of events.
-/

namespace GraphAgent

variable {g : Graph}

/-- What is logged of a turn: the replies of the model with the calls they ask
for, the summaries that a compaction asks of it, the tools that are executed, and
the end at the limit of iterations. -/
inductive TurnEntry where
  | replied (calls : List ToolCall)
  | summarised
  | executed (name : String) (args : Args)
  | limited

structure Turn where
  run : Run
  log : List TurnEntry

/-- The tools that a pass executes. -/
def startedTools : List ToolCall → List Admission → List TurnEntry
  | call :: calls, .started args :: admissions =>
      .executed call.name args :: startedTools calls admissions
  | _ :: calls, _ :: admissions => startedTools calls admissions
  | _, _ => []

/-- The summary that the compaction of a history asks for, if it has something to summarise. -/
def askedSummaries (g : Graph) (messages : List Message) : List TurnEntry :=
  ((compactSplit g.countTokens g.config.contextTokenLimit g.config.compactionKeepMessages
    messages).map fun _ => .summarised).toList

theorem askedSummaries_cases (g : Graph) (messages : List Message) :
    askedSummaries g messages = [] ∨ askedSummaries g messages = [.summarised] := by
  unfold askedSummaries
  cases compactSplit g.countTokens g.config.contextTokenLimit g.config.compactionKeepMessages
      messages with
  | none => exact Or.inl rfl
  | some split => exact Or.inr rfl

/-- What a step adds to the log, given the run that it leads to. -/
def Turn.entries (g : Graph) (t : Turn) (next : Run) : Act → List TurnEntry
  | .compact _ => askedSummaries g t.run.state.messages
  | .reply _ _ => [.replied (lastToolCalls next.state.messages)]
  | .tools _ => startedTools (lastToolCalls t.run.state.messages) (t.run.pass g).1
  | .limit => [.limited]
  | _ => []

/-- Another message ends a turn, and only a `resume()` that answers an interrupt
continues it. -/
def Turn.continues (t : Turn) : Act → Bool
  | .message _ => false
  | .resume _ _ => t.run.waiting.isSome
  | _ => true

def Turn.step (g : Graph) (t : Turn) (a : Act) : Option Turn :=
  if t.continues a then (t.run.step g a).map fun next => ⟨next, t.log ++ t.entries g next a⟩
  else none

/-- The turns that `run()` begins, on a thread in any state. -/
def turnSystem (g : Graph) : Transition.System Turn Act where
  init t := ∃ (state : AgentState) (input : RunInput), t = ⟨.start (state.writeInput input), []⟩
  step := Turn.step g

/-- An execution of a tool with the same arguments up to the order of keys. -/
def TurnEntry.Repeats (name : String) (args : Args) : TurnEntry → Prop
  | .executed name' args' => name' = name ∧ args'.SameUpToOrder args
  | _ => False

/-- No more than `limit` entries of a log have a property. -/
def AtMost (limit : Int) (P : TurnEntry → Prop) (log : List TurnEntry) : Prop :=
  ∀ entries : List TurnEntry, entries.Sublist log → (∀ entry ∈ entries, P entry) →
    (entries.length : Int) ≤ limit

/-- An execution of the search. -/
def TurnEntry.isSearch : TurnEntry → Bool
  | .executed name _ => name = "web_search"
  | _ => false

/-- A turn keeps to the limits of the configuration, where they are positive. -/
structure Turn.WithinLimits (g : Graph) (t : Turn) : Prop where
  searches : 0 < g.config.maxCallsPerRun →
    AtMost g.config.maxCallsPerRun (fun entry => entry.isSearch = true) t.log
  repeats : 0 < g.config.repeatToolCallLimit → ∀ name args,
    AtMost g.config.repeatToolCallLimit (TurnEntry.Repeats name args) t.log

section Counting

/-- An execution under a signature of the repeat guard. -/
def TurnEntry.hasSignature (signature : String × String) : TurnEntry → Bool
  | .executed name args => (name, args.signature) = signature
  | _ => false

theorem atMost_of_countP {limit : Int} {P : TurnEntry → Prop} {p : TurnEntry → Bool}
    {log : List TurnEntry} (hp : ∀ entry, P entry → p entry = true)
    (hcount : (log.countP p : Int) ≤ limit) : AtMost limit P log := by
  intro entries hsub hentries
  have hall : entries.countP p = entries.length :=
    List.countP_eq_length.mpr fun entry hmem => hp entry (hentries entry hmem)
  have hle : entries.length ≤ log.countP p := hall ▸ hsub.countP_le
  omega

theorem hasSignature_of_repeats {name : String} {args : Args} {entry : TurnEntry}
    (h : entry.Repeats name args) : entry.hasSignature (name, args.signature) = true := by
  cases entry with
  | executed name' args' =>
      obtain ⟨rfl, hargs⟩ := h
      simp only [TurnEntry.hasSignature, signature_congr hargs, decide_true]
  | replied calls => exact h.elim
  | summarised => exact h.elim
  | limited => exact h.elim

end Counting

section Passes

variable {call : ToolCall} {pass : Pass} {args : Args}

theorem startedTools_cons (calls : List ToolCall) (admission : Admission)
    (admissions : List Admission) :
    startedTools (call :: calls) (admission :: admissions) =
      startedTools [call] [admission] ++ startedTools calls admissions := by
  cases admission <;> rfl

/-- A counter that no call lowers, and that counts each execution of a kind, which it
lets through below the limit. -/
structure Counts (g : Graph) (counter : Pass → Nat) (p : TurnEntry → Bool) (limit : Int) : Prop where
  mono : ∀ m call pass, counter pass ≤ counter (admitCall g m call pass).2
  start : ∀ m call pass args, (admitCall g m call pass).1 = .started args →
    p (.executed call.name args) = true →
    counter (admitCall g m call pass).2 = counter pass + 1 ∧ (counter pass + 1 : Int) ≤ limit

/-- What counts a kind of executions bounds them in a pass. -/
theorem Counts.countP_admitAll {counter : Pass → Nat} {p : TurnEntry → Bool} {limit : Int}
    (h : Counts g counter p limit) (m : Bool) (calls : List ToolCall) (pass : Pass) :
    counter pass + (startedTools calls (admitAll g m calls pass).1).countP p ≤
        counter (admitAll g m calls pass).2 ∧
      (0 < (startedTools calls (admitAll g m calls pass).1).countP p →
        (counter pass + (startedTools calls (admitAll g m calls pass).1).countP p : Int) ≤
          limit) := by
  induction calls generalizing pass with
  | nil => simp [startedTools, admitAll]
  | cons call rest ih =>
      simp only [admitAll]
      obtain ⟨hrest, hlimit⟩ := ih (admitCall g m call pass).2
      rw [startedTools_cons, List.countP_append]
      have hfirst := h.mono m call pass
      by_cases hcounted : (startedTools [call] [(admitCall g m call pass).1]).countP p = 0
      · rw [hcounted]
        exact ⟨by omega, fun hpos => by have := hlimit (by omega); omega⟩
      · -- the call is started, and counted by `p`
        have hone : (startedTools [call] [(admitCall g m call pass).1]).countP p = 1 ∧
            counter (admitCall g m call pass).2 = counter pass + 1 ∧
              (counter pass + 1 : Int) ≤ limit := by
          cases hadmission : (admitCall g m call pass).1 with
          | answered content => simp [hadmission, startedTools] at hcounted
          | interrupted payload => simp [hadmission, startedTools] at hcounted
          | started args =>
              simp only [hadmission, startedTools, List.countP_singleton] at hcounted ⊢
              split at hcounted
              case isFalse => exact absurd rfl hcounted
              case isTrue hp => exact ⟨if_pos hp, h.start m call pass args hadmission hp⟩
        rw [hone.1]
        refine ⟨by omega, fun _ => ?_⟩
        by_cases hlater : (startedTools rest (admitAll g m rest
          (admitCall g m call pass).2).1).countP p = 0
        · rw [hlater]
          omega
        · have := hlimit (by omega)
          omega

theorem signatures_le_admitGuarded (callId name : String) (args : Args) (pass : Pass)
    (signature : String × String) :
    pass.metrics.signatures signature ≤
      (admitGuarded g callId name args pass).2.metrics.signatures signature := by
  rw [(admitGuarded_spec callId name args pass).2.2.2]
  by_cases hsame : signature = (name, args.signature)
  · unfold Pass.counted
    split
    · simp [hsame]
    · exact Nat.le_refl _
  · rw [signatures_counted pass hsame]

/-- The repeat guard starts a tool with the arguments it has looked at, and only
while the count of their signature is below the limit. -/
theorem started_admitGuarded {callId name : String} {args' : Args}
    (hlimit : 0 < g.config.repeatToolCallLimit)
    (h : (admitGuarded g callId name args pass).1 = .started args') :
    args' = args ∧
      (admitGuarded g callId name args pass).2.metrics.signatures (name, args.signature) =
        pass.metrics.signatures (name, args.signature) + 1 ∧
      (pass.metrics.signatures (name, args.signature) + 1 : Int) ≤
        g.config.repeatToolCallLimit := by
  rw [(admitGuarded_spec callId name args pass).2.2.2]
  unfold admitGuarded at h
  dsimp only at h
  split at h
  case isTrue => exact nomatch h
  case isFalse hbelow =>
    refine ⟨(Admission.started.inj h).symm, ?_, ?_⟩
    · unfold Pass.counted
      rw [if_pos hlimit]
      exact Function.update_self _ _ _
    · omega

theorem signatures_le_admitCall (m : Bool) (signature : String × String) :
    pass.metrics.signatures signature ≤
      (admitCall g m call pass).2.metrics.signatures signature := by
  have h := admitted g m call pass
  generalize admitCall g m call pass = result at h ⊢
  cases h with
  | unknown => exact Nat.le_refl _
  | blocked => exact Nat.le_refl _
  | unattended => exact signatures_le_admitGuarded _ _ _ (afterPolicies g call pass) signature
  | waits => exact Nat.le_refl _
  | approved _ later => exact signatures_le_admitGuarded _ _ _ { pass with answers := later } signature
  | denied => exact Nat.le_refl _

/-- A tool is started only while the count of its signature is below the limit. -/
theorem signatures_started {m : Bool} (hlimit : 0 < g.config.repeatToolCallLimit)
    (hstarted : (admitCall g m call pass).1 = .started args) :
    (admitCall g m call pass).2.metrics.signatures (call.name, args.signature) =
        pass.metrics.signatures (call.name, args.signature) + 1 ∧
      (pass.metrics.signatures (call.name, args.signature) + 1 : Int) ≤
        g.config.repeatToolCallLimit := by
  have h := admitted g m call pass
  generalize admitCall g m call pass = result at h hstarted ⊢
  cases h with
  | unknown => exact nomatch hstarted
  | blocked => exact nomatch hstarted
  | unattended =>
      obtain ⟨rfl, hcounts⟩ := started_admitGuarded hlimit hstarted
      exact hcounts
  | waits => exact nomatch hstarted
  | approved _ later =>
      obtain ⟨rfl, hcounts⟩ := started_admitGuarded hlimit hstarted
      exact hcounts
  | denied => exact nomatch hstarted

/-- The policies rewrite the arguments of searches only. -/
theorem args_of_started {m : Bool} (hstarted : (admitCall g m call pass).1 = .started args) :
    call.name = "web_search" ∨ args = call.args := by
  have hguarded : ∀ (args' : Args) (pass' : Pass),
      (admitGuarded g call.callId call.name args' pass').1 = .started args → args = args' := by
    intro args' pass' h
    unfold admitGuarded at h
    dsimp only at h
    split at h
    case isTrue => exact nomatch h
    case isFalse => exact (Admission.started.inj h).symm
  by_cases hname : call.name = "web_search"
  · exact Or.inl hname
  · have h := admitted g m call pass
    generalize admitCall g m call pass = result at h hstarted
    apply Or.inr
    cases h with
    | unknown => exact nomatch hstarted
    | blocked => exact nomatch hstarted
    | unattended =>
        rw [hguarded _ _ hstarted]
        unfold policed
        rw [applyPolicies_other hname]
    | waits => exact nomatch hstarted
    | approved => exact hguarded _ _ hstarted
    | denied => exact nomatch hstarted

/-- The searches that the budget of a pass has counted. -/
def Pass.searches (pass : Pass) : Nat := pass.metrics.policyState.counts "web_search"

theorem searches_admitGuarded (callId name : String) (args : Args) (pass : Pass) :
    (admitGuarded g callId name args pass).2.searches = pass.searches := by
  unfold Pass.searches
  rw [(admitGuarded_spec callId name args pass).2.2.1]

theorem searches_afterPolicies (hmax : 0 < g.config.maxCallsPerRun)
    (hname : call.name = "web_search") (pass : Pass) :
    (policed g call pass).1.result = none ∧
        (afterPolicies g call pass).searches = pass.searches + 1 ∧
        (pass.searches : Int) < g.config.maxCallsPerRun ∨
      (policed g call pass).1.result ≠ none ∧
        (afterPolicies g call pass).searches = pass.searches := by
  have hsearch : ToolCallInfo.name ⟨call.name, call.args⟩ = "web_search" := hname
  have hpoliced : applyPolicies g.py
      (buildPolicies g.config.dedupeSimilarity g.config.maxCallsPerRun) ⟨call.name, call.args⟩
        pass.metrics.policyState = policed g call pass := rfl
  rcases applyPolicies_search g.py _ hmax hsearch hpoliced with hcounted | ⟨hblocked, hcounts⟩
  · exact Or.inl hcounted
  · exact Or.inr ⟨hblocked, congrFun hcounts "web_search"⟩

theorem searches_le_admitCall (hmax : 0 < g.config.maxCallsPerRun) (m : Bool) (call : ToolCall)
    (pass : Pass) : pass.searches ≤ (admitCall g m call pass).2.searches := by
  by_cases hname : call.name = "web_search"
  · have hpolicies := searches_afterPolicies hmax hname pass
    have h := admitted g m call pass
    generalize admitCall g m call pass = result at h ⊢
    cases h with
    | unknown => exact Nat.le_refl _
    | blocked hneeds result hresult =>
        show pass.searches ≤ (afterPolicies g call pass).searches
        omega
    | unattended =>
        rw [searches_admitGuarded]
        omega
    | waits => exact Nat.le_refl _
    | approved _ later => exact (searches_admitGuarded _ _ _ { pass with answers := later }).ge
    | denied => exact Nat.le_refl _
  · unfold Pass.searches
    rw [policyState_admitCall hname]

/-- A search is started only while the budget is not used up. -/
theorem searches_started {m : Bool} (hmax : 0 < g.config.maxCallsPerRun)
    (hname : call.name = "web_search")
    (hstarted : (admitCall g m call pass).1 = .started args) :
    (admitCall g m call pass).2.searches = pass.searches + 1 ∧
      (pass.searches + 1 : Int) ≤ g.config.maxCallsPerRun := by
  have hpolicies := searches_afterPolicies hmax hname pass
  have h := admitted g m call pass
  generalize admitCall g m call pass = result at h hstarted ⊢
  cases h with
  | unknown => exact nomatch hstarted
  | blocked => exact nomatch hstarted
  | unattended _ _ hresult =>
      rw [searches_admitGuarded]
      rcases hpolicies with ⟨-, hcounted, hbelow⟩ | ⟨hblocked, -⟩
      · exact ⟨hcounted, by omega⟩
      · exact absurd hresult hblocked
  | waits => exact nomatch hstarted
  | approved hneeds => exact absurd hname (name_of_needsApproval hneeds)
  | denied => exact nomatch hstarted

/-- What a pass executes was called, with arguments that only a policy for
searches can have changed. -/
theorem mem_startedTools {m : Bool} {calls : List ToolCall} {name : String}
    (h : .executed name args ∈ startedTools calls (admitAll g m calls pass).1) :
    ∃ call ∈ calls, call.name = name ∧ (name = "web_search" ∨ args = call.args) := by
  induction calls generalizing pass with
  | nil => exact nomatch h
  | cons call rest ih =>
      simp only [admitAll] at h
      rw [startedTools_cons] at h
      rcases List.mem_append.mp h with hfirst | hrest
      · cases hadmission : (admitCall g m call pass).1 with
        | answered content => simp [hadmission, startedTools] at hfirst
        | interrupted payload => simp [hadmission, startedTools] at hfirst
        | started args' =>
            simp only [hadmission, startedTools, List.mem_singleton, TurnEntry.executed.injEq]
              at hfirst
            obtain ⟨rfl, rfl⟩ := hfirst
            exact ⟨call, List.mem_cons_self, rfl, args_of_started hadmission⟩
      · obtain ⟨other, hmem, hother⟩ := ih hrest
        exact ⟨other, List.mem_cons_of_mem _ hmem, hother⟩

end Passes

section Runs

variable {t t' : Turn}

/-- The executions of the turn stay within the limits, by the signatures and the
searches that the counters name. -/
structure Turn.Bounded (g : Graph) (t : Turn) : Prop where
  searches : 0 < g.config.maxCallsPerRun →
    (t.log.countP TurnEntry.isSearch : Int) ≤ g.config.maxCallsPerRun
  repeats : 0 < g.config.repeatToolCallLimit → ∀ signature,
    (t.log.countP (TurnEntry.hasSignature signature) : Int) ≤ g.config.repeatToolCallLimit

/-- The counters of the stream know the executions of the turn so far of the
calls that the next pass makes. -/
structure Turn.Remembered (g : Graph) (t : Turn) : Prop where
  searches : 0 < g.config.maxCallsPerRun →
    (∃ call ∈ lastToolCalls t.run.state.messages, call.name = "web_search") →
    t.log.countP TurnEntry.isSearch ≤ t.run.metrics.policyState.counts "web_search"
  repeats : 0 < g.config.repeatToolCallLimit →
    ∀ call ∈ lastToolCalls t.run.state.messages, ∀ args : Args,
      call.name = "web_search" ∨ args = call.args →
      t.log.countP (TurnEntry.hasSignature (call.name, args.signature)) ≤
        t.run.metrics.signatures (call.name, args.signature)

/-- A pass of the tools node is made with counters that know of the calls it makes. -/
def RemembersCalls (g : Graph) (t : Turn) (a : Act) : Prop :=
  ∀ outcomes, a = .tools outcomes → t.Remembered g

theorem Turn.Bounded.withinLimits (h : t.Bounded g) : t.WithinLimits g where
  searches hmax := atMost_of_countP (fun _ hsearch => hsearch) (h.searches hmax)
  repeats hlimit _ _ :=
    atMost_of_countP (fun _ hrepeats => hasSignature_of_repeats hrepeats) (h.repeats hlimit _)

theorem counts_searches (hmax : 0 < g.config.maxCallsPerRun) :
    Counts g Pass.searches TurnEntry.isSearch g.config.maxCallsPerRun where
  mono := searches_le_admitCall hmax
  start _ _ _ _ hstarted hsearch := searches_started hmax (of_decide_eq_true hsearch) hstarted

theorem counts_signatures (hlimit : 0 < g.config.repeatToolCallLimit) (signature : String × String) :
    Counts g (fun pass => pass.metrics.signatures signature) (TurnEntry.hasSignature signature)
      g.config.repeatToolCallLimit where
  mono m _ _ := signatures_le_admitCall m signature
  start _ _ _ _ hstarted hsame := by
    obtain rfl := of_decide_eq_true hsame
    exact signatures_started hlimit hstarted

/-- If the counter of a kind of executions has counted those of the turn before a
pass that makes another one, the pass keeps to the limit of the kind. -/
theorem Counts.countP_pass {counter : Pass → Nat} {p : TurnEntry → Bool} {limit : Int}
    (h : Counts g counter p limit) (t : Turn) (hbounded : (t.log.countP p : Int) ≤ limit)
    (hknown : ∀ entry ∈ startedTools (lastToolCalls t.run.state.messages) (t.run.pass g).1,
      p entry = true → t.log.countP p ≤ counter ⟨t.run.metrics, t.run.answers, []⟩) :
    ((t.log ++ startedTools (lastToolCalls t.run.state.messages) (t.run.pass g).1).countP p : Int) ≤
      limit := by
  rw [List.countP_append]
  by_cases hnone :
      (startedTools (lastToolCalls t.run.state.messages) (t.run.pass g).1).countP p = 0
  · rw [hnone]
    exact hbounded
  · have hpos := Nat.pos_of_ne_zero hnone
    obtain ⟨entry, hentry, hp⟩ := List.countP_pos_iff.mp hpos
    have hcount := hknown entry hentry hp
    have hlimit := (h.countP_admitAll _ (lastToolCalls t.run.state.messages)
      ⟨t.run.metrics, t.run.answers, []⟩).2 hpos
    unfold Run.pass
    omega

/-- A counter that has counted the executions of the turn before a pass has also counted
those of the pass. -/
theorem Counts.counted_pass {counter : Pass → Nat} {p : TurnEntry → Bool} {limit : Int}
    (h : Counts g counter p limit) (t : Turn)
    (hknown : t.log.countP p ≤ counter ⟨t.run.metrics, t.run.answers, []⟩) :
    (t.log ++ startedTools (lastToolCalls t.run.state.messages) (t.run.pass g).1).countP p ≤
      counter (t.run.pass g).2 := by
  rw [List.countP_append]
  exact (Nat.add_le_add_right hknown _).trans (h.countP_admitAll _ _ _).1

theorem searches_pass (hmax : 0 < g.config.maxCallsPerRun) (h : t.Bounded g)
    (hknown : t.Remembered g) :
    ((t.log ++ startedTools (lastToolCalls t.run.state.messages) (t.run.pass g).1).countP
      TurnEntry.isSearch : Int) ≤ g.config.maxCallsPerRun := by
  apply (counts_searches hmax).countP_pass t (h.searches hmax)
  intro entry hentry hsearch
  cases entry with
  | replied calls => exact nomatch hsearch
  | summarised => exact nomatch hsearch
  | limited => exact nomatch hsearch
  | executed name args =>
      obtain ⟨call, hmem, rfl, -⟩ := mem_startedTools hentry
      exact hknown.searches hmax ⟨call, hmem, of_decide_eq_true hsearch⟩

theorem repeats_pass (hlimit : 0 < g.config.repeatToolCallLimit) (h : t.Bounded g)
    (hknown : t.Remembered g) (signature : String × String) :
    ((t.log ++ startedTools (lastToolCalls t.run.state.messages) (t.run.pass g).1).countP
      (TurnEntry.hasSignature signature) : Int) ≤ g.config.repeatToolCallLimit := by
  apply (counts_signatures hlimit signature).countP_pass t (h.repeats hlimit signature)
  intro entry hentry hsame
  cases entry with
  | replied calls => exact nomatch hsame
  | summarised => exact nomatch hsame
  | limited => exact nomatch hsame
  | executed name args =>
      obtain rfl := of_decide_eq_true hsame
      obtain ⟨call, hmem, rfl, hargs⟩ := mem_startedTools hentry
      exact hknown.repeats hlimit call hmem args hargs

/-- The log of a step grows by what the step executes. -/
theorem turn_step {a : Act} (h : t.step g a = some t') :
    t.run.step g a = some t'.run ∧ t'.log = t.log ++ t.entries g t'.run a ∧
      t.continues a = true := by
  unfold Turn.step at h
  split at h
  case isFalse => exact nomatch h
  case isTrue hcontinues =>
    obtain ⟨next, hrun, rfl⟩ := Option.map_eq_some_iff.mp h
    exact ⟨hrun, rfl, hcontinues⟩

/-- A kind of executions grows in passes of the tools node only. -/
theorem countP_entries {p : TurnEntry → Bool} (hreplied : ∀ calls, p (.replied calls) = false)
    (hsummarised : p .summarised = false) (hlimited : p .limited = false) {a : Act} {next : Run}
    (ha : ∀ outcomes, a ≠ .tools outcomes) :
    (t.log ++ t.entries g next a).countP p = t.log.countP p := by
  cases a with
  | compact summary =>
      have hsummaries : t.entries g next (.compact summary) =
          askedSummaries g t.run.state.messages := rfl
      rw [hsummaries]
      rcases askedSummaries_cases g t.run.state.messages with h | h <;> simp [h, hsummarised]
  | reply => simp [Turn.entries, hreplied]
  | tools outcomes => exact absurd rfl (ha outcomes)
  | limit => simp [Turn.entries, hlimited]
  | resume => simp [Turn.entries]
  | message => simp [Turn.entries]

theorem Turn.Bounded.step {a : Act} (h : t.Bounded g) (hguard : RemembersCalls g t a)
    (hstep : t.step g a = some t') : t'.Bounded g := by
  obtain ⟨-, hlog, -⟩ := turn_step hstep
  by_cases htools : ∃ outcomes, a = .tools outcomes
  · obtain ⟨outcomes, rfl⟩ := htools
    have hknown := hguard outcomes rfl
    constructor
    · intro hmax
      rw [hlog]
      exact searches_pass hmax h hknown
    · intro hlimit signature
      rw [hlog]
      exact repeats_pass hlimit h hknown signature
  · have ha : ∀ outcomes, a ≠ .tools outcomes := fun outcomes heq => htools ⟨outcomes, heq⟩
    constructor
    · intro hmax
      rw [hlog, countP_entries (fun _ => rfl) rfl rfl ha]
      exact h.searches hmax
    · intro hlimit signature
      rw [hlog, countP_entries (fun _ => rfl) rfl rfl ha]
      exact h.repeats hlimit signature

theorem bounded_init (h : (turnSystem g).init t) : t.Bounded g := by
  obtain ⟨state, input, rfl⟩ := h
  constructor
  · intro hmax
    exact Int.le_of_lt hmax
  · intro hlimit signature
    exact Int.le_of_lt hlimit

/-- A turn keeps to its limits if every pass is made with counters that know of
the turn's earlier executions of the calls it makes. -/
theorem withinLimits_of_remembersCalls
    (h : (turnSystem g).ReachableWithin (RemembersCalls g) t) : t.WithinLimits g := by
  have hbounded : t.Bounded g := by
    apply h.invariant
    · intro t ht
      exact bounded_init ht
    · intro t a t' ht hguard hstep
      exact ht.step hguard hstep
  exact hbounded.withinLimits

/-- The counters of the stream know all the executions of the turn so far. -/
structure Turn.Counted (g : Graph) (t : Turn) : Prop where
  searches : 0 < g.config.maxCallsPerRun →
    t.log.countP TurnEntry.isSearch ≤ t.run.metrics.policyState.counts "web_search"
  repeats : 0 < g.config.repeatToolCallLimit → ∀ signature,
    t.log.countP (TurnEntry.hasSignature signature) ≤ t.run.metrics.signatures signature

theorem Turn.Counted.remembered (h : t.Counted g) : t.Remembered g where
  searches hmax _ := h.searches hmax
  repeats hlimit _ _ _ _ := h.repeats hlimit _

theorem counters_read (chunks : List StreamChunk) (reply : Reply) :
    (chunks.foldl Reply.read reply).metrics.signatures = reply.metrics.signatures ∧
      (chunks.foldl Reply.read reply).metrics.policyState = reply.metrics.policyState := by
  induction chunks generalizing reply with
  | nil => exact ⟨rfl, rfl⟩
  | cons chunk rest ih => exact ih (reply.read chunk)

theorem counters_agentNode (state : AgentState) (metrics : RunMetrics) (chunks : List StreamChunk)
    (error : Option String) :
    (agentNode state metrics chunks error).metrics.signatures = metrics.signatures ∧
      (agentNode state metrics chunks error).metrics.policyState = metrics.policyState := by
  cases error with
  | none => exact counters_read chunks ⟨[], [], metrics, []⟩
  | some exc => exact counters_read chunks ⟨[], [], metrics, []⟩

theorem metrics_toolsStep (r : Run) (outcomes : Nat → ToolOutcome) :
    (toolsStep g r outcomes).metrics = (r.pass g).2.metrics := by
  unfold toolsStep
  split <;> rfl

/-- Outside the tools node and `resume()` the counters stay as they are. -/
theorem counters_step {r next : Run} {a : Act} (h : r.step g a = some next)
    (htools : ∀ outcomes, a ≠ .tools outcomes) (hresume : ∀ id approved, a ≠ .resume id approved)
    (hmessage : ∀ input, a ≠ .message input) :
    next.metrics.signatures = r.metrics.signatures ∧
      next.metrics.policyState = r.metrics.policyState := by
  cases a with
  | compact summary =>
      obtain ⟨-, rfl⟩ := Run.step_compact h
      unfold compactStep
      split
      · exact ⟨rfl, rfl⟩
      · split <;> exact ⟨rfl, rfl⟩
  | reply chunks error =>
      obtain ⟨-, rfl⟩ := Run.step_reply h
      exact counters_agentNode r.state r.metrics chunks error
  | tools outcomes => exact absurd rfl (htools outcomes)
  | limit =>
      obtain ⟨-, rfl⟩ := Run.step_limit h
      exact ⟨rfl, rfl⟩
  | resume id approved => exact absurd rfl (hresume id approved)
  | message input => exact absurd rfl (hmessage input)

/-- A step that is no `resume()`: the turn goes on in the same stream. -/
def Unpaused (_ : Turn) (a : Act) : Prop := ∀ id approved, a ≠ .resume id approved

theorem Turn.Counted.step {a : Act} (h : t.Counted g) (hguard : Unpaused t a)
    (hstep : t.step g a = some t') : t'.Counted g := by
  obtain ⟨hrun, hlog, hcontinues⟩ := turn_step hstep
  by_cases htools : ∃ outcomes, a = .tools outcomes
  · obtain ⟨outcomes, rfl⟩ := htools
    obtain ⟨-, hnext⟩ := Run.step_tools hrun
    have hmetrics : t'.run.metrics = (t.run.pass g).2.metrics := by
      rw [← hnext]
      exact metrics_toolsStep t.run outcomes
    constructor
    · intro hmax
      rw [hlog, hmetrics]
      exact (counts_searches hmax).counted_pass t (h.searches hmax)
    · intro hlimit signature
      rw [hlog, hmetrics]
      exact (counts_signatures hlimit signature).counted_pass t (h.repeats hlimit signature)
  · have ha : ∀ outcomes, a ≠ .tools outcomes := fun outcomes heq => htools ⟨outcomes, heq⟩
    have hmessage : ∀ input, a ≠ .message input := by
      rintro input rfl
      exact absurd hcontinues Bool.false_ne_true
    obtain ⟨hsignatures, hpolicy⟩ := counters_step hrun ha hguard hmessage
    constructor
    · intro hmax
      rw [hlog, hpolicy, countP_entries (fun _ => rfl) rfl rfl ha]
      exact h.searches hmax
    · intro hlimit signature
      rw [hlog, hsignatures, countP_entries (fun _ => rfl) rfl rfl ha]
      exact h.repeats hlimit signature

/-- A turn without a pause keeps to its limits. -/
theorem withinLimits_of_unpaused (h : (turnSystem g).ReachableWithin Unpaused t) :
    t.WithinLimits g := by
  have hboth : t.Bounded g ∧ t.Counted g := by
    apply h.invariant
    · intro t ht
      refine ⟨bounded_init ht, ?_⟩
      obtain ⟨state, input, rfl⟩ := ht
      exact ⟨fun _ => Nat.zero_le _, fun _ _ => Nat.zero_le _⟩
    · intro t a t' ht hguard hstep
      exact ⟨ht.1.step (fun _ _ => ht.2.remembered) hstep, ht.2.step hguard hstep⟩
  exact hboth.1.withinLimits

/-- A call of the search. -/
def searchCall : ToolCall := ⟨some "c1", "web_search", [("query", .str "weather")]⟩

/-- A configuration that allows one search, and each call once. -/
def strictGraph : Graph :=
  { defaultGraph with
    config := { defaultConfig with repeatToolCallLimit := 1, maxCallsPerRun := 1 } }

theorem turn_reachable {guard : Turn → Act → Prop} (acts : List Act)
    (hexec : (turnSystem g).exec ⟨.start (({} : AgentState).writeInput (textInput "hi")), []⟩ acts =
      some t)
    (hmeets : (turnSystem g).Meets guard ⟨.start (({} : AgentState).writeInput (textInput "hi")), []⟩
      acts) :
    (turnSystem g).ReachableWithin guard t :=
  ⟨_, acts, ⟨{}, textInput "hi", rfl⟩, Transition.System.run_of_exec hexec hmeets⟩

/-- An approved shell call is executed in the one turn that asks for it. -/
theorem withinLimits_list : ∃ t,
    (turnSystem defaultGraph).ReachableWithin (RemembersCalls defaultGraph) t ∧
      t.log = [.replied [listCall], .executed "shell" listCall.args] ∧
      t.WithinLimits defaultGraph := by
  have hreach : (turnSystem defaultGraph).ReachableWithin (RemembersCalls defaultGraph) _ :=
    turn_reachable [.compact (.ok ""), .reply [{ toolCalls := [listCall] }] none,
      .tools fun _ => .returned .null, .resume "c1" true, .tools fun _ => .returned .null] rfl (by
        refine Transition.System.meets_cons rfl nofun ?_
        refine Transition.System.meets_cons rfl nofun ?_
        refine Transition.System.meets_cons rfl ?_ ?_
        · intro outcomes _
          exact ⟨fun _ _ => Nat.zero_le _, fun _ _ _ _ _ => Nat.zero_le _⟩
        refine Transition.System.meets_cons rfl nofun ?_
        refine Transition.System.meets_cons rfl ?_ trivial
        intro outcomes _
        exact ⟨fun _ _ => Nat.zero_le _, fun _ _ _ _ _ => Nat.zero_le _⟩)
  exact ⟨_, hreach, rfl, withinLimits_of_remembersCalls hreach⟩

/-- The pass after an approval searches again, beyond both limits. -/
theorem approval_forgets_counters : ∃ t, (turnSystem strictGraph).Reachable t ∧
    t.log = [.replied [searchCall, removeCall], .executed "web_search" searchCall.args,
      .executed "web_search" searchCall.args, .executed "shell" removeCall.args] ∧
      ¬ t.WithinLimits strictGraph ∧
      ¬ AtMost 1 (TurnEntry.Repeats "web_search" searchCall.args) t.log := by
  have hreach : (turnSystem strictGraph).Reachable _ :=
    turn_reachable [.compact (.ok ""), .reply [{ toolCalls := [searchCall, removeCall] }] none,
      .tools fun _ => .returned .null, .resume "c2" true, .tools fun _ => .returned .null] rfl
        (Transition.System.meets_true _ _)
  have hsub : [TurnEntry.executed "web_search" searchCall.args,
      .executed "web_search" searchCall.args].Sublist
        [.replied [searchCall, removeCall], .executed "web_search" searchCall.args,
          .executed "web_search" searchCall.args, .executed "shell" removeCall.args] :=
    ((List.nil_sublist [TurnEntry.executed "shell" removeCall.args]).cons_cons _).cons_cons _
      |>.cons _
  refine ⟨_, hreach, rfl, fun h => ?_, fun h => ?_⟩
  · have htwo := h.searches (by decide) _ hsub (by simp [TurnEntry.isSearch])
    exact absurd htwo (by decide)
  · have htwo := h _ hsub (by simp [TurnEntry.Repeats, Args.SameUpToOrder])
    exact absurd htwo (by decide)

end Runs

end GraphAgent
