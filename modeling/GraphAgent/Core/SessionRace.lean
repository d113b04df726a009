import GraphAgent.Core.Sessions

/-!
# The session manager under concurrent calls

`reset` reads the session, awaits the purge of its thread, and only then
publishes the next generation. Other calls of the same manager run in between.
A call that is given up takes no further step.
-/

namespace GraphAgent

open SessionManager

/-- A `reset()` in flight: the generation it has read, whether its purge has been
carried out, whether an expiry in `thread_id()` has called it, and the
generations that had been returned when it began. -/
structure ResetCall where
  previous : Option Nat
  purged : Bool
  expiry : Bool
  returnedBefore : List Nat

/-- The generation that a reset publishes. -/
def ResetCall.next (c : ResetCall) : Nat :=
  match c.previous with
  | none => 1
  | some generation => generation + 1

structure CompletedReset where
  generation : Nat
  returnedBefore : List Nat

/-- What a call of `thread_id()` returned, with the generations that resets of an
existing session had purged by then. -/
structure IssuedThread where
  generation : Nat
  purgedBefore : List Nat

/-- A manager with the resets in flight and what its calls have done so far. -/
structure SharedManager where
  manager : SessionManager
  calls : Nat → Option ResetCall
  returned : List Nat
  purged : List Nat
  completed : List CompletedReset
  issued : List IssuedThread

namespace SharedManager

/-- `reset` up to its `await`. -/
def begin (w : SharedManager) (call : Nat) (expiry : Bool) : SharedManager :=
  { w with
    calls := Function.update w.calls call
      (some ⟨w.manager.session.map Session.generation, false, expiry, w.returned⟩) }

/-- The store carries out a `delete_thread`. -/
def purge (w : SharedManager) (call : Nat) (c : ResetCall) : SharedManager :=
  { w with
    calls := Function.update w.calls call (some { c with purged := true })
    purged := c.previous.toList ++ w.purged }

/-- `reset` after its `await`. -/
def finish (w : SharedManager) (call : Nat) (c : ResetCall) (now : Int) : SharedManager :=
  { w with
    manager := w.manager.enter c.next now
    calls := Function.update w.calls call none
    returned := c.next :: w.returned
    completed := ⟨c.next, c.returnedBefore⟩ :: w.completed
    issued := if c.expiry then ⟨c.next, w.purged⟩ :: w.issued else w.issued }

/-- `thread_id` where it does not reset. -/
def hand (w : SharedManager) (generation : Nat) (now : Int) : SharedManager :=
  { w with
    manager := w.manager.enter generation now
    returned := generation :: w.returned
    issued := ⟨generation, w.purged⟩ :: w.issued }

/-- `thread_id` up to its end, or up to the `await` of the reset it makes. -/
def threadId (w : SharedManager) (call : Nat) (now : Int) : SharedManager :=
  match w.manager.session with
  | none => w.hand 1 now
  | some session =>
      if w.manager.expired session now then w.begin call true else w.hand session.generation now

end SharedManager

/-- The steps of the calls. A call has a name of its own while it is in flight. -/
inductive CallStep where
  | threadId (call : Nat) (now : Int)
  | reset (call : Nat)
  | purge (call : Nat)
  | finish (call : Nat) (now : Int)

def SharedManager.step (w : SharedManager) : CallStep → Option SharedManager
  | .threadId call now => if (w.calls call).isNone then some (w.threadId call now) else none
  | .reset call => if (w.calls call).isNone then some (w.begin call false) else none
  | .purge call =>
      (w.calls call).bind fun c => if c.purged then none else some (w.purge call c)
  | .finish call now =>
      (w.calls call).bind fun c => if c.purged then some (w.finish call c now) else none

/-- The interleavings of the calls of one manager. -/
def sharedSystem (ttlMinutes : Option Int) : Transition.System SharedManager CallStep where
  init w := w = ⟨SessionManager.make ttlMinutes, fun _ => none, [], [], [], []⟩
  step := SharedManager.step

/-- Resets move on from all that was returned before them, no two of them return
the same thread, and `thread_id()` returns no thread that was purged before. -/
structure MovesOn (w : SharedManager) : Prop where
  later : ∀ c ∈ w.completed, ∀ generation ∈ c.returnedBefore, generation < c.generation
  distinct : (w.completed.map fun c => thread c.generation).Nodup
  unpurged : ∀ i ∈ w.issued, thread i.generation ∉ i.purgedBefore.map thread

/-- A reset publishes while the session it has read is still the current one, or
while no reset has completed if it has read none; and `thread_id()` hands the
current thread out while no reset has purged it without having published. -/
def Undisturbed (w : SharedManager) : CallStep → Prop
  | .finish call _ => ∀ c, w.calls call = some c →
      (c.previous = none → w.completed = []) ∧
        ∀ generation, c.previous = some generation →
          w.manager.session.map Session.generation = some generation
  | .threadId _ now => ∀ session, w.manager.session = some session →
      w.manager.expired session now = false →
        ∀ call c, w.calls call = some c → c.previous = some session.generation → c.purged = false
  | _ => True

section Invariant

variable {w w' : SharedManager}

/-- The current generation, or zero before there is a session. -/
def SharedManager.top (w : SharedManager) : Nat := (w.manager.session.map Session.generation).getD 0

/-- What holds between the calls of a manager. -/
structure Settled (w : SharedManager) : Prop where
  returned : ∀ generation ∈ w.returned, generation ≤ w.top
  calls : ∀ call c, w.calls call = some c → c.previous.getD 0 ≤ w.top ∧
    (∀ generation ∈ c.returnedBefore, generation ≤ c.previous.getD 0) ∧
    (c.expiry = true → c.previous ≠ none)
  completed : ∀ c ∈ w.completed, c.generation ≤ w.top
  fresh : w.completed = [] → w.top ≤ 1
  purged : ∀ generation ∈ w.purged, generation ≤ w.top ∧ (generation = w.top →
    ∃ call c, w.calls call = some c ∧ c.previous = some generation ∧ c.purged = true)
  movesOn : MovesOn w

theorem next_eq (c : ResetCall) : c.next = c.previous.getD 0 + 1 := by
  unfold ResetCall.next
  cases c.previous <;> rfl

theorem not_mem_map_thread {generation : Nat} {purged : List Nat} (h : generation ∉ purged) :
    thread generation ∉ purged.map thread := by
  intro hmem
  obtain ⟨other, hother, heq⟩ := List.mem_map.mp hmem
  exact h (thread_injective heq ▸ hother)

theorem settled_init {ttlMinutes : Option Int} (h : (sharedSystem ttlMinutes).init w) :
    Settled w := by
  obtain rfl := h
  exact
    { returned := nofun
      calls := nofun
      completed := nofun
      fresh := fun _ => Nat.zero_le _
      purged := nofun
      movesOn := ⟨nofun, List.nodup_nil, nofun⟩ }

theorem Settled.hand (h : Settled w) {generation : Nat} (hle : w.top ≤ generation)
    (hfresh : w.completed = [] → generation ≤ 1) (hpurged : generation ∉ w.purged) (now : Int) :
    Settled (w.hand generation now) where
  returned g hg := by
    rcases List.mem_cons.mp hg with rfl | hold
    · exact Nat.le_refl _
    · exact (h.returned g hold).trans hle
  calls call c hc := ⟨(h.calls call c hc).1.trans hle, (h.calls call c hc).2⟩
  completed c hc := (h.completed c hc).trans hle
  fresh := hfresh
  purged g hg := by
    refine ⟨(h.purged g hg).1.trans hle, ?_⟩
    rintro rfl
    exact absurd hg hpurged
  movesOn :=
    { later := h.movesOn.later
      distinct := h.movesOn.distinct
      unpurged := by
        intro i hi
        rcases List.mem_cons.mp hi with rfl | hold
        · exact not_mem_map_thread hpurged
        · exact h.movesOn.unpurged i hold }

theorem Settled.begin (h : Settled w) {call : Nat} (hfree : w.calls call = none) {expiry : Bool}
    (hsession : expiry = true → w.manager.session ≠ none) : Settled (w.begin call expiry) where
  returned := h.returned
  calls other c hc := by
    by_cases heq : other = call
    · subst heq
      simp only [SharedManager.begin, Function.update_self, Option.some.injEq] at hc
      subst hc
      refine ⟨Nat.le_refl _, h.returned, fun hexpiry hnone => hsession hexpiry ?_⟩
      exact Option.map_eq_none_iff.mp hnone
    · simp only [SharedManager.begin, Function.update_of_ne heq] at hc
      exact h.calls other c hc
  completed := h.completed
  fresh := h.fresh
  purged g hg := by
    refine ⟨(h.purged g hg).1, fun htop => ?_⟩
    obtain ⟨other, c, hc, hboth⟩ := (h.purged g hg).2 htop
    have hne : other ≠ call := by
      rintro rfl
      exact nomatch hfree.symm.trans hc
    exact ⟨other, c, (Function.update_of_ne hne _ _).trans hc, hboth⟩
  movesOn := ⟨h.movesOn.later, h.movesOn.distinct, h.movesOn.unpurged⟩

theorem Settled.purge (h : Settled w) {call : Nat} {c : ResetCall} (hc : w.calls call = some c) :
    Settled (w.purge call c) where
  returned := h.returned
  calls other c' hc' := by
    by_cases heq : other = call
    · subst heq
      simp only [SharedManager.purge, Function.update_self, Option.some.injEq] at hc'
      subst hc'
      exact h.calls other c hc
    · simp only [SharedManager.purge, Function.update_of_ne heq] at hc'
      exact h.calls other c' hc'
  completed := h.completed
  fresh := h.fresh
  purged g hg := by
    have hself : (w.purge call c).calls call = some { c with purged := true } :=
      Function.update_self _ _ _
    rcases List.mem_append.mp hg with hnew | hold
    · have hprevious : c.previous = some g := Option.mem_toList.mp hnew
      have hle := (h.calls call c hc).1
      rw [hprevious] at hle
      exact ⟨hle, fun _ => ⟨call, _, hself, hprevious, rfl⟩⟩
    · refine ⟨(h.purged g hold).1, fun htop => ?_⟩
      obtain ⟨other, c', hc', hprevious, hpurged⟩ := (h.purged g hold).2 htop
      by_cases heq : other = call
      · subst heq
        obtain rfl : c = c' := Option.some.inj (hc.symm.trans hc')
        exact ⟨other, _, hself, hprevious, rfl⟩
      · exact ⟨other, c', (Function.update_of_ne heq _ _).trans hc', hprevious, hpurged⟩
  movesOn := ⟨h.movesOn.later, h.movesOn.distinct, h.movesOn.unpurged⟩

/-- What a reset publishes is later than all that was completed, and another reset
in flight may have purged it only if the reset began without a session. -/
structure Publishes (w : SharedManager) (call : Nat) (c : ResetCall) : Prop where
  top : w.top ≤ c.next
  completed : ∀ done ∈ w.completed, done.generation < c.next
  purged : ∀ generation ∈ w.purged, generation ≤ c.next ∧ (generation = c.next →
    c.expiry = false ∧ ∃ other c', other ≠ call ∧ w.calls other = some c' ∧
      c'.previous = some generation ∧ c'.purged = true)

theorem Settled.publishes (h : Settled w) {call : Nat} {c : ResetCall}
    (hc : w.calls call = some c) {now : Int} (hguard : Undisturbed w (.finish call now)) :
    Publishes w call c := by
  obtain ⟨hcold, hwarm⟩ := hguard c hc
  cases hprevious : c.previous with
  | none =>
      have hnext : c.next = 1 := by rw [next_eq, hprevious]; rfl
      have hempty := hcold hprevious
      have htop := h.fresh hempty
      constructor
      case top => omega
      case completed =>
        rw [hempty]
        exact nofun
      case purged =>
        intro generation hg
        obtain ⟨hle, hwitness⟩ := h.purged generation hg
        refine ⟨by omega, fun heq => ?_⟩
        obtain ⟨other, c', hc', hother, hpurged⟩ := hwitness (by omega)
        refine ⟨?_, other, c', ?_, hc', hother, hpurged⟩
        · by_contra hexpiry
          exact (h.calls call c hc).2.2 (Bool.not_eq_false _ ▸ hexpiry) hprevious
        · rintro rfl
          obtain rfl : c = c' := Option.some.inj (hc.symm.trans hc')
          exact nomatch hprevious.symm.trans hother
  | some generation =>
      have hnext : c.next = generation + 1 := by rw [next_eq, hprevious]; rfl
      have htop : w.top = generation := by
        unfold SharedManager.top
        rw [hwarm generation hprevious]
        rfl
      constructor
      case top => omega
      case completed =>
        intro done hdone
        have := h.completed done hdone
        omega
      case purged =>
        intro other hother
        have := (h.purged other hother).1
        exact ⟨by omega, fun heq => absurd heq (by omega)⟩

theorem MovesOn.finish (h : Settled w) {call : Nat} {c : ResetCall} (hc : w.calls call = some c)
    (hnext : Publishes w call c) (now : Int) : MovesOn (w.finish call c now) where
  later done hdone generation hg := by
    rcases List.mem_cons.mp hdone with rfl | hold
    · have hle := (h.calls call c hc).2.1 generation hg
      show generation < c.next
      rw [next_eq]
      omega
    · exact h.movesOn.later done hold generation hg
  distinct := by
    simp only [SharedManager.finish, List.map_cons, List.nodup_cons]
    refine ⟨?_, h.movesOn.distinct⟩
    intro hmem
    obtain ⟨done, hdone, heq⟩ := List.mem_map.mp hmem
    exact absurd (thread_injective heq) (Nat.ne_of_lt (hnext.completed done hdone))
  unpurged := by
    intro i hi
    simp only [SharedManager.finish] at hi
    split at hi
    case isFalse => exact h.movesOn.unpurged i hi
    case isTrue hexpiry =>
      rcases List.mem_cons.mp hi with rfl | hold
      · apply not_mem_map_thread
        intro hmem
        exact absurd hexpiry (by rw [((hnext.purged _ hmem).2 rfl).1]; decide)
      · exact h.movesOn.unpurged i hold

theorem Settled.finish (h : Settled w) {call : Nat} {c : ResetCall} (hc : w.calls call = some c)
    (hnext : Publishes w call c) (now : Int) : Settled (w.finish call c now) where
  returned g hg := by
    rcases List.mem_cons.mp hg with rfl | hold
    · exact Nat.le_refl _
    · exact (h.returned g hold).trans hnext.top
  calls other c' hc' := by
    by_cases heq : other = call
    · subst heq
      simp [SharedManager.finish] at hc'
    · simp only [SharedManager.finish, Function.update_of_ne heq] at hc'
      obtain ⟨hle, hrest⟩ := h.calls other c' hc'
      exact ⟨hle.trans hnext.top, hrest⟩
  completed done hdone := by
    rcases List.mem_cons.mp hdone with rfl | hold
    · exact Nat.le_refl _
    · exact Nat.le_of_lt (hnext.completed done hold)
  fresh := nofun
  purged g hg := by
    obtain ⟨hle, hwitness⟩ := hnext.purged g hg
    refine ⟨hle, fun heq => ?_⟩
    obtain ⟨-, other, c', hne, hc', hboth⟩ := hwitness heq
    exact ⟨other, c', (Function.update_of_ne hne _ _).trans hc', hboth⟩
  movesOn := .finish h hc hnext now

/-- `thread_id()` begins a reset of an expired session, or hands out the thread of
the current session, or the first one. -/
theorem Settled.threadId (h : Settled w) {call : Nat} (hfree : w.calls call = none) {now : Int}
    (hguard : Undisturbed w (.threadId call now)) : Settled (w.threadId call now) := by
  unfold SharedManager.threadId
  cases hsession : w.manager.session with
  | none =>
      have htop : w.top = 0 := by
        unfold SharedManager.top
        rw [hsession]
        rfl
      apply h.hand
      · omega
      · exact fun _ => Nat.le_refl _
      · intro hmem
        have := (h.purged 1 hmem).1
        omega
  | some session =>
      have htop : w.top = session.generation := by
        unfold SharedManager.top
        rw [hsession]
        rfl
      dsimp only
      split
      case isTrue => exact h.begin hfree fun _ => by rw [hsession]; exact Option.some_ne_none _
      case isFalse hvalid =>
        apply h.hand (Nat.le_of_eq htop)
        · intro hempty
          exact htop ▸ h.fresh hempty
        · intro hmem
          obtain ⟨other, c, hc, hprevious, hpurged⟩ := (h.purged _ hmem).2 htop.symm
          have hopen := hguard session hsession (by simpa using hvalid) other c hc hprevious
          exact absurd (hpurged.symm.trans hopen) (by decide)

theorem Settled.step {a : CallStep} (h : Settled w) (hguard : Undisturbed w a)
    (hstep : w.step a = some w') : Settled w' := by
  cases a with
  | threadId call now =>
      simp only [SharedManager.step, Option.ite_none_right_eq_some, Option.some.injEq] at hstep
      obtain ⟨hfree, rfl⟩ := hstep
      exact h.threadId (Option.isNone_iff_eq_none.mp hfree) hguard
  | reset call =>
      simp only [SharedManager.step, Option.ite_none_right_eq_some, Option.some.injEq] at hstep
      obtain ⟨hfree, rfl⟩ := hstep
      exact h.begin (Option.isNone_iff_eq_none.mp hfree) nofun
  | purge call =>
      obtain ⟨c, hc, hnext⟩ := Option.bind_eq_some_iff.mp hstep
      rw [Option.ite_none_left_eq_some, Option.some.injEq] at hnext
      obtain ⟨-, rfl⟩ := hnext
      exact h.purge hc
  | finish call now =>
      obtain ⟨c, hc, hnext⟩ := Option.bind_eq_some_iff.mp hstep
      rw [Option.ite_none_right_eq_some, Option.some.injEq] at hnext
      obtain ⟨-, rfl⟩ := hnext
      exact h.finish hc (h.publishes hc hguard) now

/-- While no call comes between the purge and the publication of a reset, the
resets of a manager move on from everything before them. -/
theorem movesOn_of_undisturbed {ttlMinutes : Option Int}
    (h : (sharedSystem ttlMinutes).ReachableWithin Undisturbed w) : MovesOn w := by
  have hsettled : Settled w := by
    apply h.invariant
    · intro w hw
      exact settled_init hw
    · intro w a w' hw hguard hstep
      exact hw.step hguard hstep
  exact hsettled.movesOn

/-- A reset, its successor, and the thread that is handed out then. -/
theorem movesOn_twice : ∃ w, (sharedSystem (some 60)).ReachableWithin Undisturbed w ∧
    w.returned = [3, 2, 1] ∧ MovesOn w := by
  have hreach : (sharedSystem (some 60)).ReachableWithin Undisturbed _ :=
    ⟨_, [.threadId 0 0, .reset 0, .purge 0, .finish 0 1, .reset 1, .purge 1, .finish 1 2], rfl,
      Transition.System.run_of_exec rfl (by
        refine Transition.System.meets_cons rfl (fun _ hnone => nomatch hnone) ?_
        refine Transition.System.meets_cons rfl trivial ?_
        refine Transition.System.meets_cons rfl trivial ?_
        refine Transition.System.meets_cons rfl ?_ ?_
        · rintro c ⟨⟩
          exact ⟨nofun, fun _ h => h⟩
        refine Transition.System.meets_cons rfl trivial ?_
        refine Transition.System.meets_cons rfl trivial ?_
        refine Transition.System.meets_cons rfl ?_ trivial
        rintro c ⟨⟩
        exact ⟨nofun, fun _ h => h⟩)⟩
  exact ⟨_, hreach, rfl, movesOn_of_undisturbed hreach⟩

/-- Two resets of the first session overlap: both return the second thread, a
reader is handed the purged first one, and a later reset falls behind what was
returned before it began. -/
theorem overlapping_resets : ∃ w, (sharedSystem none).Reachable w ∧
    w.completed.map (fun c => (thread c.generation, c.returnedBefore)) =
      [("shared:3", [2, 3, 2, 1, 1]), ("shared:2", [1]), ("shared:3", [2, 1, 1]),
        ("shared:2", [1])] ∧
      w.issued.map (fun i => (thread i.generation, i.purgedBefore)) =
        [("shared:1", [1]), ("shared:1", [])] ∧
      ¬ MovesOn w := by
  refine ⟨_, Transition.System.reachable_of_exec
    [.threadId 9 0, .reset 0, .reset 1, .purge 0, .threadId 9 0, .finish 0 0, .purge 1,
      .reset 2, .purge 2, .finish 2 0, .finish 1 0, .reset 3, .purge 3, .finish 3 0] rfl rfl,
    rfl, rfl, fun h => ?_⟩
  exact absurd h.distinct (by decide)

end Invariant

end GraphAgent
