import GraphAgent.Library.Transition
import Mathlib.Logic.Function.Basic
import Mathlib.Order.Nat
import Std.Data.String.ToNat

/-!
# The session manager over several process lives

`SessionManager` hands out one shared thread and resets it, on request or after
an idle time. Its generation counter starts anew with every process; the
checkpoints of the store survive. A run writes only to threads that its own
process has handed out.
-/

namespace GraphAgent

/-- `SHARED_SESSION_KEY`. -/
def sharedSessionKey : String := "shared"

structure Session where
  generation : Nat
  lastSeen : Int

structure SessionManager where
  ttlSeconds : Option Int
  session : Option Session

namespace SessionManager

/-- `SessionManager.__init__`: no time to live when `ttl_minutes` is None or zero. -/
def make (ttlMinutes : Option Int) : SessionManager where
  ttlSeconds := (ttlMinutes.filter (· ≠ 0)).map (· * 60)
  session := none

/-- `_thread`. -/
def thread (generation : Nat) : String := sharedSessionKey ++ ":" ++ Nat.repr generation

/-- `_expired`. -/
def expired (manager : SessionManager) (session : Session) (now : Int) : Bool :=
  match manager.ttlSeconds with
  | none => false
  | some ttl => now - session.lastSeen > ttl

/-- The generation whose thread `reset` deletes from the store. -/
def purgedGeneration (manager : SessionManager) : Nat :=
  match manager.session with
  | none => 1
  | some previous => previous.generation

/-- The generation that `reset` starts. -/
def nextGeneration (manager : SessionManager) : Nat :=
  match manager.session with
  | none => 1
  | some previous => previous.generation + 1

/-- `_session = _Session(generation, last_seen)`. -/
def enter (manager : SessionManager) (generation : Nat) (now : Int) : SessionManager :=
  { manager with session := some ⟨generation, now⟩ }

end SessionManager

/-- The threads that have a checkpoint. -/
abbrev ThreadStore := String → Bool

/-- `delete_thread`. -/
def ThreadStore.delete (store : ThreadStore) (thread : String) : ThreadStore :=
  Function.update store thread false

/-- A process with the store it works on: the threads it has handed out so far,
and the thread that its last call returned if that call was a reset. -/
structure World where
  manager : SessionManager
  store : ThreadStore
  issued : List String
  justReset : Option String

namespace World

/-- `SessionManager.reset`. -/
def reset (w : World) (now : Int) : World where
  manager := w.manager.enter w.manager.nextGeneration now
  store := w.store.delete (SessionManager.thread w.manager.purgedGeneration)
  issued := SessionManager.thread w.manager.nextGeneration :: w.issued
  justReset := some (SessionManager.thread w.manager.nextGeneration)

/-- `SessionManager.thread_id` where it does not reset. -/
def stay (w : World) (generation : Nat) (now : Int) : World where
  manager := w.manager.enter generation now
  store := w.store
  issued := SessionManager.thread generation :: w.issued
  justReset := none

/-- `SessionManager.thread_id`. -/
def threadId (w : World) (now : Int) : World :=
  match w.manager.session with
  | none => w.stay 1 now
  | some session =>
      if w.manager.expired session now then w.reset now else w.stay session.generation now

end World

/-- What happens to the process: calls of its session manager at some reading of
the clock, checkpoints that a run writes, and a restart. -/
inductive SessionAction where
  | threadId (now : Int)
  | reset (now : Int)
  | write (thread : String)
  | restart

def sessionStep (w : World) : SessionAction → Option World
  | .threadId now => some (w.threadId now)
  | .reset now => some (w.reset now)
  | .write thread =>
      if thread ∈ w.issued then
        some { w with store := Function.update w.store thread true, justReset := none }
      else none
  | .restart =>
      some ⟨{ w.manager with session := none }, w.store, [], none⟩

/-- Processes over one store that was empty before the first of them. -/
def sessionSystem (ttlMinutes : Option Int) : Transition.System World SessionAction where
  init w := w = ⟨SessionManager.make ttlMinutes, fun _ => false, [], none⟩
  step := sessionStep

/-- The thread that a reset returns has no checkpoint at that moment. -/
def FreshReset (w : World) : Prop := ∀ thread, w.justReset = some thread → w.store thread = false

/-- No thread of a later generation than the first has a checkpoint. -/
def OnlyFirstStored (store : ThreadStore) : Prop :=
  ∀ generation, 2 ≤ generation → store (SessionManager.thread generation) = false

/-- A process restarts only over a store without later generations. -/
def CleanRestart (w : World) (a : SessionAction) : Prop :=
  a = .restart → OnlyFirstStored w.store

namespace SessionManager

theorem thread_injective : Function.Injective thread := by
  intro a b h
  exact Nat.repr_inj.mp ((String.append_right_inj _).mp h)

theorem thread_ne {generation later : Nat} (h : generation < later) :
    thread later ≠ thread generation :=
  thread_injective.ne (Nat.ne_of_gt h)

end SessionManager

open SessionManager

section Invariant

/-- The highest generation that the process has handed out or may hand out
without a reset. -/
def World.current (w : World) : Nat := (w.manager.session.map Session.generation).getD 1

/-- Nothing is stored or issued beyond the current generation. -/
structure Bounded (w : World) : Prop where
  positive : 1 ≤ w.current
  stored : ∀ generation, w.current < generation → w.store (thread generation) = false
  issued : ∀ name ∈ w.issued, ∃ generation ≤ w.current, name = thread generation

theorem stored_delete {store : ThreadStore} {name other : String} (h : store other = false) :
    store.delete name other = false := by
  by_cases heq : other = name
  · simp [ThreadStore.delete, heq]
  · simpa [ThreadStore.delete, heq] using h

theorem current_le_next (w : World) : w.current ≤ w.manager.nextGeneration := by
  unfold World.current nextGeneration
  cases w.manager.session <;> simp

theorem bounded_reset {w : World} (h : Bounded w) (now : Int) : Bounded (w.reset now) where
  positive := h.positive.trans (current_le_next w)
  stored generation hlt :=
    stored_delete (h.stored generation ((current_le_next w).trans_lt hlt))
  issued name hname := by
    rcases List.mem_cons.mp hname with rfl | hold
    · exact ⟨_, le_rfl, rfl⟩
    · obtain ⟨generation, hle, rfl⟩ := h.issued name hold
      exact ⟨generation, hle.trans (current_le_next w), rfl⟩

theorem bounded_stay {w : World} (h : Bounded w) (now : Int) : Bounded (w.stay w.current now) where
  positive := h.positive
  stored := h.stored
  issued name hname := by
    rcases List.mem_cons.mp hname with rfl | hold
    · exact ⟨_, le_rfl, rfl⟩
    · exact h.issued name hold

/-- The thread a reset returns is deleted by it, or lies beyond everything stored. -/
theorem freshReset_reset {w : World} (h : Bounded w) (now : Int) : FreshReset (w.reset now) := by
  intro name hname
  obtain rfl : thread w.manager.nextGeneration = name := Option.some.inj hname
  change w.store.delete (thread w.manager.purgedGeneration) (thread w.manager.nextGeneration) = false
  cases hsession : w.manager.session with
  | none => simp [ThreadStore.delete, purgedGeneration, nextGeneration, hsession]
  | some session =>
      apply stored_delete
      apply h.stored
      simp [World.current, nextGeneration, hsession]

/-- `thread_id` resets, or stays with the current generation. -/
theorem threadId_cases (w : World) (now : Int) :
    w.threadId now = w.reset now ∨ w.threadId now = w.stay w.current now := by
  unfold World.threadId World.current
  cases w.manager.session with
  | none => exact Or.inr rfl
  | some session =>
      dsimp only
      split
      · exact Or.inl rfl
      · exact Or.inr rfl

theorem bounded_step {w w' : World} {a : SessionAction} (h : Bounded w) (hclean : CleanRestart w a)
    (hstep : sessionStep w a = some w') : Bounded w' ∧ FreshReset w' := by
  cases a with
  | threadId now =>
      obtain rfl : w.threadId now = w' := Option.some.inj hstep
      rcases threadId_cases w now with heq | heq <;> rw [heq]
      · exact ⟨bounded_reset h now, freshReset_reset h now⟩
      · exact ⟨bounded_stay h now, nofun⟩
  | reset now =>
      obtain rfl : w.reset now = w' := Option.some.inj hstep
      exact ⟨bounded_reset h now, freshReset_reset h now⟩
  | write name =>
      simp only [sessionStep, Option.ite_none_right_eq_some, Option.some.injEq] at hstep
      obtain ⟨hissued, rfl⟩ := hstep
      obtain ⟨written, hle, rfl⟩ := h.issued name hissued
      refine ⟨⟨h.positive, fun generation hlt => ?_, h.issued⟩, nofun⟩
      have hne : thread generation ≠ thread written := thread_ne (hle.trans_lt hlt)
      simpa [Function.update_of_ne hne] using h.stored generation hlt
  | restart =>
      obtain rfl := Option.some.inj hstep
      exact ⟨⟨le_rfl, fun generation hlt => hclean rfl generation hlt, by simp⟩, nofun⟩

end Invariant

section Stale

/-- A reset leaves the later generations of the store alone. -/
theorem store_reset {w : World} {session : Session} (hsession : w.manager.session = some session)
    {later : Nat} (h : session.generation < later) (now : Int) :
    (w.reset now).store (thread later) = w.store (thread later) := by
  have hne : thread later ≠ thread session.generation := thread_ne h
  simp [World.reset, ThreadStore.delete, purgedGeneration, hsession, hne]

/-- Resets that follow each other, one for each generation. -/
theorem exec_resets (ttlMinutes : Option Int) (count : Nat) {w : World} {g : Nat}
    (hsession : w.manager.session = some ⟨g, 0⟩) :
    ∃ w', (sessionSystem ttlMinutes).exec w (List.replicate (count + 1) (.reset 0)) = some w' ∧
      w'.manager.session = some ⟨g + count + 1, 0⟩ ∧
      w'.justReset = some (thread (g + count + 1)) ∧
      ∀ generation, g + count < generation → w'.store (thread generation) = w.store (thread generation) := by
  induction count generalizing w g with
  | zero =>
      refine ⟨w.reset 0, rfl, ?_, ?_, fun generation hlt => store_reset hsession hlt 0⟩
      · simp [World.reset, SessionManager.enter, nextGeneration, hsession]
      · simp [World.reset, nextGeneration, hsession]
  | succ count ih =>
      have hnext : (w.reset 0).manager.session = some ⟨g + 1, 0⟩ := by
        simp [World.reset, SessionManager.enter, nextGeneration, hsession]
      obtain ⟨w', hexec, hlast, hjust, hkept⟩ := ih hnext
      refine ⟨w', ?_, by rw [hlast]; congr 2; omega, by rw [hjust]; congr 2; omega, ?_⟩
      · rw [List.replicate_succ]
        exact hexec
      · intro generation hlt
        have hlater : g < generation := by omega
        rw [hkept generation (by omega)]
        exact store_reset hsession hlater 0

/-- A restart over a store with a later generation can be continued to a reset
that returns this generation's thread, checkpoints and all. -/
theorem stale_reset_of_restart (ttlMinutes : Option Int) {w : World}
    (h : ¬ OnlyFirstStored w.store) :
    ∃ as w', (sessionSystem ttlMinutes).exec w (.restart :: as) = some w' ∧ ¬ FreshReset w' := by
  simp only [OnlyFirstStored, not_forall, Bool.not_eq_false] at h
  obtain ⟨generation, hlater, hstored⟩ := h
  let started : World := World.threadId ⟨{ w.manager with session := none }, w.store, [], none⟩ 0
  have hstarted : started.manager.session = some ⟨1, 0⟩ := rfl
  obtain ⟨w', hexec, -, hjust, hkept⟩ :=
    exec_resets ttlMinutes (generation - 2) hstarted
  have hgeneration : 1 + (generation - 2) + 1 = generation := by omega
  rw [hgeneration] at hjust
  refine ⟨.threadId 0 :: List.replicate (generation - 2 + 1) (.reset 0), w', hexec, fun hfresh => ?_⟩
  have hsame : w'.store (thread generation) = w.store (thread generation) :=
    hkept generation (by omega)
  have hempty := hfresh _ hjust
  rw [hsame, hstored] at hempty
  exact absurd hempty (by decide)

end Stale

/-- While every restart finds no later generation in the store, every reset
returns a thread without a checkpoint; after any other restart some calls lead
to a reset that does not. -/
theorem freshReset_of_cleanRestart (ttlMinutes : Option Int) :
    (∀ w, (sessionSystem ttlMinutes).ReachableWithin CleanRestart w → FreshReset w) ∧
      ∀ w, ¬ CleanRestart w .restart →
        ∃ as w', (sessionSystem ttlMinutes).exec w (.restart :: as) = some w' ∧
          ¬ FreshReset w' := by
  constructor
  · intro w h
    refine (h.invariant (I := fun w => Bounded w ∧ FreshReset w) ?_ ?_).2
    · rintro w rfl
      exact ⟨⟨le_rfl, fun _ _ => rfl, by simp⟩, nofun⟩
    · intro w a w' hw hclean hstep
      exact bounded_step hw.1 hclean hstep
  · intro w h
    exact stale_reset_of_restart ttlMinutes fun honly => h fun _ => honly

/-- A first life that only writes to `shared:1`, a restart, and a reset. -/
theorem freshReset_after_restart :
    ∃ w, (sessionSystem (some 60)).ReachableWithin CleanRestart w ∧
      w.justReset = some "shared:2" ∧ FreshReset w := by
  have hclean : OnlyFirstStored (Function.update (fun _ => false) (thread 1) true) := by
    intro generation hlater
    have hne : thread generation ≠ thread 1 := thread_ne hlater
    simp [Function.update_of_ne hne]
  have hreach : (sessionSystem (some 60)).ReachableWithin CleanRestart _ :=
    ⟨_, [.threadId 0, .write (thread 1), .restart, .threadId 5, .reset 6], rfl,
      Transition.System.run_of_exec rfl
        (Transition.System.meets_cons rfl nofun
          (Transition.System.meets_cons rfl nofun
            (Transition.System.meets_cons rfl (fun _ => hclean)
              (Transition.System.meets_cons rfl nofun
                (Transition.System.meets_cons rfl nofun trivial)))))⟩
  exact ⟨_, hreach, rfl, (freshReset_of_cleanRestart (some 60)).1 _ hreach⟩

/-- A second life resets to a thread that the first one has left behind. -/
theorem reset_returns_stored_thread :
    ∃ w, (sessionSystem none).Reachable w ∧ w.justReset = some "shared:2" ∧
      w.store "shared:2" = true := by
  refine ⟨_, Transition.System.reachable_of_exec
    [.threadId 0, .reset 1, .write "shared:2", .restart, .threadId 0, .reset 1] rfl rfl, rfl, ?_⟩
  decide

end GraphAgent
