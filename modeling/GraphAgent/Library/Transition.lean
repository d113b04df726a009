import Mathlib.Logic.Basic

/-!
# Transition systems and guarded runs

A system is a set of first states and a partial step function: `step s a` is
`none` where the action `a` cannot be taken in `s`. A run may carry a guard, a
condition on the state before a step and on the action taken there. Invariants
are proved once for guarded runs; an unguarded run is the guard that is always
true.
-/

namespace Transition

universe u v

/-- A transition system: its first states, and a step for each enabled action. -/
structure System (S : Type u) (A : Type v) where
  init : S → Prop
  step : S → A → Option S

namespace System

variable {S : Type u} {A : Type v} (sys : System S A)

/-- From the first state the listed actions lead to the last one, each of them
taken in a state in which the guard allows it. -/
inductive Run (guard : S → A → Prop) : S → List A → S → Prop
  | nil (s : S) : Run guard s [] s
  | snoc {s t u : S} {as : List A} {a : A} (run : Run guard s as t) (allowed : guard t a)
      (taken : sys.step t a = some u) : Run guard s (as ++ [a]) u

/-- The states that some run reaches whose steps all meet the guard. -/
def ReachableWithin (guard : S → A → Prop) (t : S) : Prop :=
  ∃ s as, sys.init s ∧ sys.Run guard s as t

/-- The states reached by any run at all. -/
def Reachable (t : S) : Prop := sys.ReachableWithin (fun _ _ => True) t

variable {sys}

/-- A property of the first states that every allowed step preserves holds at
the end of every run. -/
theorem Run.preserves {guard : S → A → Prop} {I : S → Prop} {s t : S} {as : List A}
    (run : sys.Run guard s as t) (hs : I s)
    (hstep : ∀ s a t, I s → guard s a → sys.step s a = some t → I t) : I t := by
  induction run with
  | nil => exact hs
  | snoc _ allowed taken ih => exact hstep _ _ _ ih allowed taken

/-- The invariant rule for the states that guarded runs reach. -/
theorem ReachableWithin.invariant {guard : S → A → Prop} {I : S → Prop} {t : S}
    (h : sys.ReachableWithin guard t) (hinit : ∀ s, sys.init s → I s)
    (hstep : ∀ s a t, I s → guard s a → sys.step s a = some t → I t) : I t := by
  obtain ⟨s, as, hs, run⟩ := h
  exact run.preserves (hinit s hs) hstep

section Termination

variable (sys)

/-- Whatever allowed steps are taken from a state, they come to a state with the
property: one step is allowed until then, and no run goes on forever before. -/
inductive Inevitable (guard : S → A → Prop) (P : S → Prop) : S → Prop
  | now {s : S} (holds : P s) : Inevitable guard P s
  | later {s : S} (enabled : ∃ a t, guard s a ∧ sys.step s a = some t)
      (next : ∀ a t, guard s a → sys.step s a = some t → Inevitable guard P t) :
      Inevitable guard P s

variable {sys}

/-- The ranking rule: where an invariant leaves a step to take until the property
holds, and every step lowers a well-founded rank, the property is inevitable. -/
theorem inevitable_of_rank {R : Type*} {lt : R → R → Prop} (hwf : WellFounded lt) (rank : S → R)
    {guard : S → A → Prop} {I P : S → Prop}
    (hkeep : ∀ s a t, I s → guard s a → sys.step s a = some t → I t)
    (hprogress : ∀ s, I s → P s ∨ ∃ a t, guard s a ∧ sys.step s a = some t)
    (hlower : ∀ s a t, I s → guard s a → sys.step s a = some t → lt (rank t) (rank s))
    {s : S} (hs : I s) : sys.Inevitable guard P s := by
  induction hr : rank s using hwf.induction generalizing s with
  | h r ih =>
      subst hr
      rcases hprogress s hs with hnow | henabled
      · exact .now hnow
      · refine .later henabled fun a t hguard hstep => ?_
        exact ih (rank t) (hlower s a t hs hguard hstep) (hkeep s a t hs hguard hstep) rfl

end Termination

section Execution

variable (sys)

/-- Take the listed actions one after the other, as far as they are enabled. -/
def exec (s : S) : List A → Option S
  | [] => some s
  | a :: rest => (sys.step s a).bind fun t => exec t rest

/-- Every listed action is taken in a state in which the guard allows it. -/
def Meets (guard : S → A → Prop) (s : S) : List A → Prop
  | [] => True
  | a :: rest => guard s a ∧ ∀ t, sys.step s a = some t → Meets guard t rest

variable {sys}

theorem exec_cons {s t : S} {a : A} (taken : sys.step s a = some t) (rest : List A) :
    sys.exec s (a :: rest) = sys.exec t rest := by
  rw [exec, taken, Option.bind_some]

theorem exec_append (s : S) (as bs : List A) :
    sys.exec s (as ++ bs) = (sys.exec s as).bind fun t => sys.exec t bs := by
  induction as generalizing s with
  | nil => rfl
  | cons a rest ih =>
      simp only [List.cons_append, exec, Option.bind_assoc]
      exact Option.bind_congr fun t _ => ih t

theorem meets_cons {guard : S → A → Prop} {s t : S} {a : A} {rest : List A}
    (taken : sys.step s a = some t) (allowed : guard s a) (h : sys.Meets guard t rest) :
    sys.Meets guard s (a :: rest) :=
  ⟨allowed, fun u hu => by obtain rfl := Option.some.inj (taken.symm.trans hu); exact h⟩

theorem run_of_exec_append {guard : S → A → Prop} {s t u : S} {done as : List A}
    (run : sys.Run guard s done t) (hexec : sys.exec t as = some u)
    (hmeets : sys.Meets guard t as) : sys.Run guard s (done ++ as) u := by
  induction as generalizing done t with
  | nil =>
      obtain rfl : t = u := Option.some.inj hexec
      simpa using run
  | cons a rest ih =>
      obtain ⟨v, taken, hexec⟩ := Option.bind_eq_some_iff.mp hexec
      have htail := ih (Run.snoc run hmeets.1 taken) hexec (hmeets.2 v taken)
      simpa [List.append_assoc] using htail

/-- An execution whose steps meet the guard is a guarded run. -/
theorem run_of_exec {guard : S → A → Prop} {s t : S} {as : List A}
    (hexec : sys.exec s as = some t) (hmeets : sys.Meets guard s as) : sys.Run guard s as t :=
  run_of_exec_append (Run.nil s) hexec hmeets

theorem meets_true (s : S) (as : List A) : sys.Meets (fun _ _ => True) s as := by
  induction as generalizing s with
  | nil => trivial
  | cons a rest ih => exact ⟨trivial, fun t _ => ih t⟩

/-- Where taking a step keeps a property exactly if the guard allows the step, the steps
of an execution all meet the guard exactly if the property holds at every point of it. -/
theorem meets_iff_of_step {guard : S → A → Prop} {I : S → Prop}
    (hstep : ∀ s a t, sys.step s a = some t → I s → (I t ↔ guard s a)) {s u : S} {as : List A}
    (hs : I s) (hexec : sys.exec s as = some u) :
    sys.Meets guard s as ↔ ∀ bs, bs <+: as → ∀ t, sys.exec s bs = some t → I t := by
  induction as generalizing s with
  | nil =>
      refine ⟨fun _ bs hbs t ht => ?_, fun _ => trivial⟩
      obtain rfl := List.prefix_nil.1 hbs
      obtain rfl : s = t := Option.some.inj ht
      exact hs
  | cons a rest ih =>
      obtain ⟨v, taken, hrest⟩ := Option.bind_eq_some_iff.mp hexec
      constructor
      · intro hmeets bs hbs t ht
        cases bs with
        | nil =>
            obtain rfl : s = t := Option.some.inj ht
            exact hs
        | cons b bs =>
            obtain ⟨rfl, hrestbs⟩ := List.cons_prefix_cons.1 hbs
            obtain ⟨w, htaken, ht⟩ := Option.bind_eq_some_iff.mp ht
            obtain rfl := Option.some.inj (taken.symm.trans htaken)
            have hv := (hstep _ _ _ taken hs).2 hmeets.1
            exact (ih hv hrest).1 (hmeets.2 v taken) bs hrestbs t ht
      · intro hall
        have hv : I v := hall [a] (by simp) v (exec_cons taken [])
        refine meets_cons taken ((hstep _ _ _ taken hs).1 hv) ((ih hv hrest).2 ?_)
        intro bs hbs t ht
        have hexec : sys.exec s (a :: bs) = some t := (exec_cons taken bs).trans ht
        exact hall (a :: bs) (List.cons_prefix_cons.2 ⟨rfl, hbs⟩) t hexec

/-- Every executed list of actions ends in a reachable state. -/
theorem reachable_of_exec {s t : S} (as : List A) (hs : sys.init s)
    (hexec : sys.exec s as = some t) : sys.Reachable t :=
  ⟨s, as, hs, run_of_exec hexec (meets_true s as)⟩

end Execution

end System

end Transition
