import Mathlib.Computability.StateTransition

/-!
# Loops

A loop is a partial step function: it ends in a state that has no step. `run` executes it for
a bounded number of steps. Whether it ends, and whether it ends well, is characterised by what
its steps preserve.
-/

namespace Loop

open StateTransition

universe u

variable {S : Type u} (step : S → Option S)

/-- Take at most the given number of steps: the state in which the loop ends. -/
def run : Nat → S → Option S
  | 0, _ => none
  | fuel + 1, s =>
      match step s with
      | none => some s
      | some t => run fuel t

variable {step}

/-- Enough steps lead to the end that the loop reaches, and to no other state. -/
theorem exists_run_iff {s t : S} :
    (∃ fuel, run step fuel s = some t) ↔ Reaches step s t ∧ step t = none := by
  constructor
  · rintro ⟨fuel, h⟩
    induction fuel generalizing s with
    | zero => cases h
    | succ fuel ih =>
        rw [run] at h
        cases hs : step s with
        | none =>
            obtain rfl : s = t := by simpa [hs] using h
            exact ⟨Relation.ReflTransGen.refl, hs⟩
        | some u =>
            obtain ⟨hreach, hend⟩ := ih (by simpa [hs] using h)
            exact ⟨Relation.ReflTransGen.head hs hreach, hend⟩
  · rintro ⟨hreach, hend⟩
    induction hreach using Relation.ReflTransGen.head_induction_on with
    | refl => exact ⟨1, by simp [run, hend]⟩
    | head hs _ ih =>
        obtain ⟨fuel, h⟩ := ih
        exact ⟨fuel + 1, by simp [run, Option.mem_def.1 hs, h]⟩

/-- What every step keeps holds in every state that is reached. -/
theorem invariant_of_reaches {I : S → Prop} (hkeep : ∀ s t, I s → step s = some t → I t)
    {s t : S} (hs : I s) (h : Reaches step s t) : I t := by
  induction h with
  | refl => exact hs
  | tail _ hstep ih => exact hkeep _ _ ih hstep

/-- Where no step changes whether a condition holds, it holds in every end, and a measure
falls with every step while it holds, the condition decides whether the loop ends. -/
theorem ends_iff {I C : S → Prop} (measure : S → Nat)
    (hkeep : ∀ s t, I s → step s = some t → I t)
    (hsame : ∀ s t, I s → step s = some t → (C t ↔ C s))
    (hend : ∀ s, I s → step s = none → C s)
    (hlower : ∀ s t, I s → C s → step s = some t → measure t < measure s) {s : S} (hs : I s) :
    (∃ fuel t, run step fuel s = some t) ↔ C s := by
  constructor
  · rintro ⟨fuel, t, h⟩
    obtain ⟨hreach, hnone⟩ := exists_run_iff.1 ⟨fuel, h⟩
    have hboth : I t ∧ (C t ↔ C s) := by
      refine invariant_of_reaches (I := fun u => I u ∧ (C u ↔ C s)) ?_ ⟨hs, Iff.rfl⟩ hreach
      rintro u v ⟨hu, hiff⟩ hstep
      exact ⟨hkeep u v hu hstep, (hsame u v hu hstep).trans hiff⟩
    exact hboth.2.1 (hend t hboth.1 hnone)
  · intro hC
    induction hm : measure s using Nat.strongRecOn generalizing s with
    | ind m ih =>
        subst hm
        cases hstep : step s with
        | none => exact ⟨1, s, by simp [run, hstep]⟩
        | some t =>
            obtain ⟨fuel, u, hu⟩ := ih (measure t) (hlower s t hs hC hstep) (hkeep s t hs hstep)
              ((hsame s t hs hstep).2 hC) rfl
            exact ⟨fuel + 1, u, by simp [run, hstep, hu]⟩

/-- Where a step keeps things good exactly if it is allowed, and what has gone wrong stays
wrong, the end is good exactly if every step of the loop is allowed. -/
theorem good_at_end_iff {I Good Allowed : S → Prop}
    (hkeep : ∀ s t, I s → step s = some t → I t)
    (hgood : ∀ s t, I s → Good s → step s = some t → (Good t ↔ Allowed s))
    (hbad : ∀ s t, I s → ¬ Good s → step s = some t → ¬ Good t)
    {s t : S} (hs : I s) (h : Good s) (hreach : Reaches step s t) (hend : step t = none) :
    Good t ↔ ∀ u v, Reaches step s u → step u = some v → Allowed u := by
  induction hreach using Relation.ReflTransGen.head_induction_on with
  | refl =>
      refine ⟨fun _ u v hu hv => ?_, fun _ => h⟩
      have hstay : u = t := (eval_maximal (mem_eval.2 ⟨Relation.ReflTransGen.refl, hend⟩)).1 hu
      rw [hstay, hend] at hv
      cases hv
  | @head s m hstep hrest ih =>
      have hm := hkeep s m hs hstep
      constructor
      · intro ht
        have hmid : Good m := by
          by_contra hnot
          have hlost : I t ∧ ¬ Good t :=
            invariant_of_reaches (I := fun u => I u ∧ ¬ Good u)
              (fun u v hu hv => ⟨hkeep u v hu.1 hv, hbad u v hu.1 hu.2 hv⟩) ⟨hm, hnot⟩ hrest
          exact hlost.2 ht
        intro u v hu hv
        rcases Relation.ReflTransGen.cases_head hu with rfl | ⟨n, hn, hnu⟩
        · exact (hgood _ _ hs h hstep).1 hmid
        · obtain rfl := Option.mem_unique hstep hn
          exact (ih hm hmid).1 ht u v hnu hv
      · intro hall
        have hmid := (hgood s m hs h hstep).2 (hall s m Relation.ReflTransGen.refl hstep)
        exact (ih hm hmid).2 fun u v hu hv => hall u v (Relation.ReflTransGen.head hstep hu) hv

/-- A predicate that holds at a state exactly if its step is allowed and it holds behind it, and
that holds in every end, says that every step of a loop that ends is allowed. -/
theorem allowed_iff {I Ahead Allowed : S → Prop}
    (hkeep : ∀ s t, I s → step s = some t → I t)
    (hstep : ∀ s t, I s → step s = some t → (Ahead s ↔ Allowed s ∧ Ahead t))
    (hnone : ∀ s, I s → step s = none → Ahead s)
    {s t : S} (hs : I s) (hreach : Reaches step s t) (hend : step t = none) :
    (∀ u v, Reaches step s u → step u = some v → Allowed u) ↔ Ahead s := by
  induction hreach using Relation.ReflTransGen.head_induction_on with
  | refl =>
      refine iff_of_true (fun u v hu hv => ?_) (hnone t hs hend)
      have hstay : u = t := (eval_maximal (mem_eval.2 ⟨Relation.ReflTransGen.refl, hend⟩)).1 hu
      rw [hstay, hend] at hv
      cases hv
  | @head s m hnext hrest ih =>
      have hm := hkeep s m hs hnext
      rw [hstep s m hs hnext, ← ih hm]
      constructor
      · intro hall
        exact ⟨hall s m Relation.ReflTransGen.refl hnext,
          fun u v hu hv => hall u v (Relation.ReflTransGen.head hnext hu) hv⟩
      · rintro ⟨hnow, hall⟩ u v hu hv
        rcases Relation.ReflTransGen.cases_head hu with rfl | ⟨n, hn, hnu⟩
        · exact hnow
        · obtain rfl := Option.mem_unique hnext hn
          exact hall u v hnu hv

end Loop
