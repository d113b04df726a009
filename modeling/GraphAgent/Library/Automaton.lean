import Mathlib.Data.Option.Basic

/-!
# Partial automata

An automaton that may refuse a letter, its runs over texts, and what a run says of a text in
which some pieces have been replaced.
-/

namespace Automaton

universe u v w

variable {S : Type u} {A : Type v} {P : Type w} (step : S → A → Option S)

/-- The state after a text, if no letter of it is refused. -/
def run (s : S) (text : List A) : Option S := text.foldlM step s

variable {step}

@[simp] theorem run_nil (s : S) : run step s [] = some s := rfl

@[simp] theorem run_cons (s : S) (a : A) (text : List A) :
    run step s (a :: text) = (step s a).bind fun t => run step t text := rfl

theorem run_append (s : S) (front back : List A) :
    run step s (front ++ back) = (run step s front).bind fun t => run step t back := by
  simp [run, List.foldlM_append]

theorem run_append_eq_some {s t : S} {front back : List A} :
    run step s (front ++ back) = some t ↔
      ∃ u, run step s front = some u ∧ run step u back = some t := by
  rw [run_append, Option.bind_eq_some_iff]

/-- A text of letters that keep the state keeps the state. -/
theorem run_eq_self {s : S} {text : List A} (h : ∀ a ∈ text, step s a = some s) :
    run step s text = some s := by
  induction text with
  | nil => rfl
  | cons a rest ih => simp [h a (by simp), ih fun b hb => h b (by simp [hb])]

/-- Where each piece leads to the same state in its new form, the whole text does. -/
theorem run_flatMap {pieces : List P} {before after : P → List A}
    (h : ∀ p ∈ pieces, ∀ s t, run step s (before p) = some t → run step s (after p) = some t)
    {s t : S} (hrun : run step s (pieces.flatMap before) = some t) :
    run step s (pieces.flatMap after) = some t := by
  induction pieces generalizing s with
  | nil => exact hrun
  | cons p rest ih =>
      rw [List.flatMap_cons, run_append_eq_some] at hrun ⊢
      obtain ⟨u, hfirst, hrest⟩ := hrun
      exact ⟨u, h p (by simp) s u hfirst, ih (fun q hq => h q (by simp [hq])) hrest⟩

end Automaton
