import Mathlib.Data.List.Basic

/-!
# Numbered items on a line with an overflow

Items are numbered as they arrive and move along a line in order. Items may be
dropped anywhere on the line, and what was dropped is written down, so that every
item is either on the line or written down as dropped.
-/

namespace Conveyor

/-- The numbers on the line, the item that is furthest along first: they grow, they
are those of items that have arrived, and only dropped ones are missing. -/
structure Carries (arrived : Nat) (dropped line : List Nat) : Prop where
  ordered : line.Pairwise (· < ·)
  bounded : ∀ number ∈ line, number < arrived
  kept : ∀ number < arrived, number ∈ dropped ∨ number ∈ line

theorem carries_empty : Carries 0 [] [] := ⟨.nil, nofun, nofun⟩

variable {arrived : Nat} {dropped line front middle back : List Nat}

theorem Carries.arrive (h : Carries arrived dropped line) :
    Carries (arrived + 1) dropped (line ++ [arrived]) := by
  constructor
  case ordered =>
    rw [List.pairwise_append]
    refine ⟨h.ordered, List.pairwise_singleton _ _, ?_⟩
    intro number hnumber last hlast
    rw [List.mem_singleton.mp hlast]
    exact h.bounded number hnumber
  case bounded =>
    intro number hnumber
    rcases List.mem_append.mp hnumber with hline | hlast
    · exact Nat.lt_succ_of_lt (h.bounded number hline)
    · rw [List.mem_singleton.mp hlast]
      exact Nat.lt_succ_self arrived
  case kept =>
    intro number hnumber
    rcases Nat.lt_succ_iff_lt_or_eq.mp hnumber with hbefore | rfl
    · exact (h.kept number hbefore).imp_right (List.mem_append_left _)
    · exact Or.inr (List.mem_append_right _ (List.mem_singleton_self number))

theorem Carries.drop (h : Carries arrived dropped (front ++ (middle ++ back))) :
    Carries arrived (dropped ++ middle) (front ++ back) := by
  have hsub : List.Sublist (front ++ back) (front ++ (middle ++ back)) :=
    (List.sublist_append_right middle back).append_left front
  refine ⟨h.ordered.sublist hsub, fun number hnumber => h.bounded number (hsub.subset hnumber), ?_⟩
  intro number hnumber
  simp only [List.mem_append]
  rcases h.kept number hnumber with hdropped | hline
  · exact Or.inl (Or.inl hdropped)
  · rcases List.mem_append.mp hline with hfront | hrest
    · exact Or.inr (Or.inl hfront)
    · rcases List.mem_append.mp hrest with hmiddle | hback
      · exact Or.inl (Or.inr hmiddle)
      · exact Or.inr (Or.inr hback)

/-- Only so much of the back of the line is kept. -/
theorem Carries.shed (h : Carries arrived dropped (front ++ back)) (excess : Nat) :
    Carries arrived (dropped ++ back.take excess) (front ++ back.drop excess) := by
  apply Carries.drop
  rw [List.take_append_drop]
  exact h

end Conveyor
