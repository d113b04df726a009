import Mathlib.Data.List.Infix

/-!
# Moves in a tree

A place in a tree is the list of names that leads to it from the root. Moves lead up, where the
root is its own parent, or down to a name. However many moves there are, together they climb a
number of levels and then go down some names.
-/

namespace GraphAgent.Moves

variable {α : Type*}

/-- A step up, or a step down to a name. -/
inductive Move (α : Type*) where
  | up
  | down (name : α)
  deriving DecidableEq, Repr

/-- Where a move leads. -/
def go (place : List α) : Move α → List α
  | .up => place.dropLast
  | .down name => place ++ [name]

/-- A number of levels up, and then some names down. -/
structure Way (α : Type*) where
  climbs : ℕ
  names : List α
  deriving DecidableEq, Repr

/-- A move behind a way. -/
def Way.extend (way : Way α) : Move α → Way α
  | .up =>
      match way.names with
      | [] => ⟨way.climbs + 1, []⟩
      | first :: rest => ⟨way.climbs, (first :: rest).dropLast⟩
  | .down name => ⟨way.climbs, way.names ++ [name]⟩

/-- What some moves come to. -/
def wayOf (moves : List (Move α)) : Way α := moves.foldl Way.extend ⟨0, []⟩

/-- Where a way leads. -/
def Way.end (way : Way α) (place : List α) : List α :=
  place.take (place.length - way.climbs) ++ way.names

theorem end_extend (way : Way α) (place : List α) (move : Move α) :
    (way.extend move).end place = go (way.end place) move := by
  obtain ⟨climbs, names⟩ := way
  cases move with
  | up =>
      cases names with
      | nil =>
          simp only [Way.extend, Way.end, go, List.append_nil]
          rw [List.dropLast_eq_take, List.take_take, List.length_take]
          congr 1
          omega
      | cons first rest =>
          simp only [Way.extend, Way.end, go]
          rw [List.dropLast_append_of_ne_nil (List.cons_ne_nil _ _)]
  | down name => simp only [Way.extend, Way.end, go, List.append_assoc]

/-- Moves lead where their way leads. -/
theorem foldl_go (moves : List (Move α)) (place : List α) :
    moves.foldl go place = (wayOf moves).end place := by
  have hfold : ∀ way : Way α, moves.foldl go (way.end place) =
      (moves.foldl Way.extend way).end place := by
    induction moves with
    | nil => exact fun _ => rfl
    | cons move rest ih =>
        intro way
        rw [List.foldl_cons, List.foldl_cons, ← end_extend, ih]
  have hstart : (⟨0, []⟩ : Way α).end place = place := by
    rw [Way.end, Nat.sub_zero, List.take_length, List.append_nil]
  rw [wayOf, ← hfold, hstart]

theorem end_nil (way : Way α) : way.end [] = way.names := by
  rw [Way.end, List.take_nil, List.nil_append]

/-- A way ends below the place exactly where it comes back down the names that it climbed. -/
theorem isPrefix_end_iff (way : Way α) (place : List α) :
    place <+: way.end place ↔ place.drop (place.length - way.climbs) <+: way.names := by
  have hplace := List.take_append_drop (place.length - way.climbs) place
  constructor
  · intro h
    rw [Way.end] at h
    exact (List.prefix_append_right_inj _).mp (by rwa [hplace])
  · intro h
    have hback := (List.prefix_append_right_inj (place.take (place.length - way.climbs))).mpr h
    rwa [hplace] at hback

end GraphAgent.Moves
