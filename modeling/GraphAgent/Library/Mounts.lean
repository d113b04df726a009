import Mathlib.Data.List.Infix

/-!
# Mounts in layers

A place is the list of names that leads to it. A mount puts a tree at its point; mounts are made
one after the other, and what is mounted later lies over everything below its point. So a place
shows what the last mount above it puts there.
-/

namespace GraphAgent.Mounts

variable {α : Type*}

/-- What stands at a place: a place of the host, which can be written or only be read, or
something that the host does not have. -/
inductive Seen (α : Type*) where
  | host (place : List α) (writable : Bool)
  | own
  deriving DecidableEq, Repr

/-- A tree at a point, by what it shows below its point. -/
structure Mount (α : Type*) where
  point : List α
  seen : List α → Seen α

/-- The tree at a place of the host. -/
def Mount.bind (source point : List α) (writable : Bool) : Mount α :=
  ⟨point, fun names => .host (source ++ names) writable⟩

/-- A tree that the host does not have. -/
def Mount.fresh (point : List α) : Mount α := ⟨point, fun _ => .own⟩

/-- The mounts with a place below their points. -/
abbrev Mount.Covers (mount : Mount α) (place : List α) : Prop := mount.point <+: place

variable [DecidableEq α]

/-- One more mount is made. -/
def lay (place : List α) (below : Option (Seen α)) (mount : Mount α) : Option (Seen α) :=
  if mount.Covers place then some (mount.seen (place.drop mount.point.length)) else below

/-- What a place shows when the mounts have been made. -/
def view (mounts : List (Mount α)) (place : List α) : Option (Seen α) :=
  mounts.foldl (lay place) none

theorem view_concat (mounts : List (Mount α)) (mount : Mount α) (place : List α) :
    view (mounts ++ [mount]) place =
      if mount.Covers place then some (mount.seen (place.drop mount.point.length))
      else view mounts place := by
  rw [view, List.foldl_append]
  rfl

theorem view_append (earlier later : List (Mount α)) (place : List α) :
    view (earlier ++ later) place = (view later place).or (view earlier place) := by
  induction later using List.reverseRecOn with
  | nil => rw [List.append_nil]; rfl
  | append_singleton later mount ih =>
      rw [← List.append_assoc, view_concat, view_concat, ih]
      split_ifs <;> rfl

/-- Nothing is seen where no mount lies above the place. -/
theorem view_eq_none_iff {mounts : List (Mount α)} {place : List α} :
    view mounts place = none ↔ ∀ mount ∈ mounts, ¬ mount.Covers place := by
  induction mounts using List.reverseRecOn with
  | nil => simp [view]
  | append_singleton mounts mount ih =>
      rw [view_concat, List.forall_mem_append, List.forall_mem_singleton]
      split_ifs with hcovers
      · simp [hcovers]
      · simp [ih, hcovers]

/-- What is seen is what the last mount above the place shows. -/
theorem exists_of_view {mounts : List (Mount α)} {place : List α} {seen : Seen α}
    (h : view mounts place = some seen) :
    ∃ earlier mount later names, mounts = earlier ++ mount :: later ∧
      place = mount.point ++ names ∧ seen = mount.seen names ∧
      ∀ other ∈ later, ¬ other.Covers place := by
  induction mounts using List.reverseRecOn with
  | nil => cases h
  | append_singleton mounts mount ih =>
      rw [view_concat] at h
      split_ifs at h with hcovers
      · obtain ⟨names, rfl⟩ := hcovers
        rw [List.drop_left] at h
        exact ⟨mounts, mount, [], names, rfl, rfl, (Option.some.inj h).symm, by simp⟩
      · obtain ⟨earlier, last, later, names, rfl, hplace, hseen, hlater⟩ := ih h
        refine ⟨earlier, last, later ++ [mount], names, by simp, hplace, hseen, ?_⟩
        intro other hother
        rcases List.mem_append.1 hother with hother | hother
        · exact hlater other hother
        · rwa [List.mem_singleton.1 hother]

/-- Some place of a list of mounts is covered, so something of them is seen. -/
theorem isSome_view {mounts : List (Mount α)} {place : List α} {mount : Mount α}
    (hmem : mount ∈ mounts) (h : mount.Covers place) : (view mounts place).isSome := by
  rw [Option.isSome_iff_ne_none, ne_eq, view_eq_none_iff]
  exact fun hnone => hnone mount hmem h

section Options

variable {ι : Type*} {mountOf : ι → Option (Mount α)} {shows : List ι → List α → Option (Seen α)}

/-- What the places show is made by options, one after the other: an option with a mount decides
about the places below its point, and no option changes the others. -/
structure Laid (mountOf : ι → Option (Mount α)) (shows : List ι → List α → Option (Seen α)) :
    Prop where
  nothing : ∀ place, shows [] place = none
  below : ∀ options option mount names, mountOf option = some mount →
    shows (options ++ [option]) (mount.point ++ names) = some (mount.seen names)
  beside : ∀ options option place, (∀ mount, mountOf option = some mount → ¬ mount.Covers place) →
    shows (options ++ [option]) place = shows options place

/-- What the places show after options is what the mounts of the options show. -/
theorem Laid.eq_view (h : Laid mountOf shows) (options : List ι) (place : List α) :
    shows options place = view (options.filterMap mountOf) place := by
  induction options using List.reverseRecOn with
  | nil => exact h.nothing place
  | append_singleton options option ih =>
      rw [List.filterMap_append]
      cases hmount : mountOf option with
      | none =>
          rw [h.beside _ _ _ (by simp [hmount]), ih, List.filterMap_cons_none hmount,
            List.filterMap_nil, List.append_nil]
      | some mount =>
          rw [List.filterMap_cons_some hmount, List.filterMap_nil, view_concat]
          split_ifs with hcovers
          · obtain ⟨names, rfl⟩ := hcovers
            rw [List.drop_left]
            exact h.below _ _ _ _ hmount
          · rw [← ih]
            apply h.beside
            intro other hother
            rw [hmount] at hother
            exact Option.some.inj hother ▸ hcovers

/-- Mounts that are made in the order of their options are laid so. -/
theorem laid_view (mountOf : ι → Option (Mount α)) :
    Laid mountOf fun options => view (options.filterMap mountOf) where
  nothing _ := rfl
  below options option mount names hmount := by
    rw [List.filterMap_append, List.filterMap_cons_some hmount, List.filterMap_nil, view_concat,
      if_pos (List.prefix_append _ _), List.drop_left]
  beside options option place h := by
    rw [List.filterMap_append]
    cases hmount : mountOf option with
    | none => rw [List.filterMap_cons_none hmount, List.filterMap_nil, List.append_nil]
    | some mount =>
        rw [List.filterMap_cons_some hmount, List.filterMap_nil, view_concat, if_neg (h _ hmount)]

end Options

end GraphAgent.Mounts
