import Mathlib.Algebra.Ring.Nat
import Mathlib.Data.List.Basic
import Mathlib.Data.List.Nodup

/-!
# Blocks of assignments

Lines are read in blocks that end at certain lines, and the lines of a block assign
values to keys in a dictionary that keeps the order of its keys. A dictionary that
weighs as much as all its assignments together has got each of its keys once.
-/

namespace Blocks

section Groups

variable {α : Type*} (isEnd : α → Bool)

/-- The lines between the ends of blocks, without the blocks that have none. -/
def groups (lines : List α) : List (List α) :=
  (lines.splitOnP isEnd).filter fun group => !group.isEmpty

variable {isEnd} {lines before after : List α} {line : α}

theorem flatten_splitOnP (lines : List α) :
    (lines.splitOnP isEnd).flatten = lines.filter fun line => !isEnd line := by
  induction lines with
  | nil => rfl
  | cons line rest ih =>
      rw [List.splitOnP_cons_eq_if_modifyHead]
      cases hend : isEnd line with
      | true => simp [hend, ih]
      | false =>
          obtain ⟨first, others, hsplit⟩ :=
            List.exists_cons_of_ne_nil (List.splitOnP_ne_nil isEnd rest)
          rw [hsplit] at ih ⊢
          simpa [hend] using ih

theorem groups_append_end (h : isEnd line = true) :
    groups isEnd (before ++ line :: after) = groups isEnd before ++ groups isEnd after := by
  unfold groups
  rw [List.splitOnP_append_cons before after h, List.filter_append]

theorem groups_of_open (h : ∀ line ∈ lines, isEnd line = false) (hlines : lines ≠ []) :
    groups isEnd lines = [lines] := by
  unfold groups
  rw [List.splitOnP_eq_singleton h]
  simpa using hlines

/-- No line of a block is lost, and none is put in. -/
theorem flatten_groups (lines : List α) :
    (groups isEnd lines).flatten = lines.filter fun line => !isEnd line := by
  rw [← flatten_splitOnP]
  unfold groups
  induction lines.splitOnP isEnd with
  | nil => rfl
  | cons group rest ih =>
      cases group with
      | nil => simpa using ih
      | cons first others => simp [ih]

theorem groups_ne_nil (hmem : line ∈ lines) (hopen : isEnd line = false) :
    groups isEnd lines ≠ [] := by
  intro hnil
  have hflat : (groups isEnd lines).flatten = _ := flatten_groups lines
  rw [hnil] at hflat
  have hfilter : line ∈ lines.filter fun line => !isEnd line :=
    List.mem_filter.mpr ⟨hmem, by rw [hopen]; rfl⟩
  rw [← hflat] at hfilter
  exact nomatch hfilter

/-- Blocks that are joined by an end are read back. -/
theorem groups_intercalate (h : isEnd line = true) {parts : List (List α)}
    (hparts : ∀ part ∈ parts, part ≠ [] ∧ ∀ other ∈ part, isEnd other = false) :
    groups isEnd ([line].intercalate parts) = parts := by
  induction parts with
  | nil => rfl
  | cons part rest ih =>
      obtain ⟨⟨hpart, hopen⟩, hrest⟩ := List.forall_mem_cons.mp hparts
      cases rest with
      | nil => simpa using groups_of_open hopen hpart
      | cons next rest =>
          rw [List.intercalate_cons_cons, List.append_assoc, List.singleton_append,
            groups_append_end h, groups_of_open hopen hpart, ih hrest, List.singleton_append]

theorem mem_intercalate {parts : List (List α)} {other : α}
    (h : other ∈ [line].intercalate parts) : other = line ∨ ∃ part ∈ parts, other ∈ part := by
  induction parts with
  | nil => exact nomatch h
  | cons part rest ih =>
      cases rest with
      | nil => exact Or.inr ⟨part, by simp, by simpa using h⟩
      | cons next rest =>
          rw [List.intercalate_cons_cons, List.mem_append, List.mem_append,
            List.mem_singleton] at h
          rcases h with (hpart | rfl) | hrest
          · exact Or.inr ⟨part, List.mem_cons_self, hpart⟩
          · exact Or.inl rfl
          · refine (ih hrest).imp_right fun ⟨found, hmem, hfound⟩ => ?_
            exact ⟨found, List.mem_cons_of_mem _ hmem, hfound⟩

/-- The lines of a block are lines that have been read, and none of them is an end. -/
theorem mem_of_mem_groups {group : List α} (h : group ∈ groups isEnd lines) :
    group ≠ [] ∧ ∀ line ∈ group, line ∈ lines ∧ isEnd line = false := by
  refine ⟨?_, fun line hline => ?_⟩
  · rintro rfl
    exact absurd (List.mem_filter.mp h).2 (by simp)
  · have hmem : line ∈ (groups isEnd lines).flatten := List.mem_flatten_of_mem h hline
    rw [flatten_groups, List.mem_filter] at hmem
    exact ⟨hmem.1, by simpa using hmem.2⟩

/-- Lines on both sides of an end are in different blocks. -/
theorem two_le_length_groups (h : isEnd line = true) {first last : α} (hfirst : first ∈ before)
    (hopen : isEnd first = false) (hlast : last ∈ after) (hopen' : isEnd last = false) :
    2 ≤ (groups isEnd (before ++ line :: after)).length := by
  have hbefore := List.length_pos_of_ne_nil (groups_ne_nil hfirst hopen)
  have hafter := List.length_pos_of_ne_nil (groups_ne_nil hlast hopen')
  rw [groups_append_end h, List.length_append]
  omega

end Groups

section Dictionaries

variable {K V : Type*} [DecidableEq K]

/-- `fields[key] = value`: a key that is there keeps its place. -/
def assign (fields : List (K × V)) (field : K × V) : List (K × V) :=
  if field.1 ∈ fields.map Prod.fst then
    fields.map fun other => if other.1 = field.1 then field else other
  else fields ++ [field]

theorem keys_assign (fields : List (K × V)) (field : K × V) :
    (assign fields field).map Prod.fst =
      if field.1 ∈ fields.map Prod.fst then fields.map Prod.fst
      else fields.map Prod.fst ++ [field.1] := by
  unfold assign
  split
  · rw [List.map_map]
    apply List.map_congr_left
    intro other _
    by_cases hsame : other.1 = field.1 <;> simp [hsame]
  · simp

theorem nodup_assign {fields : List (K × V)} (h : (fields.map Prod.fst).Nodup) (field : K × V) :
    ((assign fields field).map Prod.fst).Nodup := by
  rw [keys_assign]
  split
  case isTrue => exact h
  case isFalse hnew => exact List.nodup_append_comm.mp (List.nodup_cons.mpr ⟨hnew, h⟩)

/-- Assignments to new keys are kept as they come. -/
theorem foldl_assign_of_nodup (fields assignments : List (K × V))
    (h : ((fields ++ assignments).map Prod.fst).Nodup) :
    assignments.foldl assign fields = fields ++ assignments := by
  induction assignments generalizing fields with
  | nil => simp
  | cons field rest ih =>
      have hnew : field.1 ∉ fields.map Prod.fst := by
        rw [List.map_append, List.map_cons, List.nodup_append] at h
        intro hmem
        exact h.2.2 field.1 hmem field.1 List.mem_cons_self rfl
      have hassign : assign fields field = fields ++ [field] := if_neg hnew
      rw [List.foldl_cons, hassign, ih (fields ++ [field]) (by simpa using h), List.append_assoc,
        List.singleton_append]

theorem mem_keys_foldl_assign {fields assignments : List (K × V)} {key : K}
    (h : key ∈ fields.map Prod.fst ∨ key ∈ assignments.map Prod.fst) :
    key ∈ (assignments.foldl assign fields).map Prod.fst := by
  induction assignments generalizing fields with
  | nil => simpa using h
  | cons field rest ih =>
      apply ih
      rw [keys_assign]
      rcases h with hold | hmem
      · exact Or.inl (by split <;> simp [hold])
      · rcases List.mem_cons.mp hmem with rfl | hrest
        · left
          split
          case isTrue hthere => exact hthere
          case isFalse => simp
        · exact Or.inr hrest

section Weights

variable (keyWeight : K → Nat) (valueWeight : V → Nat)

/-- The weight of all keys and values. -/
def weight (fields : List (K × V)) : Nat :=
  (fields.map fun field => keyWeight field.1 + valueWeight field.2).sum

variable {fields : List (K × V)}

theorem weight_replace (h : (fields.map Prod.fst).Nodup) (field : K × V) :
    weight keyWeight valueWeight
        (fields.map fun other => if other.1 = field.1 then field else other) ≤
      weight keyWeight valueWeight fields + valueWeight field.2 := by
  induction fields with
  | nil => exact Nat.zero_le _
  | cons other rest ih =>
      obtain ⟨hnew, hrest⟩ := List.nodup_cons.mp h
      have hlater := ih hrest
      simp only [weight, List.map_cons, List.sum_cons] at hlater ⊢
      by_cases hsame : other.1 = field.1
      · have hid : rest.map (fun other => if other.1 = field.1 then field else other) = rest := by
          refine (List.map_congr_left fun later hmem => if_neg ?_).trans (List.map_id _)
          intro heq
          exact hnew (List.mem_map.mpr ⟨later, hmem, heq.trans hsame.symm⟩)
        rw [hid, if_pos hsame, hsame]
        omega
      · rw [if_neg hsame]
        omega

omit [DecidableEq K] in
theorem weight_le_of_sublist {fields others : List (K × V)} (h : fields.Sublist others) :
    weight keyWeight valueWeight fields ≤ weight keyWeight valueWeight others := by
  induction h with
  | slnil => exact Nat.le_refl _
  | cons _ _ ih => exact Nat.le_trans ih (Nat.le_add_left _ _)
  | cons_cons _ _ ih => exact Nat.add_le_add_left ih _

/-- An assignment adds its weight, but less than that where its key is there already. -/
theorem weight_assign (h : (fields.map Prod.fst).Nodup) {field : K × V}
    (hkey : 0 < keyWeight field.1) :
    weight keyWeight valueWeight (assign fields field) + 1 + fields.length ≤
      weight keyWeight valueWeight fields + (keyWeight field.1 + valueWeight field.2) +
        (assign fields field).length := by
  unfold assign
  split
  case isTrue =>
    have hreplace := weight_replace keyWeight valueWeight h field
    rw [List.length_map]
    omega
  case isFalse =>
    simp only [weight, List.map_append, List.sum_append, List.map_cons, List.map_nil, List.sum_cons,
      List.sum_nil, List.length_append, List.length_cons, List.length_nil]
    omega

/-- Every assignment to a key that is there costs weight. -/
theorem weight_foldl_assign (assignments : List (K × V)) (h : (fields.map Prod.fst).Nodup)
    (hkeys : ∀ field ∈ assignments, 0 < keyWeight field.1) :
    weight keyWeight valueWeight (assignments.foldl assign fields) + assignments.length +
        fields.length ≤
      weight keyWeight valueWeight fields + weight keyWeight valueWeight assignments +
        (assignments.foldl assign fields).length := by
  induction assignments generalizing fields with
  | nil => simp [weight]
  | cons field rest ih =>
      have hfirst := weight_assign keyWeight valueWeight h (hkeys field List.mem_cons_self)
      have hlater := ih (nodup_assign h field) fun other hother =>
        hkeys other (List.mem_cons_of_mem _ hother)
      have hsum : weight keyWeight valueWeight (field :: rest) =
          keyWeight field.1 + valueWeight field.2 + weight keyWeight valueWeight rest := rfl
      rw [List.foldl_cons, List.length_cons, hsum]
      omega

end Weights

end Dictionaries

end Blocks
