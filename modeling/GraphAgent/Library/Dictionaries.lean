import GraphAgent.Library.Blocks
import Mathlib.Data.List.Induction

/-!
# Dictionaries

What is looked up in a dictionary after an assignment and after a key is taken out, and what a
dictionary holds into which entries of several keys are read as they come.
-/

namespace Dictionary

variable {K V : Type*} [DecidableEq K] {fields : List (K × V)} {key other : K} {v : V}

/-- `fields.pop(key, None)`: what is left of the dictionary. -/
def pop (fields : List (K × V)) (key : K) : List (K × V) :=
  fields.filter fun field => field.1 ≠ key

theorem lookup_cons (field : K × V) (rest : List (K × V)) :
    (field :: rest).lookup other = if other = field.1 then some field.2 else rest.lookup other := by
  obtain ⟨name, v⟩ := field
  by_cases h : other = name
  · subst h
    rw [if_pos rfl, List.lookup_cons_self]
  · rw [if_neg h, List.lookup_cons, beq_false_of_ne h]

theorem lookup_eq_none_iff : fields.lookup key = none ↔ key ∉ fields.map Prod.fst := by
  induction fields with
  | nil => simp
  | cons field rest ih =>
      rw [lookup_cons]
      by_cases h : key = field.1 <;> simp_all

theorem lookup_append_singleton (field : K × V) (h : field.1 ∉ fields.map Prod.fst) :
    (fields ++ [field]).lookup other =
      if other = field.1 then some field.2 else fields.lookup other := by
  induction fields with
  | nil => rw [List.nil_append, lookup_cons]
  | cons first rest ih =>
      simp only [List.map_cons, List.mem_cons, not_or] at h
      rw [List.cons_append, lookup_cons, lookup_cons, ih h.2]
      by_cases hfirst : other = first.1
      · have hne : other ≠ field.1 := fun heq => h.1 (heq.symm.trans hfirst)
        rw [if_pos hfirst, if_pos hfirst, if_neg hne]
      · rw [if_neg hfirst, if_neg hfirst]

theorem lookup_replace (key : K) (v : V) :
    (fields.map fun field => if field.1 = key then (key, v) else field).lookup other =
      if other = key then (fields.lookup key).map fun _ => v else fields.lookup other := by
  induction fields with
  | nil => simp
  | cons first rest ih =>
      rw [List.map_cons, lookup_cons, lookup_cons, lookup_cons, ih]
      by_cases hfirst : first.1 = key
      · by_cases hother : other = key <;> simp [hfirst, hother]
      · by_cases hother : other = key
        · simp [hother, hfirst, Ne.symm hfirst]
        · simp [hother, hfirst]

/-- An assignment is looked up under its key, and changes no other key. -/
theorem lookup_assign (key : K) (v : V) :
    (Blocks.assign fields (key, v)).lookup other =
      if other = key then some v else fields.lookup other := by
  unfold Blocks.assign
  split
  case isTrue hmem =>
    obtain ⟨old, hold⟩ := Option.ne_none_iff_exists'.1 (lookup_eq_none_iff.not_left.2 hmem)
    rw [lookup_replace, hold, Option.map_some]
  case isFalse hnew => exact lookup_append_singleton (key, v) hnew

/-- A key that is taken out is not found any more, and every other key is as before. -/
theorem lookup_pop : (pop fields key).lookup other =
    if other = key then none else fields.lookup other := by
  induction fields with
  | nil => simp [pop]
  | cons first rest ih =>
      by_cases hfirst : first.1 = key
      · rw [pop, List.filter_cons_of_neg (by simpa using hfirst), ← pop, ih, lookup_cons, hfirst]
        by_cases hother : other = key <;> simp [hother]
      · rw [pop, List.filter_cons_of_pos (by simpa using hfirst), ← pop, lookup_cons, lookup_cons, ih]
        by_cases hother : other = key
        · simp [hother, Ne.symm hfirst]
        · simp [hother]

section Collecting

variable {E : Type*} (keyOf : E → K) (read : V → E → V) (fresh : V)

/-- An entry is read into the value under its key, which `setdefault` makes at first. -/
def collect (fields : List (K × V)) (entry : E) : List (K × V) :=
  Blocks.assign fields (keyOf entry, read ((fields.lookup (keyOf entry)).getD fresh) entry)

/-- Keys in the order in which they come first. -/
def firsts (keys : List K) : List K :=
  keys.foldl (fun seen k => if k ∈ seen then seen else seen ++ [k]) []

variable {keyOf read fresh}

theorem firsts_concat (keys : List K) (k : K) :
    firsts (keys ++ [k]) = if k ∈ firsts keys then firsts keys else firsts keys ++ [k] := by
  rw [firsts, List.foldl_append]
  rfl

theorem mem_firsts {keys : List K} : key ∈ firsts keys ↔ key ∈ keys := by
  induction keys using List.reverseRecOn with
  | nil => exact Iff.rfl
  | append_singleton keys k ih =>
      rw [firsts_concat]
      split
      case isTrue hmem =>
        rw [ih, List.mem_append, List.mem_singleton]
        refine ⟨.inl, fun h => h.elim id ?_⟩
        rintro rfl
        exact ih.1 hmem
      case isFalse => rw [List.mem_append, List.mem_append, ih]

theorem lookup_map_pair (keys : List K) (f : K → V) :
    (keys.map fun k => (k, f k)).lookup key = if key ∈ keys then some (f key) else none := by
  induction keys with
  | nil => rfl
  | cons k rest ih =>
      rw [List.map_cons, lookup_cons, ih]
      by_cases h : key = k
      · subst h
        rw [if_pos rfl, if_pos List.mem_cons_self]
      · rw [if_neg h]
        simp only [List.mem_cons, h, false_or]

/-- The value under each key is what comes of the entries of this key alone, whatever the others
are and however they come in between. -/
theorem foldl_collect (entries : List E) :
    entries.foldl (collect keyOf read fresh) [] = (firsts (entries.map keyOf)).map fun k =>
      (k, (entries.filter fun entry => keyOf entry = k).foldl read fresh) := by
  induction entries using List.reverseRecOn with
  | nil => rfl
  | append_singleton entries entry ih =>
      rw [List.foldl_append, List.foldl_cons, List.foldl_nil, ih, collect, lookup_map_pair,
        List.map_append, List.map_singleton, firsts_concat]
      simp only [List.filter_append, List.foldl_append]
      by_cases hmem : keyOf entry ∈ firsts (entries.map keyOf)
      · rw [if_pos hmem, if_pos hmem, Blocks.assign, if_pos (by simpa using hmem), List.map_map]
        refine List.map_congr_left fun k _ => ?_
        by_cases hk : k = keyOf entry
        · subst hk
          simp
        · simp [hk, Ne.symm hk]
      · rw [if_neg hmem, if_neg hmem, Blocks.assign, if_neg (by simpa using hmem), List.map_append]
        have hnone : (entries.filter fun other => keyOf other = keyOf entry) = [] := by
          rw [List.filter_eq_nil_iff]
          intro other hother
          rw [decide_eq_true_eq]
          intro heq
          exact hmem (mem_firsts.2 (heq ▸ List.mem_map_of_mem hother))
        congr 1
        · refine List.map_congr_left fun k hk => ?_
          have hne : keyOf entry ≠ k := fun heq => hmem (heq ▸ hk)
          simp [hne]
        · simp [hnone]

end Collecting

end Dictionary
