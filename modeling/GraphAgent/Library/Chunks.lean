import Mathlib.Data.List.Basic

/-!
# Data in chunks of one size

Data that arrives in pieces of any size is handed on in chunks of one size; what is too short
for a chunk waits for more. How the data is cut depends on the data alone, not on the pieces.
-/

namespace GraphAgent.Chunks

variable {α : Type*} {size : ℕ}

/-- The data is cut into whole chunks and a rest that is too short for one. -/
structure IsCut (size : ℕ) (data : List α) (chunks : List (List α)) (rest : List α) : Prop where
  whole : ∀ chunk ∈ chunks, chunk.length = size
  short : rest.length < size
  joined : chunks.flatten ++ rest = data

/-- Chunks are taken off the front as long as there are enough data. -/
def cut (size : ℕ) (data : List α) : List (List α) × List α :=
  if _h : 0 < size ∧ size ≤ data.length then
    (data.take size :: (cut size (data.drop size)).1, (cut size (data.drop size)).2)
  else ([], data)
termination_by data.length

section Cut

variable {data more : List α} {chunks chunks' : List (List α)}
  {rest rest' : List α}

theorem isCut_nil (hsize : 0 < size) : IsCut size ([] : List α) [] [] := ⟨nofun, hsize, rfl⟩

theorem isCut_cut (hsize : 0 < size) (data : List α) :
    IsCut size data (cut size data).1 (cut size data).2 := by
  induction data using cut.induct size with
  | case1 data h ih =>
      rw [cut, dif_pos h]
      refine ⟨?_, ih.short, ?_⟩
      · rw [List.forall_mem_cons]
        exact ⟨List.length_take_of_le h.2, ih.whole⟩
      · rw [List.flatten_cons, List.append_assoc, ih.joined, List.take_append_drop]
  | case2 data h =>
      rw [cut, dif_neg h]
      have hshort : data.length < size := by omega
      exact ⟨nofun, hshort, rfl⟩

/-- What arrives behind the rest is cut together with it. -/
theorem IsCut.append (h : IsCut size data chunks rest)
    (h' : IsCut size (rest ++ more) chunks' rest') :
    IsCut size (data ++ more) (chunks ++ chunks') rest' := by
  refine ⟨?_, h'.short, ?_⟩
  · intro chunk hchunk
    exact (List.mem_append.mp hchunk).elim (h.whole chunk) (h'.whole chunk)
  · rw [List.flatten_append, List.append_assoc, h'.joined, ← List.append_assoc, h.joined]

theorem IsCut.length_flatten (h : IsCut size data chunks rest) :
    chunks.flatten.length = size * chunks.length := by
  rw [List.length_flatten, List.map_congr_left h.whole, List.map_const', List.sum_replicate_nat,
    Nat.mul_comm]

/-- Only one number of chunks leaves a rest that is short. -/
theorem IsCut.length_chunks (h : IsCut size data chunks rest) :
    chunks.length = data.length / size := by
  have hsize : 0 < size := Nat.lt_of_le_of_lt (Nat.zero_le _) h.short
  rw [← h.joined, List.length_append, h.length_flatten, Nat.mul_add_div hsize,
    Nat.div_eq_of_lt h.short, Nat.add_zero]

/-- Data that fill the same chunks agree as far as these go. -/
theorem IsCut.take_eq {data' : List α} (h : IsCut size data chunks rest)
    (h' : IsCut size data' chunks rest') {n : ℕ} (hn : n ≤ size * chunks.length) :
    data.take n = data'.take n := by
  rw [← h.length_flatten] at hn
  rw [← h.joined, ← h'.joined, List.take_append_of_le_length hn,
    List.take_append_of_le_length hn]

theorem IsCut.flatten (h : IsCut size data chunks rest) :
    chunks.flatten = data.take (size * (data.length / size)) := by
  rw [← h.length_chunks, ← h.length_flatten, ← h.joined, List.take_left']
  rfl

/-- The data decide how they are cut. -/
theorem IsCut.unique (h : IsCut size data chunks rest) (h' : IsCut size data chunks' rest') :
    chunks = chunks' ∧ rest = rest' := by
  have hflatten : chunks.flatten = chunks'.flatten := by rw [h.flatten, h'.flatten]
  constructor
  · apply List.eq_iff_flatten_eq.mpr
    rw [List.map_congr_left h.whole, List.map_congr_left h'.whole, List.map_const',
      List.map_const', h.length_chunks, h'.length_chunks]
    exact ⟨hflatten, rfl⟩
  · have hjoined := h.joined.trans h'.joined.symm
    rw [hflatten] at hjoined
    exact List.append_cancel_left hjoined

end Cut

end GraphAgent.Chunks
