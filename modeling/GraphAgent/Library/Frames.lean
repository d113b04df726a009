import Mathlib.Data.List.Basic

/-!
# Reading frames

A reader takes one frame at a time from a buffer and says what it has read. What frames
that were written one after the other give back to repeated calls of it.
-/

namespace Frames

variable {α β : Type*} (read : List β → Option α × List β)

/-- What `count` calls of the reader return, one after the other. -/
def readings : Nat → List β → List (Option α)
  | 0, _ => []
  | count + 1, buffer => (read buffer).1 :: readings count (read buffer).2

variable {read} {encode : α → List β} {buffer rest : List β} {values : List α} {count : Nat}

/-- Once a call has read nothing and has emptied the buffer, every later call reads
nothing. -/
theorem readings_of_none (hnil : read [] = (none, [])) (h : read buffer = (none, [])) :
    readings read count buffer = List.replicate count none := by
  induction count generalizing buffer with
  | zero => rfl
  | succ count ih =>
      rw [List.replicate_succ, readings, h, ih hnil]

/-- A reader that gives back each of the values gives them all back, in order. -/
theorem readings_flatMap
    (h : ∀ value ∈ values, ∀ rest, read (encode value ++ rest) = (some value, rest)) :
    readings read (values.length + count) (values.flatMap encode ++ rest) =
      values.map some ++ readings read count rest := by
  induction values with
  | nil => simp
  | cons value values ih =>
      have hhead := h value List.mem_cons_self (values.flatMap encode ++ rest)
      have htail := ih fun other hother => h other (List.mem_cons_of_mem _ hother)
      rw [List.length_cons, Nat.add_right_comm, readings, List.flatMap_cons,
        List.append_assoc, hhead, htail, List.map_cons, List.cons_append]

/-- What is written of values that can be read back, and then the end of the buffer. -/
theorem readings_flatMap_of_none (hnil : read [] = (none, []))
    (h : ∀ value ∈ values, ∀ rest, read (encode value ++ rest) = (some value, rest))
    (hrest : read rest = (none, [])) :
    readings read (values.length + count) (values.flatMap encode ++ rest) =
      values.map some ++ List.replicate count none := by
  rw [readings_flatMap h, readings_of_none hnil hrest]

end Frames
