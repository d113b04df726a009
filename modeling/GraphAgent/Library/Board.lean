import Mathlib.Data.List.Induction
import Mathlib.Data.List.Nodup

/-!
# A board of numbered posts

Operations on a board are counted. A post is known by the number of the operation that put
it up, under which later operations replace it or take it down.
-/

namespace Board

variable {α : Type*}

/-- An operation on a board. -/
inductive Op (α : Type*) where
  | post (a : α)
  | replace (id : Nat) (a : α)
  | remove (id : Nat)
  | idle

/-- What the operation with the given number makes of the posts. -/
def Op.apply (number : Nat) (op : Op α) (posts : List (Nat × α)) : List (Nat × α) :=
  match op with
  | .post a => posts ++ [(number, a)]
  | .replace id a => posts.map fun post => if post.1 = id then (id, a) else post
  | .remove id => posts.filter fun post => post.1 ≠ id
  | .idle => posts

/-- The board after the operations. -/
def board (ops : List (Op α)) : List (Nat × α) :=
  ops.zipIdx.foldl (fun posts op => op.1.apply op.2 posts) []

@[simp] theorem board_nil : board ([] : List (Op α)) = [] := rfl

theorem board_snoc (ops : List (Op α)) (op : Op α) :
    board (ops ++ [op]) = op.apply ops.length (board ops) := by
  simp [board, List.zipIdx_append]

@[simp] theorem board_post (ops : List (Op α)) (a : α) :
    board (ops ++ [.post a]) = board ops ++ [(ops.length, a)] := board_snoc ops (.post a)

@[simp] theorem board_idle (ops : List (Op α)) : board (ops ++ [.idle]) = board ops :=
  board_snoc ops .idle

section Ids

/-- A number up to which operations have been counted is not yet the id of a post. -/
theorem lt_of_mem {ops : List (Op α)} {post : Nat × α} (h : post ∈ board ops) :
    post.1 < ops.length := by
  induction ops using List.reverseRecOn generalizing post with
  | nil => simp at h
  | append_singleton ops op ih =>
      rw [board_snoc] at h
      rw [List.length_append, List.length_singleton]
      cases op with
      | post a =>
          rcases List.mem_append.1 h with h | h
          · exact Nat.lt_succ_of_lt (ih h)
          · simp [List.mem_singleton.1 h]
      | replace id a =>
          obtain ⟨old, hold, rfl⟩ := List.mem_map.1 h
          have hlt := ih hold
          split <;> omega
      | remove id => exact Nat.lt_succ_of_lt (ih (List.mem_filter.1 h).1)
      | idle => exact Nat.lt_succ_of_lt (ih h)

/-- No two posts have one id. -/
theorem nodup_ids (ops : List (Op α)) : ((board ops).map Prod.fst).Nodup := by
  induction ops using List.reverseRecOn with
  | nil => simp
  | append_singleton ops op ih =>
      rw [board_snoc]
      cases op with
      | post a =>
          simp only [Op.apply, List.map_append, List.map_singleton]
          refine ih.append (List.nodup_singleton _) (List.disjoint_singleton.2 fun h => ?_)
          obtain ⟨post, hmem, heq⟩ := List.mem_map.1 h
          exact Nat.lt_irrefl _ (heq ▸ lt_of_mem hmem)
      | replace id a =>
          have hids : ∀ post : Nat × α, (if post.1 = id then (id, a) else post).1 = post.1 := by
            intro post
            split <;> simp [*]
          simpa [Op.apply, Function.comp_def, hids] using ih
      | remove id => exact ih.sublist ((List.filter_sublist).map _)
      | idle => exact ih

theorem eq_of_mem {ops : List (Op α)} {p q : Nat × α} (hp : p ∈ board ops) (hq : q ∈ board ops)
    (h : p.1 = q.1) : p = q := List.inj_on_of_nodup_map (nodup_ids ops) hp hq h

end Ids

section Classes

/-- The posts of a class. -/
def only (p : α → Bool) (ops : List (Op α)) : List (Nat × α) :=
  (board ops).filter fun post => p post.2

variable {p : α → Bool} {ops : List (Op α)} {id : Nat} {a b : α}

@[simp] theorem only_nil : only p ([] : List (Op α)) = [] := rfl

theorem only_post_of (h : p a = true) :
    only p (ops ++ [.post a]) = only p ops ++ [(ops.length, a)] := by
  simp [only, h]

theorem only_post_of_not (h : p a = false) : only p (ops ++ [.post a]) = only p ops := by
  simp [only, h]

@[simp] theorem only_idle : only p (ops ++ [.idle]) = only p ops := by simp [only]

/-- The only post of its class is the one with its id. -/
theorem id_eq_iff (h : only p ops = [(id, b)]) {post : Nat × α} (hpost : post ∈ board ops) :
    post.1 = id ↔ p post.2 = true := by
  have hmem : (id, b) ∈ board ops ∧ p b = true := by
    have : (id, b) ∈ only p ops := by simp [h]
    simpa [only] using this
  constructor
  · intro heq
    obtain rfl : post = (id, b) := eq_of_mem hpost hmem.1 heq
    exact hmem.2
  · intro hp
    have : post ∈ only p ops := List.mem_filter.2 ⟨hpost, hp⟩
    simp_all

/-- A post of the class in place of the only one leaves every post in its class. -/
theorem class_replace (h : only p ops = [(id, b)]) (ha : p a = true) {post : Nat × α}
    (hpost : post ∈ board ops) : p (if post.1 = id then (id, a) else post).2 = p post.2 := by
  by_cases heq : post.1 = id
  · simp [heq, ha, (id_eq_iff h hpost).1 heq]
  · simp [heq]

/-- Replaced by a post of its class, the only one stays the only one. -/
theorem only_replace (h : only p ops = [(id, b)]) (ha : p a = true) :
    only p (ops ++ [.replace id a]) = [(id, a)] := by
  have hmap : only p (ops ++ [.replace id a]) = (only p ops).map fun _ => (id, a) := by
    rw [only, only, board_snoc, Op.apply, List.filter_map, Function.comp_def,
      List.filter_congr fun post hpost => class_replace h ha hpost]
    refine List.map_congr_left fun post hpost => if_pos ?_
    exact (id_eq_iff h (List.mem_filter.1 hpost).1).2 (List.mem_filter.1 hpost).2
  simp [hmap, h]

/-- No post of another class sees that it is replaced. -/
theorem only_not_replace (h : only p ops = [(id, b)]) (ha : p a = true) :
    only (fun c => !p c) (ops ++ [.replace id a]) = only (fun c => !p c) ops := by
  rw [only, only, board_snoc, Op.apply, List.filter_map, Function.comp_def,
    List.filter_congr fun post hpost => congrArg not (class_replace h ha hpost)]
  refine (List.map_congr_left fun post hpost => if_neg fun heq => ?_).trans (List.map_id' _)
  obtain ⟨hboard, hnot⟩ := List.mem_filter.1 hpost
  simp [(id_eq_iff h hboard).1 heq] at hnot

theorem only_remove (h : only p ops = [(id, b)]) : only p (ops ++ [.remove id]) = [] := by
  rw [only, board_snoc, Op.apply, List.filter_filter, List.filter_eq_nil_iff]
  intro post hpost
  have := id_eq_iff h hpost
  simp_all

theorem only_not_remove (h : only p ops = [(id, b)]) :
    only (fun c => !p c) (ops ++ [.remove id]) = only (fun c => !p c) ops := by
  rw [only, only, board_snoc, Op.apply, List.filter_filter]
  refine List.filter_congr fun post hpost => ?_
  have := id_eq_iff h hpost
  by_cases heq : post.1 = id <;> simp_all

end Classes

end Board
