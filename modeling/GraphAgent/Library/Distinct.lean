import Mathlib.Data.List.Basic
import Mathlib.Data.List.Induction
import Mathlib.Data.List.Nodup
import Mathlib.Data.Set.Basic

/-!
# Items with distinct keys

Items are looked at one after the other and marked. One without a key, or with a key that
nobody has seen, is taken; one is left out if its key has been seen, or if enough are taken.
-/

namespace GraphAgent.Distinct

variable {α κ : Type*} (key : α → Option κ)

/-- The keys of some items. -/
def keys (items : List α) : List κ := items.filterMap key

/-- What stands at a place in a list that ends with an item is that item, or stands in the
list before it. -/
theorem concat_eq_append_cons {items before after : List α} {last item : α}
    (h : items ++ [last] = before ++ item :: after) :
    items = before ∧ last = item ∨ ∃ after, items = before ++ item :: after := by
  rcases List.eq_nil_or_concat' after with rfl | ⟨after, final, rfl⟩
  · obtain ⟨hitems, hlast⟩ := List.append_inj' h rfl
    exact Or.inl ⟨hitems, (List.cons.inj hlast).1⟩
  · rw [← List.cons_append, ← List.append_assoc] at h
    exact Or.inr ⟨after, (List.append_inj' h rfl).1⟩

/-- The items that are marked as taken. -/
def taken (marked : List (α × Bool)) : List α := (marked.filter Prod.snd).map Prod.fst

/-- Why each of the items has its mark. -/
inductive Account (enough : Nat → Prop) (seen : Set κ) : List (α × Bool) → Prop
  | nil : Account enough seen []
  | take {marked : List (α × Bool)} {item : α} (account : Account enough seen marked)
      (fresh : ∀ k, key item = some k → k ∉ seen ∧ k ∉ keys key (taken marked)) :
      Account enough seen (marked ++ [(item, true)])
  | skip {marked : List (α × Bool)} {item : α} (account : Account enough seen marked)
      (reason : (∃ k, key item = some k ∧ (k ∈ seen ∨ k ∈ keys key (taken marked))) ∨
        enough (taken marked).length) :
      Account enough seen (marked ++ [(item, false)])

variable {key} {enough : Nat → Prop} {seen : Set κ} {marked : List (α × Bool)} {item : α}

@[simp] theorem keys_append (items items' : List α) :
    keys key (items ++ items') = keys key items ++ keys key items' := List.filterMap_append

theorem mem_keys {items : List α} {k : κ} :
    k ∈ keys key items ↔ ∃ item ∈ items, key item = some k := List.mem_filterMap

@[simp] theorem taken_append (marked marked' : List (α × Bool)) :
    taken (marked ++ marked') = taken marked ++ taken marked' := by
  rw [taken, List.filter_append, List.map_append]
  rfl

@[simp] theorem taken_true (item : α) : taken [(item, true)] = [item] := rfl

@[simp] theorem taken_false (item : α) : taken [(item, false)] = [] := rfl

theorem taken_map_false (items : List α) : taken (items.map fun item => (item, false)) = [] := by
  induction items with
  | nil => rfl
  | cons item rest ih => exact ih

theorem fst_map_false (items : List α) :
    (items.map fun item => (item, false)).map Prod.fst = items := by
  rw [List.map_map]
  exact List.map_id items

/-- What is taken stands in the order of the items. -/
theorem taken_sublist (marked : List (α × Bool)) : (taken marked).Sublist (marked.map Prod.fst) :=
  List.filter_sublist.map Prod.fst

/-- Nothing that is taken has been seen before. -/
theorem Account.unseen (h : Account key enough seen marked) :
    ∀ k ∈ keys key (taken marked), k ∉ seen := by
  induction h with
  | nil => nofun
  | @take marked item _ fresh ih =>
      rw [taken_append, keys_append, taken_true]
      intro k hk
      rcases List.mem_append.mp hk with hold | hnew
      · exact ih k hold
      · obtain ⟨other, hother, hkey⟩ := mem_keys.mp hnew
        obtain rfl := List.mem_singleton.mp hother
        exact (fresh k hkey).1
  | skip _ _ ih =>
      rw [taken_append, taken_false, List.append_nil]
      exact ih

/-- No two of the items that are taken have got the same key. -/
theorem Account.nodup (h : Account key enough seen marked) : (keys key (taken marked)).Nodup := by
  induction h with
  | nil => exact List.nodup_nil
  | @take marked item _ fresh ih =>
      rw [taken_append, keys_append, taken_true]
      cases hkey : key item with
      | none =>
          have hnone : keys key [item] = [] := List.filterMap_cons_none hkey
          rw [hnone, List.append_nil]
          exact ih
      | some k =>
          have hsome : keys key [item] = [k] := List.filterMap_cons_some hkey
          rw [hsome]
          exact List.nodup_append.mpr ⟨ih, List.nodup_singleton k, fun other hother new hnew heq =>
            (fresh k hkey).2 (List.mem_singleton.mp hnew ▸ heq ▸ hother)⟩
  | skip _ _ ih =>
      rw [taken_append, taken_false, List.append_nil]
      exact ih

/-- Once enough are taken, the rest is left out. -/
theorem Account.rest (h : Account key enough seen marked) (hfull : enough (taken marked).length)
    (items : List α) :
    Account key enough seen (marked ++ items.map fun item => (item, false)) := by
  induction items using List.reverseRecOn with
  | nil => exact (List.append_nil marked).symm ▸ h
  | append_singleton front last ih =>
      rw [List.map_append, ← List.append_assoc]
      refine .skip ih (Or.inr ?_)
      rw [taken_append, taken_map_false, List.append_nil]
      exact hfull

/-- An item is left out only if an item with its key has been seen or taken before, or enough
are taken. -/
theorem Account.reason (h : Account key enough seen marked) {before after : List (α × Bool)}
    (hmarked : marked = before ++ (item, false) :: after) :
    (∃ k, key item = some k ∧ (k ∈ seen ∨ k ∈ keys key (taken before))) ∨
      enough (taken before).length := by
  induction h generalizing after with
  | nil => exact absurd hmarked (by simp)
  | @take marked other _ _ ih =>
      rcases concat_eq_append_cons hmarked with ⟨-, hlast⟩ | ⟨after, hbefore⟩
      · cases hlast
      · exact ih hbefore
  | @skip marked other _ reason ih =>
      rcases concat_eq_append_cons hmarked with ⟨rfl, hlast⟩ | ⟨after, hbefore⟩
      · obtain ⟨rfl, -⟩ := Prod.mk.inj hlast
        exact reason
      · exact ih hbefore

end GraphAgent.Distinct
