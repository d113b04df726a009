import Mathlib.Data.List.Infix

/-!
# Trees with named children

A tree is a leaf with a content or a node whose children have names, and a path of names
leads to a subtree. What a subtree that is put at a path changes, and what it leaves as it
is: the rest of the tree, and the rest of the subtree above it.
-/

/-- A leaf with its content, or a node with its named children. -/
inductive NamedTree (κ α : Type*) where
  | leaf (content : α)
  | node (children : List (κ × NamedTree κ α))

namespace NamedTree

variable {κ α : Type*}

/-- A leaf's content; a node has none. -/
def content : NamedTree κ α → Option α
  | leaf content => some content
  | node _ => none

def isNode : NamedTree κ α → Bool
  | leaf _ => false
  | node _ => true

variable [DecidableEq κ]

section Definitions

/-- The child of a name. -/
def child (t : NamedTree κ α) (x : κ) : Option (NamedTree κ α) :=
  match t with
  | leaf _ => none
  | node children => (children.find? fun entry => entry.1 = x).map Prod.snd

/-- A node gets a child of a name, or loses it; a leaf stays as it is. -/
def setChild (t : NamedTree κ α) (x : κ) (v : Option (NamedTree κ α)) : NamedTree κ α :=
  match t with
  | leaf content => leaf content
  | node children =>
      node ((children.filter fun entry => entry.1 ≠ x) ++ (v.map fun c => (x, c)).toList)

/-- The subtree at a path. -/
def get (t : NamedTree κ α) : List κ → Option (NamedTree κ α)
  | [] => some t
  | x :: p => (t.child x).bind fun c => c.get p

/-- A tree is put at a path, or what is there is taken away. Nothing happens where the path
does not lead to a node. -/
def put (v : Option (NamedTree κ α)) (t : NamedTree κ α) : List κ → NamedTree κ α
  | [] => v.getD t
  | [x] => t.setChild x v
  | x :: y :: p => t.setChild x ((t.child x).map fun c => put v c (y :: p))

/-- What stands at a path: nothing, a node, or a leaf with its content. -/
def look (t : NamedTree κ α) (p : List κ) : Option (Option α) := (t.get p).map content

end Definitions

section Children

variable {t : NamedTree κ α} {x y : κ} {v : Option (NamedTree κ α)}

theorem isNode_of_child (h : t.child x ≠ none) : t.isNode = true := by
  cases t with
  | leaf content => exact absurd rfl h
  | node children => rfl

theorem child_setChild_self (h : t.isNode = true) : (t.setChild x v).child x = v := by
  cases t with
  | leaf content => cases h
  | node children =>
      have hnone : (children.filter fun entry => entry.1 ≠ x).find?
          (fun entry => decide (entry.1 = x)) = none := by
        rw [List.find?_eq_none]
        intro entry hentry
        simpa using (List.mem_filter.1 hentry).2
      unfold setChild child
      dsimp only
      rw [List.find?_append, hnone, Option.none_or]
      cases v <;> simp

theorem child_setChild_of_ne (h : y ≠ x) : (t.setChild x v).child y = t.child y := by
  cases t with
  | leaf content => rfl
  | node children =>
      have hfilter : (children.filter fun entry => entry.1 ≠ x).find?
          (fun entry => decide (entry.1 = y)) = children.find? fun entry => decide (entry.1 = y) := by
        rw [List.find?_filter]
        congr 1
        funext entry
        by_cases hy : entry.1 = y
        · simp [hy, h]
        · simp [hy]
      have hlast : ((v.map fun c => (x, c)).toList).find? (fun entry => decide (entry.1 = y)) =
          none := by
        cases v with
        | none => rfl
        | some c => simp [Ne.symm h]
      unfold setChild child
      dsimp only
      rw [List.find?_append, hfilter, hlast, Option.or_none]

/-- A name without a child still has none when none is taken away. -/
theorem child_setChild_none (h : t.child x = none) : (t.setChild x none).child x = none := by
  cases t with
  | leaf content => rfl
  | node children => exact child_setChild_self rfl

theorem content_setChild : (t.setChild x v).content = t.content := by
  cases t <;> rfl

theorem isNode_setChild : (t.setChild x v).isNode = t.isNode := by
  cases t <;> rfl

end Children

section Paths

variable {t s : NamedTree κ α} {v : Option (NamedTree κ α)} {p q r : List κ} {x : κ}

@[simp] theorem get_nil : t.get [] = some t := rfl

theorem get_cons : t.get (x :: p) = (t.child x).bind fun c => c.get p := rfl

theorem put_singleton : put v t [x] = t.setChild x v := rfl

theorem put_cons (h : p ≠ []) :
    put v t (x :: p) = t.setChild x ((t.child x).map fun c => put v c p) := by
  obtain ⟨y, p, rfl⟩ := List.exists_cons_of_ne_nil h
  rfl

theorem get_append : t.get (p ++ q) = (t.get p).bind fun c => c.get q := by
  induction p generalizing t with
  | nil => rfl
  | cons x p ih =>
      rw [List.cons_append, get_cons, get_cons, Option.bind_assoc]
      exact Option.bind_congr fun c _ => ih

/-- What lies above a subtree is a node. -/
theorem isNode_of_get_append (h : t.get (p ++ q) ≠ none) (hq : q ≠ []) :
    ∃ c, t.get p = some c ∧ c.isNode = true := by
  obtain ⟨x, q, rfl⟩ := List.exists_cons_of_ne_nil hq
  rw [get_append] at h
  cases hp : t.get p with
  | none =>
      rw [hp] at h
      exact absurd rfl h
  | some c =>
      rw [hp] at h
      refine ⟨c, rfl, isNode_of_child (x := x) fun hchild => h ?_⟩
      simp [get_cons, hchild]

/-- What is put below a subtree is put into this subtree. -/
theorem get_put_append (h : t.get p = some s) (hq : q ≠ []) :
    (put v t (p ++ q)).get p = some (put v s q) := by
  induction p generalizing t with
  | nil =>
      obtain rfl : t = s := Option.some.inj h
      rfl
  | cons x p ih =>
      rw [get_cons] at h
      obtain ⟨c, hc, hget⟩ := Option.bind_eq_some_iff.1 h
      have hnode : t.isNode = true := isNode_of_child (x := x) (by simp [hc])
      rw [List.cons_append, put_cons (by simp [hq]), get_cons, child_setChild_self hnode, hc]
      exact ih hget

/-- What is put at a path changes nothing anywhere else. -/
theorem look_put_of_outside (hp : p ≠ []) (h : ¬ p <+: r) : (put v t p).look r = t.look r := by
  induction p generalizing t r with
  | nil => exact absurd rfl hp
  | cons x p ih =>
      cases r with
      | nil =>
          have hcontent : (put v t (x :: p)).content = t.content := by
            cases p with
            | nil => exact content_setChild
            | cons y p => exact content_setChild
          exact congrArg some hcontent
      | cons z r =>
          unfold look
          rw [get_cons, get_cons]
          by_cases hz : z = x
          · subst hz
            have htail : ¬ p <+: r := fun hpr => h (List.cons_prefix_cons.2 ⟨rfl, hpr⟩)
            have hne : p ≠ [] := fun hnil => htail (hnil ▸ List.nil_prefix)
            rw [put_cons hne]
            cases hc : t.child z with
            | none => rw [Option.map_none, child_setChild_none hc]
            | some c =>
                have hnode : t.isNode = true := isNode_of_child (x := z) (by simp [hc])
                rw [Option.map_some, child_setChild_self hnode]
                exact ih hne htail
          · have hchild : (put v t (x :: p)).child z = t.child z := by
              cases p with
              | nil => exact child_setChild_of_ne hz
              | cons y p => exact child_setChild_of_ne hz
            rw [hchild]

theorem isNode_put (hp : p ≠ []) : (put v t p).isNode = t.isNode := by
  obtain ⟨x, p, rfl⟩ := List.exists_cons_of_ne_nil hp
  cases p with
  | nil => exact isNode_setChild
  | cons y p => exact isNode_setChild

/-- A tree that is put where the path leads to a node is found there. -/
theorem get_put_self (h : t.get p = some s) (hs : s.isNode = true) :
    (put v t (p ++ [x])).get (p ++ [x]) = v := by
  rw [get_append, get_put_append h (by simp)]
  rw [Option.bind_some, put_singleton, get_cons, child_setChild_self hs]
  cases v <;> rfl

end Paths

section Hosting

variable (root : List κ) (origin : NamedTree κ α)

/-- A tree that has grown out of another one by changes to the subtree at the root: there
it has the given subtree, and everywhere else it is as it was. -/
structure Hosts (t s : NamedTree κ α) : Prop where
  inside : t.get root = some s
  outside : ∀ p, ¬ root <+: p → t.look p = origin.look p

variable {root origin} {t s : NamedTree κ α} {v : Option (NamedTree κ α)} {q : List κ}

theorem Hosts.refl (h : origin.get root = some s) : Hosts root origin origin s :=
  ⟨h, fun _ _ => rfl⟩

theorem Hosts.get (h : Hosts root origin t s) (q : List κ) : t.get (root ++ q) = s.get q := by
  rw [get_append, h.inside]
  rfl

/-- A change below the root is a change of the subtree. -/
theorem Hosts.put (h : Hosts root origin t s) (hq : q ≠ []) :
    Hosts root origin (put v t (root ++ q)) (NamedTree.put v s q) where
  inside := get_put_append h.inside hq
  outside p hp := by
    have hnot : ¬ root ++ q <+: p := fun hprefix => hp ((List.prefix_append root q).trans hprefix)
    rw [look_put_of_outside (by simp [hq]) hnot, h.outside p hp]

end Hosting

end NamedTree
