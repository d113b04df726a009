import Mathlib.Data.List.DropRight
import Mathlib.Data.List.Flatten
import Mathlib.Data.List.Perm.Basic
import Mathlib.Data.Multiset.AddSub

/-!
# Histories of questions and answers

An item of a history asks a list of keys, answers one key, or does neither. A
history is well paired when it is a sequence of plain items and of rounds: an
asking item followed by a block of answers whose keys are the asked ones up to
order. `mend` turns any history into a well paired one; it drops an answer that
nothing asks for and fills in the answers that are missing.
-/

namespace Pairing

universe u v

/-- What an item does. -/
inductive Kind (κ : Type v) where
  | asks (keys : List κ)
  | answers (key : κ)
  | plain

section Histories

variable {α : Type u} {κ : Type v} (kind : α → Kind κ)

/-- An asking item with a complete block of answers. -/
structure Round where
  ask : α
  keys : List κ
  block : List α
  given : List κ
  ask_kind : kind ask = .asks keys
  block_kind : block.map kind = given.map .answers
  complete : given.Perm keys

/-- The parts that a well paired history is made of. -/
inductive Segment where
  | plain (item : α) (item_kind : kind item = .plain)
  | round (r : Round kind)

variable {kind}

/-- The items of a segment in order. -/
def Segment.items : Segment kind → List α
  | .plain item _ => [item]
  | .round r => r.ask :: r.block

variable (kind)

/-- Every question is directly followed by exactly its answers, and there is no
other answer. -/
def WellPaired (history : List α) : Prop :=
  ∃ segments : List (Segment kind), history = segments.flatMap Segment.items

/-- The history starts with answers to exactly the keys that are owed and is
well paired from there on. -/
def Settles [DecidableEq κ] (owed : List κ) : List α → Prop
  | [] => owed = []
  | item :: rest =>
      match kind item with
      | .asks keys => owed = [] ∧ Settles keys rest
      | .answers key => key ∈ owed ∧ Settles (owed.erase key) rest
      | .plain => owed = [] ∧ Settles [] rest

/-- Read a history with some keys owed: an answer is kept when its key is owed,
and whatever is still owed is filled in before the next item that is no answer. -/
def mend [DecidableEq κ] (fill : κ → α) (owed : List κ) : List α → List α
  | [] => owed.map fill
  | item :: rest =>
      match kind item with
      | .asks keys => owed.map fill ++ item :: mend fill keys rest
      | .answers key =>
          if key ∈ owed then item :: mend fill (owed.erase key) rest else mend fill owed rest
      | .plain => owed.map fill ++ item :: mend fill [] rest

end Histories

section Settling

variable {α : Type u} {κ : Type v} [DecidableEq κ] {kind : α → Kind κ}

@[simp] theorem settles_nil (owed : List κ) : Settles kind owed [] ↔ owed = [] := Iff.rfl

theorem settles_asks {item : α} {keys : List κ} (h : kind item = .asks keys) (owed : List κ)
    (rest : List α) :
    Settles kind owed (item :: rest) ↔ owed = [] ∧ Settles kind keys rest := by
  simp only [Settles, h]

theorem settles_answers {item : α} {key : κ} (h : kind item = .answers key) (owed : List κ)
    (rest : List α) :
    Settles kind owed (item :: rest) ↔ key ∈ owed ∧ Settles kind (owed.erase key) rest := by
  simp only [Settles, h]

theorem settles_plain {item : α} (h : kind item = .plain) (owed : List κ) (rest : List α) :
    Settles kind owed (item :: rest) ↔ owed = [] ∧ Settles kind [] rest := by
  simp only [Settles, h]

/-- The first item of a block of answers to the owed keys answers one of them, and the rest
of the block the others. -/
theorem block_cons {item : α} {block : List α} {given owed : List κ}
    (hblock : (item :: block).map kind = given.map .answers) (hperm : given.Perm owed) :
    ∃ (key : κ) (later : List κ), kind item = .answers key ∧ key ∈ owed ∧
      block.map kind = later.map .answers ∧ later.Perm (owed.erase key) := by
  cases given with
  | nil => simp at hblock
  | cons key given =>
      simp only [List.map_cons, List.cons.injEq] at hblock
      have hrest : given.Perm (owed.erase key) := by
        simpa using hperm.erase key
      exact ⟨key, given, hblock.1, hperm.subset List.mem_cons_self, hblock.2, hrest⟩

/-- A block of answers settles exactly the keys it answers, in any order. -/
theorem settles_block {block : List α} {given owed : List κ}
    (hblock : block.map kind = given.map .answers) (hperm : given.Perm owed) {rest : List α} :
    Settles kind owed (block ++ rest) ↔ Settles kind [] rest := by
  induction block generalizing given owed with
  | nil =>
      obtain rfl : given = [] := by simpa using hblock.symm
      simp [List.nil_perm.mp hperm]
  | cons item block ih =>
      obtain ⟨key, later, hitem, hmem, hblock, hrest⟩ := block_cons hblock hperm
      rw [List.cons_append, settles_answers hitem, ih hblock hrest]
      simp [hmem]

/-- What settles the owed keys is a block of answers to them and then a well
paired history. -/
theorem exists_block_of_settles {history : List α} {owed : List κ}
    (h : Settles kind owed history) :
    ∃ (block : List α) (given : List κ) (rest : List α), history = block ++ rest ∧
      block.map kind = given.map .answers ∧ given.Perm owed ∧ WellPaired kind rest := by
  induction history generalizing owed with
  | nil =>
      obtain rfl : owed = [] := h
      exact ⟨[], [], [], rfl, rfl, List.Perm.nil, [], rfl⟩
  | cons item rest ih =>
      cases hkind : kind item with
      | asks keys =>
          obtain ⟨rfl, hrest⟩ := (settles_asks hkind owed rest).mp h
          obtain ⟨block, given, tail, rfl, hblock, hperm, segments, rfl⟩ := ih hrest
          exact ⟨[], [], _, rfl, rfl, List.Perm.nil,
            .round ⟨item, keys, block, given, hkind, hblock, hperm⟩ :: segments, by
              simp [Segment.items]⟩
      | answers key =>
          obtain ⟨hmem, hrest⟩ := (settles_answers hkind owed rest).mp h
          obtain ⟨block, given, tail, rfl, hblock, hperm, hpaired⟩ := ih hrest
          refine ⟨item :: block, key :: given, tail, rfl, by simp [hkind, hblock], ?_, hpaired⟩
          exact (hperm.cons key).trans (List.perm_cons_erase hmem).symm
      | plain =>
          obtain ⟨rfl, hrest⟩ := (settles_plain hkind owed rest).mp h
          obtain ⟨block, given, tail, rfl, hblock, hperm, segments, rfl⟩ := ih hrest
          obtain rfl : given = [] := hperm.eq_nil
          obtain rfl : block = [] := by simpa using hblock
          exact ⟨[], [], _, rfl, rfl, List.Perm.nil, .plain item hkind :: segments, by
            simp [Segment.items]⟩

/-- The reading with owed keys decides well pairing. -/
theorem wellPaired_iff_settles (history : List α) :
    WellPaired kind history ↔ Settles kind [] history := by
  constructor
  · rintro ⟨segments, rfl⟩
    induction segments with
    | nil => simp
    | cons segment segments ih =>
        cases segment with
        | plain item hkind =>
            simpa [Segment.items, settles_plain hkind] using ih
        | round r =>
            simp only [List.flatMap_cons, Segment.items, List.cons_append, settles_asks r.ask_kind,
              settles_block r.block_kind r.complete]
            exact ⟨trivial, ih⟩
  · intro h
    obtain ⟨block, given, rest, rfl, hblock, hperm, hpaired⟩ := exists_block_of_settles h
    obtain rfl : given = [] := hperm.eq_nil
    obtain rfl : block = [] := by simpa using hblock
    exact hpaired

/-- A settled history followed by a well paired one is settled. -/
theorem settles_append {history later : List α} {owed : List κ} (h : Settles kind owed history)
    (hlater : Settles kind [] later) : Settles kind owed (history ++ later) := by
  induction history generalizing owed with
  | nil =>
      obtain rfl : owed = [] := h
      exact hlater
  | cons item rest ih =>
      cases hkind : kind item with
      | asks keys =>
          obtain ⟨howed, hrest⟩ := (settles_asks hkind owed rest).mp h
          exact (settles_asks hkind owed _).mpr ⟨howed, ih hrest⟩
      | answers key =>
          obtain ⟨hmem, hrest⟩ := (settles_answers hkind owed rest).mp h
          exact (settles_answers hkind owed _).mpr ⟨hmem, ih hrest⟩
      | plain =>
          obtain ⟨howed, hrest⟩ := (settles_plain hkind owed rest).mp h
          exact (settles_plain hkind owed _).mpr ⟨howed, ih hrest⟩

/-- A settled history can be cut before every item that is no answer. -/
theorem settles_cut {before after : List α} {item : α} {owed : List κ}
    (h : Settles kind owed (before ++ item :: after)) (hitem : ∀ key, kind item ≠ .answers key) :
    Settles kind owed before ∧ Settles kind [] (item :: after) := by
  induction before generalizing owed with
  | nil =>
      cases hkind : kind item with
      | asks keys =>
          obtain ⟨howed, hafter⟩ := (settles_asks hkind owed after).mp h
          exact ⟨howed, (settles_asks hkind [] after).mpr ⟨rfl, hafter⟩⟩
      | answers key => exact absurd hkind (hitem key)
      | plain =>
          obtain ⟨howed, hafter⟩ := (settles_plain hkind owed after).mp h
          exact ⟨howed, (settles_plain hkind [] after).mpr ⟨rfl, hafter⟩⟩
  | cons first before ih =>
      rw [List.cons_append] at h
      cases hkind : kind first with
      | asks keys =>
          obtain ⟨howed, hrest⟩ := (settles_asks hkind owed _).mp h
          exact ⟨(settles_asks hkind owed _).mpr ⟨howed, (ih hrest).1⟩, (ih hrest).2⟩
      | answers key =>
          obtain ⟨hmem, hrest⟩ := (settles_answers hkind owed _).mp h
          exact ⟨(settles_answers hkind owed _).mpr ⟨hmem, (ih hrest).1⟩, (ih hrest).2⟩
      | plain =>
          obtain ⟨howed, hrest⟩ := (settles_plain hkind owed _).mp h
          exact ⟨(settles_plain hkind owed _).mpr ⟨howed, (ih hrest).1⟩, (ih hrest).2⟩

end Settling

section Mending

variable {α : Type u} {κ : Type v} [DecidableEq κ] {kind : α → Kind κ} {fill : κ → α}

theorem mend_asks {item : α} {keys : List κ} (h : kind item = .asks keys) (owed : List κ)
    (rest : List α) :
    mend kind fill owed (item :: rest) = owed.map fill ++ item :: mend kind fill keys rest := by
  simp only [mend, h]

theorem mend_answers {item : α} {key : κ} (h : kind item = .answers key) (owed : List κ)
    (rest : List α) :
    mend kind fill owed (item :: rest) =
      if key ∈ owed then item :: mend kind fill (owed.erase key) rest
      else mend kind fill owed rest := by
  simp only [mend, h]

theorem mend_plain {item : α} (h : kind item = .plain) (owed : List κ) (rest : List α) :
    mend kind fill owed (item :: rest) = owed.map fill ++ item :: mend kind fill [] rest := by
  simp only [mend, h]

/-- Mending does not look across an item that is no answer. -/
theorem mend_cut {before after : List α} {item : α} (hitem : ∀ key, kind item ≠ .answers key)
    (owed : List κ) :
    mend kind fill owed (before ++ item :: after) =
      mend kind fill owed before ++ mend kind fill [] (item :: after) := by
  induction before generalizing owed with
  | nil =>
      cases hkind : kind item with
      | asks keys =>
          rw [List.nil_append, mend_asks hkind, mend_asks hkind]
          rfl
      | answers key => exact absurd hkind (hitem key)
      | plain =>
          rw [List.nil_append, mend_plain hkind, mend_plain hkind]
          rfl
  | cons first before ih =>
      rw [List.cons_append]
      cases hkind : kind first with
      | asks keys => simp [mend_asks hkind, ih]
      | answers key =>
          rw [mend_answers hkind, mend_answers hkind, ih, ih]
          split <;> rfl
      | plain => simp [mend_plain hkind, ih]

/-- Mending keeps a block of answers to exactly the owed keys. -/
theorem mend_block {block : List α} {given owed : List κ}
    (hblock : block.map kind = given.map .answers) (hperm : given.Perm owed) (rest : List α) :
    mend kind fill owed (block ++ rest) = block ++ mend kind fill [] rest := by
  induction block generalizing given owed with
  | nil =>
      obtain rfl : given = [] := by simpa using hblock.symm
      rw [List.nil_perm.mp hperm]
      rfl
  | cons item block ih =>
      obtain ⟨key, later, hitem, hmem, hblock, hrest⟩ := block_cons hblock hperm
      rw [List.cons_append, mend_answers hitem, if_pos hmem, ih hblock hrest, List.cons_append]

variable (hfill : ∀ key, kind (fill key) = .answers key)

include hfill in
theorem settles_fill (owed : List κ) (rest : List α) :
    Settles kind owed (owed.map fill ++ rest) ↔ Settles kind [] rest :=
  settles_block (by simp [Function.comp_def, hfill]) (List.Perm.refl owed)

include hfill in
/-- Mending settles exactly the keys that were owed. -/
theorem mend_settles (owed : List κ) (history : List α) :
    Settles kind owed (mend kind fill owed history) := by
  induction history generalizing owed with
  | nil =>
      have h := (settles_fill hfill owed []).mpr rfl
      rwa [List.append_nil] at h
  | cons item rest ih =>
      cases hkind : kind item with
      | asks keys =>
          rw [mend_asks hkind, settles_fill hfill]
          exact (settles_asks hkind [] _).mpr ⟨rfl, ih keys⟩
      | answers key =>
          rw [mend_answers hkind]
          split
          case isTrue hmem => exact (settles_answers hkind owed _).mpr ⟨hmem, ih _⟩
          case isFalse => exact ih owed
      | plain =>
          rw [mend_plain hkind, settles_fill hfill]
          exact (settles_plain hkind [] _).mpr ⟨rfl, ih []⟩

/-- A settled history needs no mending. -/
theorem mend_of_settles {owed : List κ} {history : List α} (h : Settles kind owed history) :
    mend kind fill owed history = history := by
  induction history generalizing owed with
  | nil =>
      obtain rfl : owed = [] := h
      rfl
  | cons item rest ih =>
      cases hkind : kind item with
      | asks keys =>
          obtain ⟨rfl, hrest⟩ := (settles_asks hkind owed rest).mp h
          simp [mend_asks hkind, ih hrest]
      | answers key =>
          obtain ⟨hmem, hrest⟩ := (settles_answers hkind owed rest).mp h
          simp [mend_answers hkind, hmem, ih hrest]
      | plain =>
          obtain ⟨rfl, hrest⟩ := (settles_plain hkind owed rest).mp h
          simp [mend_plain hkind, ih hrest]

/-- Behind a settled history mending begins anew. -/
theorem mend_append_of_settles {owed : List κ} {history : List α}
    (h : Settles kind owed history) (later : List α) :
    mend kind fill owed (history ++ later) = history ++ mend kind fill [] later := by
  induction history generalizing owed with
  | nil =>
      obtain rfl : owed = [] := h
      rfl
  | cons item rest ih =>
      cases hkind : kind item with
      | asks keys =>
          obtain ⟨rfl, hrest⟩ := (settles_asks hkind owed rest).mp h
          rw [List.cons_append, mend_asks hkind, ih hrest]
          rfl
      | answers key =>
          obtain ⟨hmem, hrest⟩ := (settles_answers hkind owed rest).mp h
          rw [List.cons_append, mend_answers hkind, if_pos hmem, ih hrest]
          rfl
      | plain =>
          obtain ⟨rfl, hrest⟩ := (settles_plain hkind owed rest).mp h
          rw [List.cons_append, mend_plain hkind, ih hrest]
          rfl

/-- Mending adds nothing but fillings. -/
theorem mem_mend {item : α} {owed : List κ} {history : List α}
    (h : item ∈ mend kind fill owed history) : item ∈ history ∨ ∃ key, item = fill key := by
  induction history generalizing owed with
  | nil =>
      obtain ⟨key, -, rfl⟩ := List.mem_map.mp h
      exact Or.inr ⟨key, rfl⟩
  | cons first rest ih =>
      have hback : ∀ {owed}, item ∈ mend kind fill owed rest →
          item ∈ first :: rest ∨ ∃ key, item = fill key :=
        fun hmem => (ih hmem).imp_left (List.mem_cons_of_mem _)
      have hfront : ∀ {keys : List κ}, item ∈ owed.map fill ++ first :: mend kind fill keys rest →
          item ∈ first :: rest ∨ ∃ key, item = fill key := by
        intro keys hmem
        rcases List.mem_append.mp hmem with hfilled | hmem
        · obtain ⟨key, -, rfl⟩ := List.mem_map.mp hfilled
          exact Or.inr ⟨key, rfl⟩
        · rcases List.mem_cons.mp hmem with rfl | hmem
          · exact Or.inl List.mem_cons_self
          · exact hback hmem
      cases hkind : kind first with
      | asks keys =>
          rw [mend_asks hkind] at h
          exact hfront h
      | answers key =>
          rw [mend_answers hkind] at h
          split at h
          · rcases List.mem_cons.mp h with rfl | h
            · exact Or.inl List.mem_cons_self
            · exact hback h
          · exact hback h
      | plain =>
          rw [mend_plain hkind] at h
          exact hfront h

/-- Whether a history is settled depends on what its items do only. -/
theorem settles_of_map_eq {history other : List α} (hmap : history.map kind = other.map kind)
    {owed : List κ} (h : Settles kind owed history) : Settles kind owed other := by
  induction history generalizing other owed with
  | nil =>
      rw [List.map_nil, eq_comm, List.map_eq_nil_iff] at hmap
      rwa [hmap]
  | cons item rest ih =>
      cases other with
      | nil => simp at hmap
      | cons item' rest' =>
          obtain ⟨hitem, hrest⟩ := List.cons.inj hmap
          cases hkind : kind item with
          | asks keys =>
              rw [settles_asks hkind] at h
              exact (settles_asks (hitem.symm.trans hkind) owed rest').mpr ⟨h.1, ih hrest h.2⟩
          | answers key =>
              rw [settles_answers hkind] at h
              exact (settles_answers (hitem.symm.trans hkind) owed rest').mpr ⟨h.1, ih hrest h.2⟩
          | plain =>
              rw [settles_plain hkind] at h
              exact (settles_plain (hitem.symm.trans hkind) owed rest').mpr ⟨h.1, ih hrest h.2⟩

include hfill in
/-- Mending leaves a history unchanged exactly when it settles the owed keys. -/
theorem mend_eq_self_iff (owed : List κ) (history : List α) :
    mend kind fill owed history = history ↔ Settles kind owed history :=
  ⟨fun h => h ▸ mend_settles hfill owed history, mend_of_settles⟩

end Mending

section Accounts

variable {α : Type u} {κ : Type v}

/-- The keys that a kind asks for. -/
def Kind.keys : Kind κ → List κ
  | .asks keys => keys
  | _ => []

/-- The key that a kind answers. -/
def Kind.key? : Kind κ → Option κ
  | .answers key => some key
  | _ => none

@[simp] theorem Kind.key?_asks (keys : List κ) : (Kind.asks keys).key? = none := rfl

@[simp] theorem Kind.key?_answers (key : κ) : (Kind.answers key).key? = some key := rfl

@[simp] theorem Kind.key?_plain : (Kind.plain : Kind κ).key? = none := rfl

variable (kind : α → Kind κ)

/-- The keys that the last item of a history asks for that is no answer. -/
def asked (history : List α) : List κ :=
  ((history.reverse.find? fun item => (kind item).key?.isNone).map fun item =>
    (kind item).keys).getD []

/-- The keys of the answers behind that item. -/
def given (history : List α) : List κ :=
  (history.rtakeWhile fun item => (kind item).key?.isSome).filterMap fun item => (kind item).key?

variable [DecidableEq κ]

/-- The keys that are asked for and not yet answered, in the order of the question. -/
def unanswered (history : List α) : List κ := (asked kind history).diff (given kind history)

/-- An item stays in a history unless it answers a key that has been answered as often
before as it has been asked for. -/
def kept (before : List α) (item : α) : List α :=
  match (kind item).key? with
  | none => [item]
  | some key =>
      if (given kind before).count key < (asked kind before).count key then [item] else []

/-- What is filled in behind a block of answers: nothing, where another answer follows. -/
def filled (fill : κ → α) (before after : List α) : List α :=
  if (after.head?.bind fun item => (kind item).key?).isSome then []
  else (unanswered kind before).map fill

/-- The items of a history, each with those before it and those behind it. -/
def positions (before : List α) : List α → List (List α × α × List α)
  | [] => []
  | item :: after => (before, item, after) :: positions (before ++ [item]) after

/-- What becomes of the item at a position of a history. -/
def outcome (fill : κ → α) (position : List α × α × List α) : List α :=
  kept kind position.1 position.2.1 ++
    filled kind fill (position.1 ++ [position.2.1]) position.2.2

end Accounts

section Accounting

variable {α : Type u} {κ : Type v} {kind : α → Kind κ} {before : List α} {item : α}
  {key : κ} {keys : List κ}

theorem exists_answers (h : (kind item).key? ≠ none) : ∃ key, kind item = .answers key := by
  cases hkind : kind item with
  | answers key => exact ⟨key, rfl⟩
  | _ =>
      rw [hkind] at h
      exact absurd rfl h

/-- An item that is no answer begins a new account. -/
theorem asked_concat_of_none (h : (kind item).key? = none) (before : List α) :
    asked kind (before ++ [item]) = (kind item).keys := by
  simp [asked, h]

theorem given_concat_of_none (h : (kind item).key? = none) (before : List α) :
    given kind (before ++ [item]) = [] := by
  simp [given, h]

/-- An answer goes into the account of the question before it. -/
theorem asked_concat_of_answers (h : kind item = .answers key) (before : List α) :
    asked kind (before ++ [item]) = asked kind before := by
  simp [asked, h]

theorem given_concat_of_answers (h : kind item = .answers key) (before : List α) :
    given kind (before ++ [item]) = given kind before ++ [key] := by
  simp [given, h]

/-- A history that owes nothing does not start with an answer. -/
theorem key?_head_of_settles [DecidableEq κ] {rest : List α}
    (h : Settles kind [] (item :: rest)) : (kind item).key? = none := by
  cases hkind : kind item with
  | answers key => exact nomatch ((settles_answers hkind [] rest).mp h).1
  | _ => rfl

/-- Items that are answers go into the account of the question before them. -/
theorem asked_append_of_answers {block : List α}
    (h : ∀ item ∈ block, (kind item).key? ≠ none) (before : List α) :
    asked kind (before ++ block) = asked kind before := by
  induction block generalizing before with
  | nil => rw [List.append_nil]
  | cons item block ih =>
      obtain ⟨hitem, hblock⟩ := List.forall_mem_cons.mp h
      have hrest := ih hblock (before ++ [item])
      obtain ⟨key, hkey⟩ := exists_answers hitem
      rw [asked_concat_of_answers hkey, List.append_assoc, List.singleton_append] at hrest
      exact hrest

theorem given_append_of_answers {block : List α}
    (h : ∀ item ∈ block, (kind item).key? ≠ none) (before : List α) :
    given kind (before ++ block) =
      given kind before ++ block.filterMap fun item => (kind item).key? := by
  induction block generalizing before with
  | nil => simp
  | cons item block ih =>
      obtain ⟨hitem, hblock⟩ := List.forall_mem_cons.mp h
      have hrest := ih hblock (before ++ [item])
      obtain ⟨key, hkey⟩ := exists_answers hitem
      rw [given_concat_of_answers hkey] at hrest
      simpa [hkey] using hrest

variable [DecidableEq κ]

theorem unanswered_concat_of_none (h : (kind item).key? = none) (before : List α) :
    unanswered kind (before ++ [item]) = (kind item).keys := by
  rw [unanswered, asked_concat_of_none h, given_concat_of_none h, List.diff_nil]

theorem unanswered_concat_of_answers (h : kind item = .answers key) (before : List α) :
    unanswered kind (before ++ [item]) = (unanswered kind before).erase key := by
  rw [unanswered, asked_concat_of_answers h, given_concat_of_answers h, List.diff_append,
    List.diff_cons, List.diff_nil]
  rfl

/-- The unanswered keys are, as a multiset, the asked ones without the given ones. -/
theorem count_unanswered (history : List α) (key : κ) :
    (unanswered kind history).count key =
      (asked kind history).count key - (given kind history).count key := by
  rw [← Multiset.coe_count, unanswered, ← Multiset.coe_sub, Multiset.count_sub,
    Multiset.coe_count, Multiset.coe_count]

theorem mem_unanswered (history : List α) (key : κ) :
    key ∈ unanswered kind history ↔
      (given kind history).count key < (asked kind history).count key := by
  rw [← List.count_pos_iff, count_unanswered]
  omega

variable {fill : κ → α}

/-- Mending the rest of a history does at each position what the account there says. -/
theorem mend_unanswered (before history : List α) :
    mend kind fill (unanswered kind before) history =
      filled kind fill before history ++
        (positions before history).flatMap (outcome kind fill) := by
  induction history generalizing before with
  | nil => simp [mend, filled, positions]
  | cons item rest ih =>
      have hrest := ih (before ++ [item])
      cases hkind : kind item with
      | asks keys =>
          rw [unanswered_concat_of_none (by simp [hkind]), hkind] at hrest
          rw [mend_asks hkind, show keys = (Kind.asks keys).keys from rfl, hrest]
          simp [filled, positions, outcome, kept, hkind]
      | answers key =>
          rw [unanswered_concat_of_answers hkind] at hrest
          rw [mend_answers hkind]
          split
          case isTrue hmem =>
            rw [hrest]
            simp [filled, positions, outcome, kept, hkind, (mem_unanswered _ _).mp hmem]
          case isFalse hnot =>
            have hspent := mt (mem_unanswered before key).mpr hnot
            rw [List.erase_of_not_mem hnot] at hrest
            rw [hrest]
            simp [filled, positions, outcome, kept, hkind, hspent]
      | plain =>
          rw [unanswered_concat_of_none (by simp [hkind]), hkind] at hrest
          rw [mend_plain hkind, show ([] : List κ) = (Kind.plain : Kind κ).keys from rfl, hrest]
          simp [filled, positions, outcome, kept, hkind]

/-- Where a key is filled in behind a block, every answer to it in the block is kept. -/
theorem kept_of_unanswered {block : List α} (hitem : kind item = .answers key)
    (hblock : ∀ later ∈ block, (kind later).key? ≠ none)
    (h : key ∈ unanswered kind (before ++ item :: block)) : kept kind before item = [item] := by
  have hall : ∀ later ∈ item :: block, (kind later).key? ≠ none :=
    List.forall_mem_cons.mpr ⟨by simp [hitem], hblock⟩
  rw [mem_unanswered, asked_append_of_answers hall, given_append_of_answers hall,
    List.count_append] at h
  have hlt : (given kind before).count key < (asked kind before).count key := by omega
  simp [kept, hitem, hlt]

/-- Mending leaves the items that are no answers as they are, and in their order. -/
theorem filter_mend (hfill : ∀ key, kind (fill key) = .answers key) (owed : List κ)
    (history : List α) :
    (mend kind fill owed history).filter (fun item => (kind item).key?.isNone) =
      history.filter fun item => (kind item).key?.isNone := by
  have hnone : ∀ owed : List κ,
      (owed.map fill).filter (fun item => (kind item).key?.isNone) = [] := by
    intro owed
    rw [List.filter_eq_nil_iff]
    intro item hitem
    obtain ⟨key, -, rfl⟩ := List.mem_map.mp hitem
    simp [hfill]
  induction history generalizing owed with
  | nil => exact hnone owed
  | cons item rest ih =>
      cases hkind : kind item with
      | asks keys => simp [mend_asks hkind, hnone, ih, hkind]
      | answers key =>
          rw [mend_answers hkind]
          split <;> simp [ih, hkind]
      | plain => simp [mend_plain hkind, hnone, ih, hkind]

/-- What mending makes of a whole history. -/
theorem mend_eq_outcomes (history : List α) :
    mend kind fill [] history = (positions [] history).flatMap (outcome kind fill) := by
  have hmend := @mend_unanswered _ _ kind _ fill [] history
  simpa [unanswered, asked, given, filled] using hmend

end Accounting

end Pairing
