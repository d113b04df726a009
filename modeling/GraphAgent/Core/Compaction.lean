import GraphAgent.Core.State
import GraphAgent.Core.Text

/-!
# Compaction of a history

`compact` in two parts, before and after it awaits the model: the split of the
repaired history, and the replacement built from the summary. Token counting is
a parameter.
-/

namespace GraphAgent

/-- `SUMMARY_INSTRUCTIONS`. -/
def summaryInstructions : String :=
  "Summarize the conversation so far for your own future reference. Preserve " ++
    "durable facts, user preferences, decisions, open tasks and any detail needed " ++
    "to continue. Be concise. Reply with the summary only."

/-- `SUMMARY_PREFIX`. -/
def summaryPrefix : String := "[Conversation summary]\n"

/-- The loop that moves the split back from a tool message. -/
def backUp (messages : List Message) : Nat → Nat
  | 0 => 0
  | split + 1 =>
      if (messages[split + 1]?).any Message.isTool then backUp messages split else split + 1

/-- What `compact` sends for summarising and what it keeps verbatim. -/
structure Split where
  old : List Message
  recent : List Message

/-- `compact` up to its call of the model. -/
def compactSplit (countTokens : List Message → Nat) (tokenLimit keep : Int)
    (messages : List Message) : Option Split :=
  let repaired := repairToolCallPairs messages
  if tokenLimit ≤ 0 ∨ (countTokens repaired : Int) ≤ tokenLimit then none
  else
    let split := backUp repaired (repaired.length - (max keep 0).toNat)
    if split = 0 then none else some ⟨repaired.take split, repaired.drop split⟩

/-- The messages that the model is asked to summarise. -/
def Split.request (split : Split) : List Message := .system summaryInstructions :: split.old

/-- The summary message for the model's text. -/
def summaryMessage (deltaText : String) : Message :=
  .system (summaryPrefix ++ Text.strip deltaText)

/-- `compact` after its call of the model. -/
def Split.replacement (split : Split) (deltaText : String) : Update :=
  .replaceAll (summaryMessage deltaText :: split.recent)

/-- The characters of a message of plain text and of the role it is sent under. -/
def Message.characters (message : Message) : Nat :=
  match message.body with
  | .human (.str content) => content.length + 4
  | .system content => content.length + 6
  | .ai content [] => content.length + 9
  | .tool content toolCallId => content.length + toolCallId.length + 4
  | _ => 0

/-- `count_tokens_approximately` on messages of plain text. -/
def approximateTokens (messages : List Message) : Nat :=
  messages.foldl (fun tokens message => tokens + ((message.characters + 3) / 4 + 3)) 0

@[simp] theorem kind_summaryMessage (deltaText : String) :
    (summaryMessage deltaText).kind = .plain := rfl

theorem backUp_le (messages : List Message) (split : Nat) : backUp messages split ≤ split := by
  induction split with
  | zero => simp [backUp]
  | succ split ih =>
      simp only [backUp]
      split
      · omega
      · exact le_rfl

/-- A history can be cut before a message that is no tool message, and at its end. -/
def CanCut (messages : List Message) (position : Nat) : Prop :=
  ∀ m ∈ messages[position]?, m.isTool = false

instance (messages : List Message) (position : Nat) : Decidable (CanCut messages position) :=
  inferInstanceAs (Decidable (∀ m ∈ messages[position]?, m.isTool = false))

theorem canCut_iff_any (messages : List Message) (position : Nat) :
    CanCut messages position ↔ (messages[position]?).any Message.isTool = false := by
  unfold CanCut
  cases messages[position]? <;> simp

/-- A positive split is a position to cut at. -/
theorem canCut_backUp {messages : List Message} {split : Nat} (h : backUp messages split ≠ 0) :
    CanCut messages (backUp messages split) := by
  induction split with
  | zero => exact absurd rfl h
  | succ split ih =>
      simp only [backUp] at h ⊢
      split at h
      case isTrue htool =>
        rw [if_pos htool]
        exact ih h
      case isFalse hnot =>
        rw [if_neg hnot, canCut_iff_any]
        exact Bool.eq_false_iff.mpr hnot

/-- No position to cut at stands between the split and where the loop began. -/
theorem le_backUp {messages : List Message} {position split : Nat} (hle : position ≤ split)
    (hcut : CanCut messages position) : position ≤ backUp messages split := by
  induction split with
  | zero => exact hle
  | succ split ih =>
      simp only [backUp]
      split
      case isTrue htool =>
        have hne : position ≠ split + 1 := by
          rintro rfl
          exact Bool.false_ne_true (((canCut_iff_any _ _).mp hcut).symm.trans htool)
        exact ih (by omega)
      case isFalse => exact hle

variable {countTokens : List Message → Nat} {tokenLimit keep : Int} {messages : List Message}
  {split : Split}

/-- The two parts of a split are the repaired history, and the kept part does
not start with a tool message. -/
theorem compactSplit_spec (h : compactSplit countTokens tokenLimit keep messages = some split) :
    repairToolCallPairs messages = split.old ++ split.recent ∧
      ∀ m ∈ split.recent.head?, m.isTool = false := by
  simp only [compactSplit, Option.ite_none_left_eq_some, Option.some.injEq] at h
  obtain ⟨-, hpos, rfl⟩ := h
  refine ⟨(List.take_append_drop _ _).symm, fun m hm => ?_⟩
  rw [List.head?_drop] at hm
  exact canCut_backUp hpos m hm

/-- There is something to summarise. -/
theorem old_ne_nil (h : compactSplit countTokens tokenLimit keep messages = some split) :
    split.old ≠ [] := by
  simp only [compactSplit, Option.ite_none_left_eq_some, Option.some.injEq] at h
  obtain ⟨-, hpos, rfl⟩ := h
  have hle := backUp_le (repairToolCallPairs messages)
    ((repairToolCallPairs messages).length - (max keep 0).toNat)
  intro hnil
  rw [List.take_eq_nil_iff] at hnil
  rcases hnil with hzero | hnil
  · exact hpos hzero
  · rw [hnil] at hle hpos
    simp only [List.length_nil, Nat.zero_sub, Nat.le_zero] at hle hpos
    exact hpos hle

/-- Both parts of a split are valid histories. -/
theorem validHistory_of_compactSplit
    (h : compactSplit countTokens tokenLimit keep messages = some split) :
    ValidHistory split.old ∧ ValidHistory split.recent := by
  obtain ⟨happend, hhead⟩ := compactSplit_spec h
  have hvalid := validHistory_repair messages
  rw [happend] at hvalid
  cases hrecent : split.recent with
  | nil => exact ⟨by simpa [hrecent] using hvalid, validHistory_nil⟩
  | cons m rest =>
      rw [hrecent] at hvalid hhead
      exact validHistory_cut hvalid (hhead m rfl)

/-- The replacement of a compaction is a valid history. -/
theorem validHistory_replacement
    (h : compactSplit countTokens tokenLimit keep messages = some split) (deltaText : String) :
    ValidHistory (addMessages messages (split.replacement deltaText)) :=
  validHistory_plain (kind_summaryMessage deltaText) (validHistory_of_compactSplit h).2

section Closed

/-- The position from which `compact` looks for a position to cut at. -/
def latestCut (keep : Int) (messages : List Message) : Nat :=
  messages.length - (max keep 0).toNat

/-- The two parts of a split in terms of the position of the cut. -/
theorem compactSplit_eq_some (h : compactSplit countTokens tokenLimit keep messages = some split) :
    let repaired := repairToolCallPairs messages
    let cut := backUp repaired (latestCut keep repaired)
    cut ≠ 0 ∧ split.old = repaired.take cut ∧ split.recent = repaired.drop cut := by
  simp only [compactSplit, Option.ite_none_left_eq_some, Option.some.injEq] at h
  obtain ⟨-, hpos, rfl⟩ := h
  exact ⟨hpos, rfl, rfl⟩

theorem not_within_limit (h : compactSplit countTokens tokenLimit keep messages = some split) :
    ¬ (tokenLimit ≤ 0 ∨ (countTokens (repairToolCallPairs messages) : Int) ≤ tokenLimit) := by
  simp only [compactSplit, Option.ite_none_left_eq_some] at h
  exact h.1

/-- The kept part has as many messages as it has to. -/
theorem keep_le_recent (h : compactSplit countTokens tokenLimit keep messages = some split) :
    max keep 0 ≤ split.recent.length := by
  obtain ⟨hpos, -, hrecent⟩ := compactSplit_eq_some h
  have hle := backUp_le (repairToolCallPairs messages) (latestCut keep (repairToolCallPairs messages))
  rw [hrecent, List.length_drop]
  unfold latestCut at *
  omega

/-- Every valid end of the repaired history that has as many messages as it has to is at least as
long as the kept part. -/
theorem recent_le_suffix (h : compactSplit countTokens tokenLimit keep messages = some split)
    {suffix : List Message} (hsuffix : suffix <:+ repairToolCallPairs messages)
    (hvalid : ValidHistory suffix) (hkeep : max keep 0 ≤ suffix.length) :
    split.recent.length ≤ suffix.length := by
  obtain ⟨-, -, hrecent⟩ := compactSplit_eq_some h
  obtain ⟨front, hfront⟩ := hsuffix
  have hcut : CanCut (repairToolCallPairs messages) front.length := by
    intro m hm
    apply isTool_head?_of_valid hvalid
    rwa [← hfront, List.getElem?_append_right (Nat.le_refl _), Nat.sub_self,
      ← List.head?_eq_getElem?] at hm
  have hlength := congrArg List.length hfront
  rw [List.length_append] at hlength
  have hle : front.length ≤ latestCut keep (repairToolCallPairs messages) := by
    unfold latestCut
    omega
  have hback := le_backUp hle hcut
  rw [hrecent, List.length_drop]
  omega

/-- What is sent for summarising and what is kept are both valid histories and together the
repaired history; what is kept is its shortest valid end with as many messages as `keep` says. -/
theorem compactSplit_closed (h : compactSplit countTokens tokenLimit keep messages = some split)
    (deltaText : String) :
    ∃ old recent, split.request = .system summaryInstructions :: old ∧
      split.replacement deltaText = .replaceAll (summaryMessage deltaText :: recent) ∧
      ValidHistory old ∧ ValidHistory recent ∧ old ++ recent = repairToolCallPairs messages ∧
      max keep 0 ≤ recent.length ∧
      ∀ suffix, suffix <:+ repairToolCallPairs messages → ValidHistory suffix →
        max keep 0 ≤ suffix.length → recent.length ≤ suffix.length := by
  obtain ⟨hold, hrecent⟩ := validHistory_of_compactSplit h
  refine ⟨split.old, split.recent, rfl, rfl, hold, hrecent, (compactSplit_spec h).1.symm,
    keep_le_recent h, ?_⟩
  intro suffix hsuffix hvalid hkeep
  exact recent_le_suffix h hsuffix hvalid hkeep

/-- A call with its result is kept whole where `keep` would cut it in two. -/
theorem compactSplit_closed_call :
    ∃ split, compactSplit (fun _ => 33) 1 2
        [.human (.str "hi"), .ai "" [⟨some "1", "x", []⟩], .tool "result" "1",
          .human (.str "next")] = some split ∧
      split.recent.length = 3 ∧ ∃ old recent, split.request = .system summaryInstructions :: old ∧
        ValidHistory old ∧ ValidHistory recent ∧ (2 : Int) ≤ recent.length := by
  have hsplit : ∃ split, compactSplit (fun _ => 33) 1 2
      [.human (.str "hi"), .ai "" [⟨some "1", "x", []⟩], .tool "result" "1",
        .human (.str "next")] = some split ∧ split.recent.length = 3 := ⟨_, rfl, rfl⟩
  obtain ⟨split, hsplit, hlength⟩ := hsplit
  obtain ⟨old, recent, hrequest, -, hold, hrecent, -, hkeep, -⟩ :=
    compactSplit_closed hsplit "summary"
  exact ⟨split, hsplit, hlength, old, recent, hrequest, hold, hrecent, hkeep⟩

end Closed

section Shrinking

variable (countTokens tokenLimit keep messages)

/-- Whatever the summary is, a compaction leaves fewer messages than the repaired history has. -/
def Shrinks : Prop :=
  ∀ split, compactSplit countTokens tokenLimit keep messages = some split → ∀ deltaText,
    (addMessages messages (split.replacement deltaText)).length <
      (repairToolCallPairs messages).length

/-- The history is within its limit, or more can be summarised of it than its first message. -/
def SummarisesSeveral : Prop :=
  let repaired := repairToolCallPairs messages
  (tokenLimit ≤ 0 ∨ (countTokens repaired : Int) ≤ tokenLimit) ∨
    (1 ≤ latestCut keep repaired → CanCut repaired 1 →
      ∃ position, 2 ≤ position ∧ position ≤ latestCut keep repaired ∧ CanCut repaired position)

omit countTokens tokenLimit keep in
theorem length_replacement (split : Split) (deltaText : String) :
    (addMessages messages (split.replacement deltaText)).length = split.recent.length + 1 := rfl

/-- The first message is summarised alone where there is no later position to cut at. -/
theorem backUp_eq_one_iff (latest : Nat) : backUp messages latest = 1 ↔
    1 ≤ latest ∧ CanCut messages 1 ∧
      ∀ position, 2 ≤ position → position ≤ latest → ¬ CanCut messages position := by
  have hle := backUp_le messages latest
  constructor
  · intro hone
    have hcut := @canCut_backUp messages latest (by omega)
    rw [hone] at hcut hle
    refine ⟨hle, hcut, fun position htwo hposition hlater => ?_⟩
    have hback := le_backUp hposition hlater
    omega
  · rintro ⟨hone, hcut, hnone⟩
    have hback := le_backUp hone hcut
    by_contra hne
    exact hnone (backUp messages latest) (by omega) hle (canCut_backUp (by omega))

theorem shrinks_iff_backUp : Shrinks countTokens tokenLimit keep messages ↔
    (tokenLimit ≤ 0 ∨ (countTokens (repairToolCallPairs messages) : Int) ≤ tokenLimit) ∨
      backUp (repairToolCallPairs messages) (latestCut keep (repairToolCallPairs messages)) ≠ 1 := by
  have hle := backUp_le (repairToolCallPairs messages)
    (latestCut keep (repairToolCallPairs messages))
  have hlatest : latestCut keep (repairToolCallPairs messages) ≤
      (repairToolCallPairs messages).length := Nat.sub_le _ _
  constructor
  · intro h
    refine or_iff_not_imp_left.mpr fun hlimit hone => ?_
    have hpos : backUp (repairToolCallPairs messages)
        (latestCut keep (repairToolCallPairs messages)) ≠ 0 := by omega
    have hsplit : compactSplit countTokens tokenLimit keep messages = some _ :=
      (if_neg hlimit).trans (if_neg hpos)
    have hlength := h _ hsplit ""
    rw [length_replacement, (compactSplit_eq_some hsplit).2.2, List.length_drop] at hlength
    omega
  · intro h split hsplit deltaText
    have hlimit := not_within_limit hsplit
    obtain ⟨hpos, -, hrecent⟩ := compactSplit_eq_some hsplit
    have hne := h.resolve_left hlimit
    rw [length_replacement, hrecent, List.length_drop]
    omega

/-- A compaction leaves fewer messages exactly if it does not cut behind the first one. -/
theorem shrinks_iff : Shrinks countTokens tokenLimit keep messages ↔
    SummarisesSeveral countTokens tokenLimit keep messages := by
  rw [shrinks_iff_backUp, Ne, backUp_eq_one_iff]
  refine or_congr_right ?_
  push Not
  rfl

/-- A thread that has been compacted before: its summary alone is summarised, and the thread
stays as long as it was. -/
theorem compaction_keeps_length : ¬ ∀ (countTokens : List Message → Nat) (tokenLimit keep : Int)
    (messages : List Message), Shrinks countTokens tokenLimit keep messages := by
  intro h
  have hlength := h (fun _ => 23) 1 2
    [summaryMessage "ciao", .human (.str "uno"), .ai "r2" []] _ rfl "ciao"
  exact absurd hlength (by decide)

/-- Once a history has been compacted, its summary alone is summarised again and again. -/
theorem compactSplit_replacement
    (h : compactSplit countTokens tokenLimit keep messages = some split) (deltaText : String)
    (hlimit : tokenLimit < countTokens (summaryMessage deltaText :: split.recent)) :
    compactSplit countTokens tokenLimit keep (addMessages messages (split.replacement deltaText)) =
      some ⟨[summaryMessage deltaText], split.recent⟩ := by
  obtain ⟨-, -, hrecent⟩ := compactSplit_eq_some h
  have hrepair : repairToolCallPairs (addMessages messages (split.replacement deltaText)) =
      summaryMessage deltaText :: split.recent := repair_of_valid (validHistory_replacement h deltaText)
  have hkeep := keep_le_recent h
  have hcut : backUp (summaryMessage deltaText :: split.recent)
      (latestCut keep (summaryMessage deltaText :: split.recent)) = 1 := by
    rw [backUp_eq_one_iff]
    unfold latestCut
    rw [List.length_cons]
    refine ⟨by omega, ?_, ?_⟩
    · intro m hm
      rw [List.getElem?_cons_succ, ← List.head?_eq_getElem?] at hm
      exact (compactSplit_spec h).2 m hm
    · intro position htwo hposition hlater
      obtain ⟨offset, rfl⟩ : ∃ offset, position = offset + 1 := ⟨position - 1, by omega⟩
      -- a later position to cut at would have been taken by the first compaction
      have hearlier : CanCut (repairToolCallPairs messages)
          (backUp (repairToolCallPairs messages) (latestCut keep (repairToolCallPairs messages)) +
            offset) := by
        intro m hm
        rw [← List.getElem?_drop, ← hrecent] at hm
        exact hlater m hm
      have hlength := congrArg List.length hrecent
      rw [List.length_drop] at hlength
      have hback := @le_backUp _ _ (latestCut keep (repairToolCallPairs messages))
        (by unfold latestCut at *; omega) hearlier
      omega
  have hexceeds : ¬ (tokenLimit ≤ 0 ∨
      (countTokens (summaryMessage deltaText :: split.recent) : Int) ≤ tokenLimit) := by
    have hpositive := not_within_limit h
    omega
  simp only [compactSplit, hrepair]
  rw [if_neg hexceeds]
  unfold latestCut at hcut
  rw [hcut]
  rfl

end Shrinking

end GraphAgent
