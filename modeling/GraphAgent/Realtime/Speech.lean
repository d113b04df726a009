import GraphAgent.Library.Rewriting
import GraphAgent.Telegram.PlainText

/-!
# Text to be read aloud

`normalize_for_speech`: markers, links and emojis are taken out of a text one pattern after the
other, line breaks become periods, and the spacing is mended.
-/

namespace GraphAgent.Speech

open Regex Regex.Pattern Telegram

section Source

/-- `^` with `re.MULTILINE` -/
def lineStart : Pattern := .notBehind fun c => c ≠ '\n'

/-- `$` with `re.MULTILINE` -/
def lineEnd : Pattern := .notAhead fun c => c ≠ '\n'

/-- `_INLINE_CODE` -/
def inlineCode : Pattern :=
  all [literal ['`'], .group 1 (.star true (.char fun c => c ≠ '`')), literal ['`']]

/-- `_MD_LINK` -/
def mdLink : Pattern :=
  all [literal ['['], .group 1 (plus true (.char fun c => c ≠ ']')), literal [']', '('],
    .star true (.char fun c => c ≠ ')'), literal [')']]

/-- `_IMAGE` -/
def image : Pattern :=
  all [literal ['!', '['], .group 1 (.star true (.char fun c => c ≠ ']')), literal [']', '('],
    .star true (.char fun c => c ≠ ')'), literal [')']]

/-- `_BOLD` -/
def bold : Pattern :=
  all [.group 1 (.alt (literal ['*', '*']) (literal ['_', '_'])), .group 2 (plus false inLine),
    .backref 1]

/-- One half of `_ITALIC` -/
def italicHalf (marker : Char) (n : ℕ) : Pattern :=
  all [.notBehind fun c => c = marker, literal [marker], .notAhead Text.isSpace,
    .group n (plus false inLine), .notBehind Text.isSpace, literal [marker],
    .notAhead fun c => c = marker]

/-- `_ITALIC` -/
def italic : Pattern := .alt (italicHalf '*' 1) (italicHalf '_' 2)

/-- `_HEADER` -/
def header : Pattern :=
  all [lineStart, atMost 3 space, literal ['#'], atMost 5 (literal ['#']), plus true space]

/-- `_BLOCKQUOTE` -/
def blockquote : Pattern := all [lineStart, .star true space, literal ['>'], opt space]

/-- `[-*_]\s*` -/
def stroke : Pattern :=
  .seq (.char fun c => c = '-' || c = '*' || c = '_') (.star true space)

/-- `_HR` -/
def rule : Pattern :=
  all [lineStart, .star true space, stroke, stroke, stroke, .star true stroke, lineEnd]

variable (py : Classes)

/-- `[-*+]|\d+[.)]` -/
def itemMark : Pattern :=
  .alt (.char fun c => c = '-' || c = '*' || c = '+')
    (.seq (plus true (.char py.isDigit)) (.char fun c => c = '.' || c = ')'))

/-- `_BULLET` -/
def bullet : Pattern := all [lineStart, .star true space, itemMark py, plus true space]

/-- The characters of `_EMOJI` -/
def isEmoji (c : Char) : Bool :=
  let n := c.toNat
  (0x1f300 ≤ n && n ≤ 0x1faff) || (0x2600 ≤ n && n ≤ 0x27bf) || (0x1f1e6 ≤ n && n ≤ 0x1f1ff) ||
    (0x2190 ≤ n && n ≤ 0x21ff) || (0x2b00 ≤ n && n ≤ 0x2bff) || (0xfe00 ≤ n && n ≤ 0xfe0f) ||
    n = 0x200d || n = 0x20e3 || n = 0x24c2

/-- `_EMOJI` -/
def emoji : Pattern := plus true (.char isEmoji)

/-- `_LEFTOVER_BRACKETS` -/
def leftoverBrackets : Pattern := .char fun c => c = '[' || c = ']'

/-- `[ \t]` -/
def isBlank (c : Char) : Bool := c = ' ' || c = '\t'

/-- `[ \t]*\n+[ \t]*` -/
def lineBreaks : Pattern :=
  all [.star true (.char isBlank), plus true (.char fun c => c = '\n'), .star true (.char isBlank)]

/-- `[ \t]+` -/
def blanks : Pattern := plus true (.char isBlank)

/-- `[.,;:!?]` -/
def isPunctuation (c : Char) : Bool :=
  c = '.' || c = ',' || c = ';' || c = ':' || c = '!' || c = '?'

/-- `\s+([.,;:!?])` -/
def spacedPunctuation : Pattern := .seq (plus true space) (.group 1 (.char isPunctuation))

/-- `\.\s*\.` -/
def doubledPeriod : Pattern := all [literal ['.'], .star true space, literal ['.']]

/-- `match.group(1) or match.group(2) or ""` -/
def slantedText (m : Match) : List Char :=
  if group m 1 ≠ [] then group m 1 else group m 2

/-- The formatting that is taken out of a text. -/
def withoutFormatting (text : List Char) : List Char :=
  let out := sub (literal "```".toList) (fun _ => [' ']) text
  let out := sub image (fun m => group m 1) out
  let out := sub mdLink (fun m => group m 1) out
  let out := sub inlineCode (fun m => group m 1) out
  let out := sub header (fun _ => []) out
  let out := sub blockquote (fun _ => []) out
  let out := sub rule (fun _ => [' ']) out
  let out := sub (bullet py) (fun _ => []) out
  let out := sub bold (fun m => group m 2) out
  sub italic slantedText out

/-- The characters that are taken out of a text. -/
def withoutMarks (text : List Char) : List Char :=
  let out := sub emoji (fun _ => []) text
  let out := replaceChar '_' [' '] (replaceChar '*' [] out)
  let out := replaceChar '#' [] (replaceChar '`' [] out)
  sub leftoverBrackets (fun _ => []) out

/-- The text on one line, with one blank where there were several. -/
def unbroken (text : List Char) : List Char :=
  let out := sub lineBreaks (fun _ => ['.', ' ']) text
  sub blanks (fun _ => [' ']) out

/-- The text without spaces before its punctuation and without doubled periods. -/
def tightened (text : List Char) : List Char :=
  let out := sub spacedPunctuation (fun m => group m 1) text
  sub doubledPeriod (fun _ => ['.']) out

/-- `normalize_for_speech` -/
def normalizeForSpeech (text : List Char) : List Char :=
  if text = [] then []
  else Text.stripChars (tightened (unbroken (withoutMarks (withoutFormatting py text))))

end Source

section Shapes

variable {p : Char → Bool} {m : Match}

theorem plus_char_shape (h : Accepts (plus true (.char p)) m) :
    m.text ≠ [] ∧ ∀ a ∈ m.text, p a = true := by
  obtain ⟨last, rest, d, hd, hrest, -⟩ := h
  obtain ⟨w, tail, hne, hw, htext, rfl⟩ := mem_results_plus_char.1 hd
  rw [Cursor.past_rest] at hrest
  obtain rfl : m.text = w := List.append_cancel_right (hrest ▸ htext)
  exact ⟨hne, hw⟩

theorem lineBreaks_shape (h : Accepts lineBreaks m) :
    m.text ≠ [] ∧ ∀ a ∈ m.text, isBlank a || a = '\n' := by
  obtain ⟨last, rest, d, hd, hrest, -⟩ := h
  simp only [lineBreaks, all, mem_results_seq, mem_results_star_char, mem_results_plus_char] at hd
  obtain ⟨e, ⟨u, tail, hu, htext, rfl⟩, e', ⟨v, tail', hne, hv, htail, rfl⟩, w, tail'', hw, htail',
    rfl⟩ := hd
  simp only [Cursor.past_rest] at hrest htail htail'
  have hm : m.text = u ++ (v ++ w) := by
    refine (List.append_left_inj rest).1 ?_
    rw [← hrest, List.append_assoc, List.append_assoc, ← htail', ← htail]
    exact hrest ▸ htext
  rw [hm]
  refine ⟨by simp [hne], fun a ha => ?_⟩
  rcases List.mem_append.1 ha with ha | ha
  · simp [hu a ha]
  · rcases List.mem_append.1 ha with ha | ha
    · simpa using Or.inr (hv a ha)
    · simp [hw a ha]

theorem spacedPunctuation_shape (h : Accepts spacedPunctuation m) : ∃ spaces c, spaces ≠ [] ∧
    (∀ a ∈ spaces, Text.isSpace a = true) ∧ isPunctuation c = true ∧ m.text = spaces ++ [c] ∧
      group m 1 = [c] := by
  obtain ⟨last, rest, d, hd, hrest, hgroups⟩ := h
  simp only [spacedPunctuation, space, mem_results_seq, mem_results_plus_char, mem_results_group,
    mem_results_char] at hd
  obtain ⟨e, ⟨w, tail, hne, hw, htext, rfl⟩, e', ⟨c, tail', hc, htail, rfl⟩, rfl⟩ := hd
  simp only [Cursor.past_rest] at hrest htail hgroups
  obtain rfl := hrest
  refine ⟨w, c, hne, hw, hc, ?_, ?_⟩
  · refine (List.append_left_inj tail').1 ?_
    rw [List.append_assoc, List.singleton_append, ← htail]
    exact htext
  · have htake : (c :: tail').take ((c :: tail').length - tail'.length) = [c] := by simp
    rw [Telegram.group, Match.group?, ← hgroups, htail, htake]
    rfl

theorem doubledPeriod_shape (h : Accepts doubledPeriod m) : ∃ spaces,
    (∀ a ∈ spaces, Text.isSpace a = true) ∧ m.text = '.' :: (spaces ++ ['.']) := by
  obtain ⟨last, rest, d, hd, hrest, -⟩ := h
  simp only [doubledPeriod, space, all, mem_results_seq, mem_results_literal,
    mem_results_star_char] at hd
  obtain ⟨e, ⟨tail, htext, rfl⟩, e', ⟨w, tail', hw, htail, rfl⟩, tail'', htail', rfl⟩ := hd
  simp only [Cursor.past_rest] at hrest htail htail'
  obtain rfl := hrest
  refine ⟨w, hw, ?_⟩
  refine (List.append_left_inj tail'').1 ?_
  have hm : m.text ++ tail'' = ['.'] ++ tail := htext
  rw [hm, htail, htail']
  simp

/-- What replaces a match by one of its groups is a part of it. -/
theorem group_part {r : Pattern} (h : Accepts r m) (n : ℕ) : group m n <:+: m.text := by
  unfold Telegram.group
  cases hgroup : m.group? n with
  | none => exact List.nil_infix
  | some w => exact h.group_part hgroup

theorem slantedText_part {r : Pattern} (h : Accepts r m) : slantedText m <:+: m.text := by
  unfold slantedText
  split
  · exact group_part h 1
  · exact group_part h 2

end Shapes

section Characters

variable {c : Char} {text : List Char}

theorem mem_replaceChar {d : Char} {w : List Char} :
    c ∈ replaceChar d w text ↔ c ∈ text ∧ c ≠ d ∨ d ∈ text ∧ c ∈ w := by
  unfold replaceChar
  rw [List.mem_flatMap]
  constructor
  · rintro ⟨a, ha, hc⟩
    split at hc
    · next heq => exact Or.inr ⟨heq ▸ ha, hc⟩
    · next hne =>
        obtain rfl := List.mem_singleton.1 hc
        exact Or.inl ⟨ha, hne⟩
  · rintro (⟨ha, hne⟩ | ⟨hd, hc⟩)
    · exact ⟨c, ha, by rw [if_neg hne]; exact List.mem_singleton_self c⟩
    · exact ⟨d, hd, by rw [if_pos rfl]; exact hc⟩

/-- The characters that are not to be read aloud. -/
def isMark (c : Char) : Bool :=
  c = '*' || c = '_' || c = '`' || c = '#' || c = '[' || c = ']' || isEmoji c

theorem not_mark_of_mem_withoutMarks (h : c ∈ withoutMarks text) : isMark c = false := by
  have hbracket : ¬ (c = '[' || c = ']') = true := by
    intro hc
    have hneeds : Needs leftoverBrackets fun c => c = '[' || c = ']' := Needs.char fun a ha => ha
    refine not_mem_sub (fun last rest => ?_) (fun m _ => List.not_mem_nil) h
    exact hneeds.exists_match (mem_results_char.2 ⟨c, rest, hc, rfl, rfl⟩)
  have hkept := mem_sub (P := fun _ => False) (fun m _ c hc => absurd hc List.not_mem_nil) h
  simp only [mem_replaceChar, List.not_mem_nil, and_false, or_false, List.mem_singleton] at hkept
  obtain ⟨⟨⟨hmem, hstar⟩, hunderscore⟩ | ⟨-, rfl⟩, hhash⟩ := hkept
  · next htick =>
      have hemoji : ¬ isEmoji c = true := fun hc =>
        not_mem_sub_plus_char hc (fun m _ => List.not_mem_nil) hmem
      simp only [Bool.or_eq_true, decide_eq_true_eq, not_or] at hbracket
      simp [isMark, hstar, hunderscore, htick, hhash, hbracket.1, hbracket.2, hemoji]
  · rfl

theorem mem_tightened (h : c ∈ tightened text) : c ∈ text ∨ c = '.' := by
  have hperiods := mem_sub (P := fun c => c = '.')
    (fun m _ c hc => Or.inr (List.mem_singleton.1 hc)) h
  refine hperiods.imp (fun hmem => ?_) id
  have hpunctuation := mem_sub (P := fun _ => False)
    (fun m hm c hc => Or.inl ((group_part hm 1).subset hc)) hmem
  exact hpunctuation.resolve_right id

/-- A text on one line has spaces and periods where it had breaks and tabs. -/
theorem mem_unbroken (h : c ∈ unbroken text) :
    (c ∈ text ∨ c = ' ' ∨ c = '.') ∧ c ≠ '\n' ∧ c ≠ '\t' := by
  have hblanks := mem_sub (P := fun c => c = ' ')
    (fun m _ c hc => Or.inr (List.mem_singleton.1 hc)) h
  have htab : c ≠ '\t' := by
    rintro rfl
    refine not_mem_sub_plus_char rfl (fun m _ => ?_) h
    decide
  have hbreak : '\n' ∉ sub lineBreaks (fun _ => ['.', ' ']) text := by
    refine not_mem_sub (fun last rest => ?_) (fun m _ => by decide)
    have hneeds : Needs lineBreaks fun c => c = '\n' :=
      Needs.right (Needs.left (Needs.left (Needs.char fun a ha => ha)))
    apply hneeds.exists_match (d := ⟨some '\n', rest, []⟩)
    simp only [lineBreaks, all, mem_results_seq, mem_results_star_char, mem_results_plus_char]
    refine ⟨_, ⟨[], _, by simp, rfl, rfl⟩, _, ⟨['\n'], rest, by simp, by simp, rfl, rfl⟩, [], rest,
      by simp, rfl, rfl⟩
  rcases hblanks with hmem | rfl
  · have hlines := mem_sub (P := fun c => c = '.' ∨ c = ' ')
      (fun m _ c hc => Or.inr (by simpa using hc)) hmem
    refine ⟨hlines.imp id Or.symm, ?_, htab⟩
    rintro rfl
    exact hbreak hmem
  · exact ⟨Or.inr (Or.inl rfl), by decide, by decide⟩

end Characters

section Spacing

/-- Two spaces do not stand side by side. -/
def Single (a b : Char) : Prop := ¬ (a = ' ' ∧ b = ' ')

/-- No space stands before punctuation. -/
def Tight (a b : Char) : Prop := ¬ (Text.isSpace a = true ∧ isPunctuation b = true)

variable {text : List Char}

theorem not_isSpace_of_isPunctuation {c : Char} (h : isPunctuation c = true) :
    Text.isSpace c = false := by
  simp only [isPunctuation, Bool.or_eq_true, decide_eq_true_eq] at h
  rcases h with ((((rfl | rfl) | rfl) | rfl) | rfl) | rfl <;> rfl

theorem isChain_unbroken : (unbroken text).IsChain Single := by
  have hneeds : Needs blanks isBlank := Needs.left (Needs.char fun a ha => ha)
  have hopens : ∀ rest, Opens blanks (fun _ => [' ']) rest ' ' →
      ∃ a tail, rest = a :: tail ∧ isBlank a = true := by
    rintro rest (hhead | ⟨m, tail, rfl, hne, haccepts, -⟩)
    · obtain ⟨tail, rfl⟩ := List.head?_eq_some_iff.1 hhead
      exact ⟨' ', tail, rfl, rfl⟩
    · obtain ⟨a, w, hw⟩ := List.exists_cons_of_ne_nil hne
      exact ⟨a, w ++ tail, by rw [hw]; rfl, (plus_char_shape haccepts).2 a (by simp [hw])⟩
  apply isChain_sub_of_opens
  · exact fun _ _ => List.cons_ne_nil _ _
  · exact fun _ _ => List.isChain_singleton _
  · rintro last c rest hnone b - ⟨rfl, rfl⟩
    have hfirst : Cursor.past ⟨last, ' ' :: rest, []⟩ [' '] rest ∈
        results blanks ⟨last, ' ' :: rest, []⟩ := mem_results_plus_char.2
      ⟨[' '], rest, List.cons_ne_nil _ _, List.forall_mem_singleton.2 rfl, rfl, rfl⟩
    obtain ⟨m, hm, hne⟩ := hneeds.exists_match hfirst
    exact hne (hnone m hm)
  · rintro last m rest hm hne a ha b hopen ⟨rfl, rfl⟩
    obtain ⟨a, tail, rfl, hblank⟩ := hopens rest hopen
    have hall := (plus_char_shape (accepts_of_matchAt hm)).2
    have hrun := matchAt_plus_char hm
    rw [List.takeWhile_append_of_pos hall, List.takeWhile_cons_of_pos hblank] at hrun
    exact List.cons_ne_nil _ _ (List.self_eq_append_right.1 hrun)

theorem single_tightened (h : text.IsChain Single) : (tightened text).IsChain Single := by
  apply isChain_sub
  · exact fun _ _ => List.cons_ne_nil _ _
  · exact fun _ _ => List.isChain_singleton _
  · intro m hm
    obtain ⟨spaces, -, htext⟩ := doubledPeriod_shape hm
    rw [htext, ← List.cons_append, List.getLast?_concat]
    rfl
  · rintro m hm a b hb hab c hc ⟨rfl, rfl⟩
    cases hc
  · apply isChain_sub
    · intro m hm
      obtain ⟨spaces, c, -, -, -, -, hgroup⟩ := spacedPunctuation_shape hm
      rw [hgroup]
      exact List.cons_ne_nil _ _
    · intro m hm
      obtain ⟨spaces, c, -, -, -, -, hgroup⟩ := spacedPunctuation_shape hm
      rw [hgroup]
      exact List.isChain_singleton _
    · intro m hm
      obtain ⟨spaces, c, -, -, -, htext, hgroup⟩ := spacedPunctuation_shape hm
      rw [hgroup, htext, List.getLast?_concat]
      rfl
    · rintro m hm a b hb hab c hc ⟨rfl, rfl⟩
      obtain ⟨spaces, c, -, -, hpunctuation, -, hgroup⟩ := spacedPunctuation_shape hm
      rw [hgroup] at hc
      obtain rfl := Option.some.inj hc
      cases hpunctuation
    · exact h

/-- What begins with punctuation after the substitution began with it but for spaces. -/
theorem opens_spacedPunctuation {rest : List Char} {b : Char}
    (h : Opens spacedPunctuation (fun m => group m 1) rest b) : ∃ spaces tail,
      (∀ a ∈ spaces, Text.isSpace a = true) ∧ rest = spaces ++ b :: tail := by
  rcases h with hhead | ⟨m, tail, rfl, -, haccepts, hgroup⟩
  · obtain ⟨tail, rfl⟩ := List.head?_eq_some_iff.1 hhead
    exact ⟨[], tail, by simp, rfl⟩
  · obtain ⟨spaces, c, -, hspaces, -, htext, hc⟩ := spacedPunctuation_shape haccepts
    have hfirst : (group m 1).head? = some b := hgroup
    rw [hc] at hfirst
    obtain rfl := Option.some.inj hfirst
    exact ⟨spaces, tail, hspaces, by rw [htext, List.append_assoc]; rfl⟩

theorem tight_tightened : (tightened text).IsChain Tight := by
  apply isChain_sub
  · exact fun _ _ => List.cons_ne_nil _ _
  · exact fun _ _ => List.isChain_singleton _
  · intro m hm
    obtain ⟨spaces, -, htext⟩ := doubledPeriod_shape hm
    rw [htext, ← List.cons_append, List.getLast?_concat]
    rfl
  · intro m hm a b hb hab c hc
    obtain ⟨spaces, -, htext⟩ := doubledPeriod_shape hm
    rw [htext] at hb
    obtain rfl := Option.some.inj hb
    obtain rfl := Option.some.inj hc
    exact hab
  · have hneeds : Needs spacedPunctuation Text.isSpace :=
      Needs.left (Needs.left (Needs.char fun a ha => ha))
    apply isChain_sub_of_opens
    · intro m hm
      obtain ⟨spaces, c, -, -, -, -, hgroup⟩ := spacedPunctuation_shape hm
      rw [hgroup]
      exact List.cons_ne_nil _ _
    · intro m hm
      obtain ⟨spaces, c, -, -, -, -, hgroup⟩ := spacedPunctuation_shape hm
      rw [hgroup]
      exact List.isChain_singleton _
    · rintro last c rest hnone b hopen ⟨hspace, hpunctuation⟩
      obtain ⟨spaces, tail, hspaces, rfl⟩ := opens_spacedPunctuation hopen
      have hfirst : Cursor.past ⟨last, c :: (spaces ++ b :: tail), []⟩ (c :: spaces) (b :: tail) ∈
          results (plus true space) ⟨last, c :: (spaces ++ b :: tail), []⟩ :=
        mem_results_plus_char.2 ⟨c :: spaces, b :: tail, List.cons_ne_nil _ _,
          List.forall_mem_cons.2 ⟨hspace, hspaces⟩, rfl, rfl⟩
      obtain ⟨m, hm, hne⟩ := hneeds.exists_match
        (mem_results_seq.2 ⟨_, hfirst, mem_results_group.2
          ⟨_, mem_results_char.2 ⟨b, tail, hpunctuation, rfl, rfl⟩, rfl⟩⟩)
      exact hne (hnone m hm)
    · rintro last m rest hm hne a ha b - ⟨hspace, -⟩
      obtain ⟨spaces, c, -, -, hpunctuation, -, hgroup⟩ :=
        spacedPunctuation_shape (accepts_of_matchAt hm)
      rw [hgroup] at ha
      have hlast : c = a := Option.some.inj ha
      rw [← hlast, not_isSpace_of_isPunctuation hpunctuation] at hspace
      cases hspace

end Spacing

section Order

/-- The characters that are neither spaces nor periods. -/
def isKept (c : Char) : Bool := !Text.isSpace c && c ≠ '.'

variable {py : Classes} {r : Pattern} {f : Match → List Char} {text : List Char}

theorem kept_sub_const {w : List Char} (hw : w.filter isKept = []) :
    ((sub r (fun _ => w) text).filter isKept).Sublist (text.filter isKept) :=
  filter_sub_sublist fun _ _ => hw ▸ List.nil_sublist _

theorem kept_sub_part (hf : ∀ m, Accepts r m → f m <:+: m.text) :
    ((sub r f text).filter isKept).Sublist (text.filter isKept) :=
  filter_sub_sublist fun m hm => (hf m hm).sublist.filter _

theorem kept_replaceChar {c : Char} {w : List Char} (hw : w.filter isKept = []) :
    ((replaceChar c w text).filter isKept).Sublist (text.filter isKept) := by
  unfold replaceChar
  induction text with
  | nil => exact List.Sublist.refl _
  | cons a rest ih =>
      have hcons : (a :: rest).filter isKept = [a].filter isKept ++ rest.filter isKept :=
        List.filter_append [a] rest
      rw [List.flatMap_cons, List.filter_append, hcons]
      refine List.Sublist.append ?_ ih
      split
      · exact hw ▸ List.nil_sublist _
      · exact List.Sublist.refl _

theorem kept_withoutFormatting :
    ((withoutFormatting py text).filter isKept).Sublist (text.filter isKept) := by
  unfold withoutFormatting
  refine (kept_sub_part fun m hm => slantedText_part hm).trans ?_
  refine (kept_sub_part fun m hm => group_part hm 2).trans ?_
  refine (kept_sub_const rfl).trans ((kept_sub_const rfl).trans ?_)
  refine (kept_sub_const rfl).trans ((kept_sub_const rfl).trans ?_)
  refine (kept_sub_part fun m hm => group_part hm 1).trans ?_
  refine (kept_sub_part fun m hm => group_part hm 1).trans ?_
  exact (kept_sub_part fun m hm => group_part hm 1).trans (kept_sub_const rfl)

theorem kept_withoutMarks :
    ((withoutMarks text).filter isKept).Sublist (text.filter isKept) := by
  unfold withoutMarks
  refine (kept_sub_const rfl).trans ?_
  refine (kept_replaceChar rfl).trans ((kept_replaceChar rfl).trans ?_)
  exact (kept_replaceChar rfl).trans ((kept_replaceChar rfl).trans (kept_sub_const rfl))

end Order

section Respacing

variable {text : List Char}

theorem filter_isKept_eq_nil {w : List Char} (h : ∀ a ∈ w, Text.isSpace a = true ∨ a = '.') :
    w.filter isKept = [] := by
  rw [List.filter_eq_nil_iff]
  intro a ha hkept
  rcases h a ha with hspace | rfl
  · simp [isKept, hspace] at hkept
  · cases hkept

theorem isSpace_of_isBlank {a : Char} (h : isBlank a = true) : Text.isSpace a = true := by
  simp only [isBlank, Bool.or_eq_true, decide_eq_true_eq] at h
  rcases h with rfl | rfl <;> rfl

/-- Putting a text on one line loses spaces and adds spaces and periods. -/
theorem kept_unbroken : (unbroken text).filter isKept = text.filter isKept := by
  unfold unbroken
  rw [filter_sub_eq, filter_sub_eq]
  · intro m hm
    have hnone : m.text.filter isKept = [] := by
      apply filter_isKept_eq_nil
      intro a ha
      have hbreak := (lineBreaks_shape hm).2 a ha
      simp only [Bool.or_eq_true, decide_eq_true_eq] at hbreak
      rcases hbreak with hblank | rfl
      · exact Or.inl (isSpace_of_isBlank hblank)
      · exact Or.inl rfl
    rw [hnone]
    rfl
  · intro m hm
    have hnone : m.text.filter isKept = [] := filter_isKept_eq_nil fun a ha =>
      Or.inl (isSpace_of_isBlank ((plus_char_shape hm).2 a ha))
    rw [hnone]
    rfl

theorem kept_tightened : (tightened text).filter isKept = text.filter isKept := by
  unfold tightened
  rw [filter_sub_eq, filter_sub_eq]
  · intro m hm
    obtain ⟨spaces, c, -, hspaces, -, htext, hgroup⟩ := spacedPunctuation_shape hm
    rw [hgroup, htext, List.filter_append, filter_isKept_eq_nil fun a ha => Or.inl (hspaces a ha)]
    rfl
  · intro m hm
    obtain ⟨spaces, hspaces, htext⟩ := doubledPeriod_shape hm
    have hnone : m.text.filter isKept = [] := by
      apply filter_isKept_eq_nil
      intro a ha
      rw [htext] at ha
      simp only [List.mem_cons, List.mem_append, List.not_mem_nil, or_false] at ha
      rcases ha with rfl | ha | rfl
      · exact Or.inr rfl
      · exact Or.inl (hspaces a ha)
      · exact Or.inr rfl
    rw [hnone]
    rfl

theorem kept_stripChars : (Text.stripChars text).filter isKept = text.filter isKept := by
  have hfront : text.filter isKept = (text.dropWhile Text.isSpace).filter isKept := by
    conv_lhs => rw [← List.takeWhile_append_dropWhile (p := Text.isSpace) (l := text)]
    rw [List.filter_append, filter_isKept_eq_nil, List.nil_append]
    exact fun a ha => Or.inl (List.mem_takeWhile_imp ha)
  rw [hfront, Text.stripChars]
  conv_rhs => rw [← List.rdropWhile_append_rtakeWhile (p := Text.isSpace)
    (l := text.dropWhile Text.isSpace)]
  have hback : ((text.dropWhile Text.isSpace).rtakeWhile Text.isSpace).filter isKept = [] :=
    filter_isKept_eq_nil fun a ha => Or.inl (List.mem_rtakeWhile_imp ha)
  rw [List.filter_append, hback, List.append_nil]

end Respacing

section Spoken

variable (py : Classes) (text : List Char)

/-- What a text is like that is read aloud for another one. -/
structure Spoken (text out : List Char) : Prop where
  bare : ∀ c ∈ out, isMark c = false ∧ c ≠ '\n' ∧ c ≠ '\t'
  single : out.IsChain Single
  tight : out.IsChain Tight
  stripped : Text.stripChars out = out
  ordered : (out.filter isKept).Sublist (text.filter isKept)

/-- Whatever the text is, what is read aloud has no marks, no line breaks and no tabs in it, no
two spaces side by side, no space before punctuation or at an end, and besides spaces and
periods only characters of the text, in their order. -/
theorem normalizeForSpeech_spoken : Spoken text (normalizeForSpeech py text) := by
  unfold normalizeForSpeech
  split
  · next hempty =>
      exact ⟨by simp, List.isChain_nil, List.isChain_nil, rfl, List.nil_sublist _⟩
  · have hpart : ∀ out : List Char, Text.stripChars out <:+: out := fun out =>
      (List.rdropWhile_prefix _ _).isInfix.trans (List.dropWhile_suffix _).isInfix
    refine ⟨fun c hc => ?_, isChain_of_part (hpart _) (single_tightened isChain_unbroken),
      isChain_of_part (hpart _) tight_tightened, Text.stripChars_stripChars _, ?_⟩
    · rcases mem_tightened ((hpart _).subset hc) with hmem | rfl
      · obtain ⟨hplain | rfl | rfl, hbreak, htab⟩ := mem_unbroken hmem
        · exact ⟨not_mark_of_mem_withoutMarks hplain, hbreak, htab⟩
        · exact ⟨rfl, hbreak, htab⟩
        · exact ⟨rfl, hbreak, htab⟩
      · exact ⟨rfl, by decide, by decide⟩
    · rw [kept_stripChars, kept_tightened, kept_unbroken]
      exact kept_withoutMarks.trans kept_withoutFormatting

-- A heading, marked words and a link keep their words.
example : normalizeForSpeech asciiClasses
      "# Hello **big**  _world_ !\n- see [the docs](http://a.b)".toList =
    "Hello big world!. see the docs".toList := by
  decide +kernel

end Spoken

section Prose

variable {py : Classes} {text : List Char}

/-- No line of the text begins, behind spaces, like a quote, a rule or an item of a list. -/
def PlainLines (py : Classes) (text : List Char) : Prop :=
  ∀ front indent c rest, text = front ++ (indent ++ c :: rest) →
    front.getLast?.all (· = '\n') → (∀ a ∈ indent, Text.isSpace a = true) →
      c ≠ '>' ∧ c ≠ '-' ∧ c ≠ '+' ∧ py.isDigit c = false

theorem last_of_lineStart {c d : Cursor} (h : d ∈ results lineStart c) :
    c.last.all (· = '\n') ∧ d = c := by
  refine ⟨?_, mem_results_notBehind h⟩
  change d ∈ (if c.last.any (fun c => c ≠ '\n') then [] else [c]) at h
  split at h
  · cases h
  · next hguard =>
      cases hlast : c.last with
      | none => rfl
      | some a => simpa [hlast] using hguard

/-- A pattern for the beginning of a line does nothing where no line begins like that. -/
theorem sub_eq_self_of_lines {r : Pattern} {f : Match → List Char} {p : Char → Bool}
    (hstarts : Starts r p)
    (hlines : ∀ front indent c rest, text = front ++ (indent ++ c :: rest) →
      front.getLast?.all (· = '\n') → (∀ a ∈ indent, Text.isSpace a = true) → p c = false) :
    sub (.seq lineStart (.seq (.star true space) r)) f text = text := by
  apply sub_eq_of_unmatched
  intro front rest m hsplit hm
  obtain ⟨d, hd, -, -⟩ := matchAt_text hm
  obtain ⟨e, he, hd⟩ := mem_results_seq.1 hd
  obtain ⟨hlast, rfl⟩ := last_of_lineStart he
  obtain ⟨e', he', hd⟩ := mem_results_seq.1 hd
  obtain ⟨indent, tail, hindent, hrest, rfl⟩ := mem_results_star_char.1 he'
  obtain ⟨c, tail', htail, hc⟩ := hstarts _ d hd
  rw [Cursor.past_rest] at htail
  have hnone := hlines front indent c tail' (by rw [hsplit, ← htail]; exact congrArg _ hrest)
    hlast hindent
  rw [hc] at hnone
  cases hnone

theorem replaceChar_eq_self {c : Char} {w : List Char} (h : c ∉ text) :
    replaceChar c w text = text := by
  unfold replaceChar
  induction text with
  | nil => rfl
  | cons a rest ih =>
      rw [List.mem_cons, not_or] at h
      rw [List.flatMap_cons, if_neg (Ne.symm h.1), ih h.2]
      rfl

theorem withoutFormatting_eq_self (hmarks : ∀ c ∈ text, isMark c = false)
    (hlines : PlainLines py text) : withoutFormatting py text = text := by
  have hself : ∀ {r : Pattern} {f : Match → List Char}, Needs r isMark → sub r f text = text :=
    fun hneeds => hneeds.sub_eq_of_unmatched hmarks
  have hquote : ∀ {f : Match → List Char}, sub blockquote f text = text := by
    intro f
    apply sub_eq_self_of_lines (Starts.left (Starts.left Starts.char))
    intro front indent c rest hsplit hlast hindent
    simp [(hlines front indent c rest hsplit hlast hindent).1]
  have hmark : ∀ {front indent rest : List Char} {c : Char},
      text = front ++ (indent ++ c :: rest) → isMark c = false := by
    rintro front indent rest c rfl
    exact hmarks c (by simp)
  have hrule : ∀ {f : Match → List Char}, sub rule f text = text := by
    intro f
    apply sub_eq_self_of_lines (Starts.left (Starts.left Starts.char))
    intro front indent c rest hsplit hlast hindent
    have hdash := (hlines front indent c rest hsplit hlast hindent).2.1
    have hplain := hmark hsplit
    simp only [isMark, Bool.or_eq_false_iff, decide_eq_false_iff_not] at hplain
    simp [hdash, hplain]
  have hbullet : ∀ {f : Match → List Char}, sub (bullet py) f text = text := by
    intro f
    have hstarts : Starts (itemMark py) fun c => c = '-' || c = '*' || c = '+' || py.isDigit c :=
      Starts.alt (Starts.char.imp fun a ha => by simp [ha])
        ((Starts.left (Starts.left Starts.char)).imp fun a ha => by simp [ha])
    apply sub_eq_self_of_lines (Starts.left hstarts)
    intro front indent c rest hsplit hlast hindent
    obtain ⟨-, hdash, hplus, hdigit⟩ := hlines front indent c rest hsplit hlast hindent
    have hplain := hmark hsplit
    simp only [isMark, Bool.or_eq_false_iff, decide_eq_false_iff_not] at hplain
    simp [hdash, hplus, hdigit, hplain]
  have himage : Needs image isMark := Needs.left (Needs.literal rfl)
  have hlink : Needs mdLink isMark := Needs.left (Needs.literal rfl)
  have hcode : Needs inlineCode isMark := Needs.left (Needs.literal rfl)
  have hheader : Needs header isMark := Needs.right (Needs.right (Needs.left (Needs.literal rfl)))
  have hbold : Needs bold isMark :=
    Needs.left (Needs.group (Needs.alt (Needs.literal rfl) (Needs.literal rfl)))
  have hitalic : Needs italic isMark := Needs.alt (Needs.right (Needs.left (Needs.literal rfl)))
    (Needs.right (Needs.left (Needs.literal rfl)))
  unfold withoutFormatting
  dsimp only
  rw [hself (Needs.literal rfl), hself himage, hself hlink, hself hcode, hself hheader, hquote,
    hrule, hbullet, hself hbold, hself hitalic]

theorem withoutMarks_eq_self (hmarks : ∀ c ∈ text, isMark c = false) :
    withoutMarks text = text := by
  have hnone : ∀ c, isMark c = true → c ∉ text := fun c hc hmem => by
    rw [hmarks c hmem] at hc
    cases hc
  have hemoji : Needs emoji isMark := Needs.left (Needs.char fun a ha => by simp [isMark, ha])
  have hbrackets : Needs leftoverBrackets isMark := Needs.char fun a ha => by
    simp only [Bool.or_eq_true, decide_eq_true_eq] at ha
    rcases ha with rfl | rfl <;> rfl
  unfold withoutMarks
  dsimp only
  rw [hemoji.sub_eq_of_unmatched hmarks, replaceChar_eq_self (hnone '*' rfl),
    replaceChar_eq_self (hnone '_' rfl), replaceChar_eq_self (hnone '`' rfl),
    replaceChar_eq_self (hnone '#' rfl), hbrackets.sub_eq_of_unmatched hmarks]

/-- Prose is read aloud as it is: without marks and lists, nothing is lost but spaces and
periods, and nothing is moved. -/
theorem normalizeForSpeech_keeps (hmarks : ∀ c ∈ text, isMark c = false)
    (hlines : PlainLines py text) :
    (normalizeForSpeech py text).filter isKept = text.filter isKept := by
  unfold normalizeForSpeech
  split
  · next hempty => rw [hempty]
  · rw [kept_stripChars, kept_tightened, kept_unbroken, withoutFormatting_eq_self hmarks hlines,
      withoutMarks_eq_self hmarks]

/-- A sentence with a digit and a dash in it. -/
def room : List Char := "Room 4-B , now".toList

theorem plainLines_room : PlainLines asciiClasses room := by
  intro front indent c rest hsplit hlast hindent
  obtain rfl : front = [] := by
    cases hfront : front.getLast? with
    | none => exact List.getLast?_eq_none_iff.1 hfront
    | some a =>
        rw [hfront] at hlast
        obtain rfl : a = '\n' := by simpa using hlast
        have hmem : '\n' ∈ room := by
          rw [hsplit]
          exact List.mem_append_left _ (List.mem_of_getLast? hfront)
        exact absurd hmem (by decide)
  cases indent with
  | nil =>
      obtain rfl : 'R' = c := (List.cons.inj hsplit).1
      exact ⟨by decide, by decide, by decide, rfl⟩
  | cons a indent =>
      obtain rfl : 'R' = a := (List.cons.inj hsplit).1
      exact absurd (hindent 'R' List.mem_cons_self) (by decide)

/-- The sentence keeps its words, its digit and its dash. -/
theorem normalizeForSpeech_keeps_room :
    (normalizeForSpeech asciiClasses room).filter isKept = room.filter isKept := by
  have hmarks : room.any isMark = false := rfl
  exact normalizeForSpeech_keeps
    (fun c hc => Bool.eq_false_iff.2 (List.any_eq_false.1 hmarks c hc)) plainLines_room

end Prose

end GraphAgent.Speech
