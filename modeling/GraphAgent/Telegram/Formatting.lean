import GraphAgent.Core.Text
import GraphAgent.Telegram.Tags

/-!
# Telegram HTML from markdown

`markdown_to_telegram_html`: code blocks and code spans are put aside behind placeholders, the
text is escaped, links and emphasis are replaced one pattern after the other, and the code is
put back.
-/

namespace GraphAgent.Telegram

open Regex Regex.Pattern

section Patterns

/-- The character classes that `re` takes from Python's Unicode tables. -/
structure Classes where
  isWord : Char → Bool
  isDigit : Char → Bool
  isDigit_ascii : ∀ c, c.toNat < 128 → isDigit c = c.isDigit

theorem Classes.isDigit_eq_false (py : Classes) {c : Char} (hc : c.toNat < 128)
    (h : c.isDigit = false) : py.isDigit c = false := (py.isDigit_ascii c hc).trans h

/-- `\s` -/
def space : Pattern := .char Text.isSpace

/-- `.` with `re.DOTALL` -/
def anything : Pattern := .char fun _ => true

/-- `.` -/
def inLine : Pattern := .char fun c => c ≠ '\n'

/-- `_FENCED` -/
def fencedPattern : Pattern :=
  all [literal "```".toList, .group 1 (.star true (.char fun c => c ≠ '\n' && c ≠ '`')),
    opt (literal ['\n']), .group 2 (.star false anything), literal "```".toList]

/-- `_INLINE_CODE` -/
def inlineCodePattern : Pattern :=
  all [literal ['`'], .group 1 (plus true (.char fun c => c ≠ '`' && c ≠ '\n')), literal ['`']]

/-- `_LINK` -/
def linkPattern : Pattern :=
  all [literal ['['], .group 1 (plus true (.char fun c => c ≠ ']')), literal [']', '('],
    .group 2 (plus true (.char fun c => c ≠ ')' && !Text.isSpace c)), literal [')']]

/-- Text between two markers, as in `_BOLD` and `_STRIKE`. -/
def marked (marker : List Char) (n : Nat) : Pattern :=
  all [literal marker, .group n (plus false anything), literal marker]

/-- `_BOLD` -/
def boldPattern : Pattern := .alt (marked ['*', '*'] 1) (marked ['_', '_'] 2)

/-- `_STRIKE` -/
def strikePattern : Pattern := marked ['~', '~'] 1

variable (py : Classes)

/-- One half of `_ITALIC`: the marker stands at the border of a word, and no space inside. -/
def slanted (marker : Char) (n : Nat) : Pattern :=
  all [.notBehind (fun c => py.isWord c || c = marker), literal [marker], .notAhead Text.isSpace,
    .group n (plus false anything), .notBehind Text.isSpace, literal [marker],
    .notAhead (fun c => py.isWord c || c = marker)]

/-- `_ITALIC` -/
def italicPattern : Pattern := .alt (slanted py '*' 1) (slanted py '_' 2)

/-- `_HEADING` -/
def headingPattern : Pattern :=
  all [.start, atMost 3 space, .group 1 (.seq (literal ['#']) (atMost 5 (literal ['#']))),
    plus true space, .group 2 (.star false inLine), .star true space, .star true (literal ['#']),
    .star true space, .finish]

/-- `_QUOTE` -/
def quotePattern : Pattern :=
  all [.start, atMost 3 space, literal ['>'], opt space, .group 1 (.star true inLine), .finish]

/-- `_ULIST` -/
def ulistPattern : Pattern :=
  all [.start, .group 1 (.star true space), .char (fun c => c = '-' || c = '*' || c = '+'),
    plus true space, .group 2 (.star true inLine), .finish]

/-- `_OLIST` -/
def olistPattern : Pattern :=
  all [.start, .group 1 (.star true space), .group 2 (plus true (.char py.isDigit)),
    literal ['.'], plus true space, .group 3 (.star true inLine), .finish]

/-- `_HR` -/
def hrPattern : Pattern :=
  all [.start, atMost 3 space, .group 1 (.char fun c => c = '-' || c = '*' || c = '_'),
    .star true space, .seq (.backref 1) (.star true space), .seq (.backref 1) (.star true space),
    .star true (.seq (.backref 1) (.star true space)), .finish]

end Patterns

section Pieces

/-- `text.replace(c, w)` -/
def replaceChar (c : Char) (w text : List Char) : List Char :=
  text.flatMap fun d => if d = c then w else [d]

/-- `escape_html` -/
def escapeHtml (text : List Char) : List Char :=
  replaceChar '>' "&gt;".toList (replaceChar '<' "&lt;".toList (replaceChar '&' "&amp;".toList text))

/-- `text.replace(old, new, 1)` -/
def replaceFirst (old new : List Char) : List Char → List Char
  | [] => []
  | c :: text =>
      if old.isPrefixOf (c :: text) then new ++ (c :: text).drop old.length
      else c :: replaceFirst old new text

/-- The text with the matches put aside: the nth one has left its mark. -/
def stash (mark : Nat → List Char) : Nat → List Segment → List Char
  | _, [] => []
  | n, .plain c :: rest => c :: stash mark n rest
  | n, .found _ :: rest => mark n ++ stash mark (n + 1) rest

/-- What is put aside of scanned text. -/
def stashed (render : Match → List Char) : List Segment → List (List Char)
  | [] => []
  | .plain _ :: rest => stashed render rest
  | .found m :: rest => render m :: stashed render rest

/-- Put back what has been put aside, each piece in place of its mark. -/
def restore (mark : Nat → List Char) : Nat → List (List Char) → List Char → List Char
  | _, [], text => text
  | n, piece :: rest, text => restore mark (n + 1) rest (replaceFirst (mark n) piece text)

/-- The text of a group that has been set. -/
def group (m : Match) (n : Nat) : List Char := (m.group? n).getD []

/-- `_render_code_block` -/
def renderCodeBlock (m : Match) : List Char :=
  let language := Text.stripChars (group m 1)
  let code := escapeHtml ((group m 2).rdropWhile (· = '\n'))
  if language ≠ [] then
    "<pre><code class=\"language-".toList ++ escapeHtml language ++ "\">".toList ++ code ++
      "</code></pre>".toList
  else "<pre>".toList ++ code ++ "</pre>".toList

/-- `_render_link` -/
def renderLink (m : Match) : List Char :=
  let url := replaceChar '"' "&quot;".toList (group m 2)
  "<a href=\"".toList ++ url ++ "\">".toList ++ group m 1 ++ "</a>".toList

/-- A text between the tags of a name. -/
def wrap (name text : List Char) : List Char := ['<'] ++ name ++ ['>'] ++ text ++ closeTag name

/-- The placeholder of a code block. -/
def blockMark (index : Nat) : List Char := ['\x00', 'B'] ++ (toString index).toList ++ ['\x00']

/-- The placeholder of a code span. -/
def codeMark (index : Nat) : List Char := ['\x00'] ++ (toString index).toList ++ ['\x00']

/-- `match.group(1) or match.group(2)` -/
def either (m : Match) : List Char := if group m 1 ≠ [] then group m 1 else group m 2

end Pieces

section Render

variable (py : Classes)

/-- The text of `_inline` with its links, before the emphasis. -/
def linked (text : List Char) : List Char :=
  sub linkPattern renderLink (escapeHtml (stash codeMark 0 (segments inlineCodePattern text)))

/-- The pass of `_inline` for bold text. -/
def bolded (text : List Char) : List Char := sub boldPattern (fun m => wrap ['b'] (either m)) text

/-- The pass of `_inline` for text that is struck out. -/
def struck (text : List Char) : List Char :=
  sub strikePattern (fun m => wrap ['s'] (group m 1)) text

/-- The pass of `_inline` for text in italics. -/
def slantedText (text : List Char) : List Char :=
  sub (italicPattern py) (fun m => wrap ['i'] (either m)) text

/-- The rendered code spans of a text. -/
def codes (text : List Char) : List (List Char) :=
  stashed (fun m => wrap "code".toList (escapeHtml (group m 1))) (segments inlineCodePattern text)

/-- `_inline` -/
def inline (text : List Char) : List Char :=
  restore codeMark 0 (codes text) (slantedText py (struck (bolded (linked text))))

/-- What a line that is no quote becomes. -/
def renderLine (line : List Char) : List Char :=
  if (matchAt hrPattern none line).isSome then "———".toList
  else
    match matchAt headingPattern none line with
    | some m =>
        let content := inline py (group m 2)
        if content ≠ [] then wrap ['b'] content else []
    | none =>
        match matchAt ulistPattern none line with
        | some m => group m 1 ++ "• ".toList ++ inline py (group m 2)
        | none =>
            match matchAt (olistPattern py) none line with
            | some m => group m 1 ++ group m 2 ++ ". ".toList ++ inline py (group m 3)
            | none => inline py line

/-- The variables of the loop over the lines. -/
structure Lines where
  rendered : List (List Char)
  quote : List (List Char)

/-- `flush_quote` -/
def Lines.flushQuote (s : Lines) : Lines :=
  if s.quote ≠ [] then
    ⟨s.rendered ++ [wrap "blockquote".toList (['\n'].intercalate s.quote)], []⟩
  else s

/-- One line of the loop. -/
def Lines.add (s : Lines) (line : List Char) : Lines :=
  match matchAt quotePattern none line with
  | some m => { s with quote := s.quote ++ [inline py (group m 1)] }
  | none => ⟨s.flushQuote.rendered ++ [renderLine py line], []⟩

/-- The text with its lines rendered, before the code blocks are put back. -/
def renderLines (text : List Char) : List Char :=
  ['\n'].intercalate (((text.splitOn '\n').foldl (Lines.add py) ⟨[], []⟩).flushQuote.rendered)

/-- `markdown_to_telegram_html` -/
def markdownToTelegramHtml (text : List Char) : List Char :=
  let segs := segments fencedPattern text
  restore blockMark 0 (stashed renderCodeBlock segs) (renderLines py (stash blockMark 0 segs))

end Render

section Replace

theorem replaceFirst_eq (old new text : List Char) :
    replaceFirst old new text = text ∨ ∃ front back, text = front ++ old ++ back ∧
      replaceFirst old new text = front ++ new ++ back := by
  induction text with
  | nil => exact .inl rfl
  | cons c text ih =>
      rw [replaceFirst]
      split
      case isTrue hprefix =>
        obtain ⟨back, hback⟩ := List.isPrefixOf_iff_prefix.1 hprefix
        exact .inr ⟨[], back, by simp [hback], by simp [← hback]⟩
      case isFalse =>
        rcases ih with hsame | ⟨front, back, htext, hreplaced⟩
        · exact .inl (by rw [hsame])
        · exact .inr ⟨c :: front, back, by simp [htext], by simp [hreplaced]⟩

/-- What putting one piece back keeps, putting all of them back keeps. -/
theorem restore_induction {motive : List Char → Prop} {mark : Nat → List Char}
    {pieces : List (List Char)} {n : Nat} {text : List Char} (htext : motive text)
    (hreplace : ∀ n, ∀ piece ∈ pieces, ∀ text, motive text →
      motive (replaceFirst (mark n) piece text)) : motive (restore mark n pieces text) := by
  induction pieces generalizing n text with
  | nil => exact htext
  | cons piece rest ih =>
      exact ih (hreplace n piece (by simp) text htext) fun k q hq => hreplace k q (by simp [hq])

theorem mem_stashed {render : Match → List Char} {segs : List Segment} {piece : List Char}
    (h : piece ∈ stashed render segs) : ∃ m, Segment.found m ∈ segs ∧ piece = render m := by
  induction segs with
  | nil => cases h
  | cons segment rest ih =>
      cases segment with
      | plain c =>
          obtain ⟨m, hm, heq⟩ := ih h
          exact ⟨m, List.mem_cons_of_mem _ hm, heq⟩
      | found n =>
          rcases List.mem_cons.1 h with rfl | h
          · exact ⟨n, List.mem_cons_self .., rfl⟩
          · obtain ⟨m, hm, heq⟩ := ih h
            exact ⟨m, List.mem_cons_of_mem _ hm, heq⟩

end Replace

section Shapes

variable {c d : Cursor} {m : Match}

/-- A match is text between two markers, and its group is that text. -/
def Between (marker body : List Char) (m : Match) : Prop :=
  body ≠ [] ∧ m.text = marker ++ body ++ marker

theorem mem_results_marked {marker : List Char} {n : Nat} (h : d ∈ results (marked marker n) c) :
    ∃ body, body ≠ [] ∧ c.rest = marker ++ body ++ marker ++ d.rest ∧
      d.groups = (n, body) :: c.groups := by
  simp only [marked, all, anything, mem_results_seq, mem_results_literal, mem_results_group,
    mem_results_plus_char] at h
  obtain ⟨-, ⟨r₁, h₁, rfl⟩, -, ⟨-, ⟨body, r₂, hbody, -, h₂, rfl⟩, rfl⟩, r₃, h₃, rfl⟩ := h
  simp only [Cursor.past_rest] at h₂ h₃
  refine ⟨body, hbody, ?_, ?_⟩
  · rw [h₁, h₂, h₃]
    simp
  · simp [h₂]

theorem mem_results_slanted {py : Classes} {marker : Char} {n : Nat}
    (h : d ∈ results (slanted py marker n) c) :
    ∃ body, body ≠ [] ∧ c.rest = [marker] ++ body ++ [marker] ++ d.rest ∧
      d.groups = (n, body) :: c.groups := by
  simp only [slanted, all, anything, mem_results_seq, mem_results_literal, mem_results_group,
    mem_results_plus_char] at h
  obtain ⟨e₀, h₀, -, ⟨r₁, h₁, rfl⟩, e₁, ha₁, -, ⟨-, ⟨body, r₂, hbody, -, h₂, rfl⟩, rfl⟩, e₂, hb₂, -,
    ⟨r₃, h₃, rfl⟩, hend⟩ := h
  obtain rfl := mem_results_notBehind h₀
  obtain rfl := mem_results_notAhead ha₁
  obtain rfl := mem_results_notBehind hb₂
  obtain rfl := mem_results_notAhead hend
  simp only [Cursor.past_rest] at h₂ h₃
  refine ⟨body, hbody, ?_, ?_⟩
  · rw [h₁, h₂, h₃]
    simp
  · simp [h₂]

theorem bold_shape (h : Accepts boldPattern m) : ∃ marker,
    (marker = ['*', '*'] ∨ marker = ['_', '_']) ∧ Between marker (either m) m := by
  obtain ⟨last, rest, d, hd, rfl, hgroups⟩ := h
  rcases mem_results_alt.1 hd with hd | hd
  · obtain ⟨body, hne, htext, hbody⟩ := mem_results_marked hd
    have heither : either m = body := by
      simp [either, group, Match.group?, ← hgroups, hbody, hne]
    exact ⟨['*', '*'], .inl rfl, heither ▸ hne, heither ▸ List.append_cancel_right htext⟩
  · obtain ⟨body, hne, htext, hbody⟩ := mem_results_marked hd
    have heither : either m = body := by
      simp [either, group, Match.group?, List.lookup_cons, ← hgroups, hbody]
    exact ⟨['_', '_'], .inr rfl, heither ▸ hne, heither ▸ List.append_cancel_right htext⟩

theorem strike_shape (h : Accepts strikePattern m) : Between ['~', '~'] (group m 1) m := by
  obtain ⟨last, rest, d, hd, rfl, hgroups⟩ := h
  obtain ⟨body, hne, htext, hbody⟩ := mem_results_marked hd
  have hgroup : group m 1 = body := by simp [group, Match.group?, ← hgroups, hbody]
  exact ⟨hgroup ▸ hne, hgroup ▸ List.append_cancel_right htext⟩

theorem italic_shape {py : Classes} (h : Accepts (italicPattern py) m) : ∃ marker,
    (marker = '*' ∨ marker = '_') ∧ Between [marker] (either m) m := by
  obtain ⟨last, rest, d, hd, rfl, hgroups⟩ := h
  rcases mem_results_alt.1 hd with hd | hd
  · obtain ⟨body, hne, htext, hbody⟩ := mem_results_slanted hd
    have heither : either m = body := by
      simp [either, group, Match.group?, ← hgroups, hbody, hne]
    exact ⟨'*', .inl rfl, heither ▸ hne, heither ▸ List.append_cancel_right htext⟩
  · obtain ⟨body, hne, htext, hbody⟩ := mem_results_slanted hd
    have heither : either m = body := by
      simp [either, group, Match.group?, List.lookup_cons, ← hgroups, hbody]
    exact ⟨'_', .inr rfl, heither ▸ hne, heither ▸ List.append_cancel_right htext⟩

/-- The marks before the items of a list are white space and digits. -/
theorem ulist_shape (h : Accepts ulistPattern m) : ∀ a ∈ group m 1, Text.isSpace a = true := by
  obtain ⟨last, rest, d, hd, -, hgroups⟩ := h
  simp only [ulistPattern, all, space, inLine, mem_results_seq, mem_results_group,
    mem_results_char, mem_results_plus_char, mem_results_star_char] at hd
  obtain ⟨e, he, -, ⟨-, ⟨indent, r₁, hindent, h₁, rfl⟩, rfl⟩, -, ⟨a, r₂, -, -, rfl⟩, -,
    ⟨w, r₃, -, -, -, rfl⟩, -, ⟨-, ⟨item, r₄, -, -, rfl⟩, rfl⟩, hend⟩ := hd
  obtain rfl := mem_results_finish hend
  obtain rfl := mem_results_start he
  change m.text ++ rest = indent ++ r₁ at h₁
  have hgroup : group m 1 = indent := by
    simp [group, Match.group?, List.lookup_cons, ← hgroups, h₁]
  exact hgroup ▸ hindent

theorem olist_shape {py : Classes} (h : Accepts (olistPattern py) m) :
    (∀ a ∈ group m 1, Text.isSpace a = true) ∧ ∀ a ∈ group m 2, py.isDigit a = true := by
  obtain ⟨last, rest, d, hd, -, hgroups⟩ := h
  simp only [olistPattern, all, space, inLine, mem_results_seq, mem_results_group,
    mem_results_literal, mem_results_plus_char, mem_results_star_char] at hd
  obtain ⟨e, he, -, ⟨-, ⟨indent, r₁, hindent, h₁, rfl⟩, rfl⟩, -,
    ⟨-, ⟨number, r₂, -, hnumber, h₂, rfl⟩, rfl⟩, -, ⟨r₃, -, rfl⟩, -, ⟨w, r₄, -, -, -, rfl⟩, -,
    ⟨-, ⟨item, r₅, -, -, rfl⟩, rfl⟩, hend⟩ := hd
  obtain rfl := mem_results_finish hend
  obtain rfl := mem_results_start he
  simp only [Cursor.past_rest] at h₁ h₂
  have hfirst : group m 1 = indent := by
    simp [group, Match.group?, List.lookup_cons, ← hgroups, h₁]
  have hsecond : group m 2 = number := by
    simp [group, Match.group?, List.lookup_cons, ← hgroups, h₂]
  exact ⟨hfirst ▸ hindent, hsecond ▸ hnumber⟩

end Shapes

section Links

variable {link label url rest other label' url' rest' : List Char}

/-- A markdown link with its label and its URL. -/
structure IsLink (link label url : List Char) : Prop where
  text_eq : link = ['['] ++ label ++ [']', '('] ++ url ++ [')']
  label_ne : label ≠ []
  label_class : ']' ∉ label
  url_ne : url ≠ []
  url_class : ∀ a ∈ url, a ≠ ')' ∧ Text.isSpace a = false

theorem IsLink.ne_nil (h : IsLink link label url) : link ≠ [] := by simp [h.text_eq]

theorem eq_of_stop {p : Char → Bool} {w v back back' : List Char} {a : Char} (ha : p a = false)
    (hw : ∀ b ∈ w, p b = true) (hv : ∀ b ∈ v, p b = true) (h : w ++ a :: back = v ++ a :: back') :
    w = v ∧ back = back' := by
  have htake := congrArg (List.takeWhile p) h
  rw [List.takeWhile_append_of_pos hw, List.takeWhile_append_of_pos hv,
    List.takeWhile_cons_of_neg (by simp [ha]), List.takeWhile_cons_of_neg (by simp [ha]),
    List.append_nil, List.append_nil] at htake
  subst htake
  exact ⟨rfl, (List.cons.inj (List.append_cancel_left h)).2⟩

/-- A text begins with one link at most. -/
theorem IsLink.unique (h : IsLink link label url) (h' : IsLink other label' url')
    (heq : link ++ rest = other ++ rest') : link = other ∧ label = label' ∧ url = url' := by
  have hsplit : label ++ ']' :: ('(' :: url ++ ')' :: rest) =
      label' ++ ']' :: ('(' :: url' ++ ')' :: rest') := by
    simpa [h.text_eq, h'.text_eq] using heq
  have hlabel : ∀ {w : List Char}, ']' ∉ w → ∀ a ∈ w, decide (a ≠ ']') = true := by
    intro w hw a ha
    simpa using fun heq : a = ']' => hw (heq ▸ ha)
  obtain ⟨rfl, hback⟩ := eq_of_stop (p := fun a => a ≠ ']') (by decide) (hlabel h.label_class)
    (hlabel h'.label_class) hsplit
  obtain ⟨-, hurl⟩ := List.cons.inj hback
  obtain ⟨rfl, -⟩ := eq_of_stop (p := fun a => a ≠ ')') (by decide)
    (fun a ha => by simpa using (h.url_class a ha).1)
    (fun a ha => by simpa using (h'.url_class a ha).1) hurl
  exact ⟨h.text_eq.trans h'.text_eq.symm, rfl, rfl⟩

theorem getLast?_link (label url : List Char) :
    ('[' :: (label ++ ']' :: '(' :: (url ++ [')']))).getLast? = some ')' := by
  have hsplit : '[' :: (label ++ ']' :: '(' :: (url ++ [')'])) =
      ('[' :: label ++ ']' :: '(' :: url) ++ [')'] := by simp
  rw [hsplit, List.getLast?_concat]

theorem results_link_iff {c d : Cursor} : d ∈ results linkPattern c ↔
    ∃ link label url rest, IsLink link label url ∧ c.rest = link ++ rest ∧
      d = { c.past link rest with groups := (2, url) :: (1, label) :: c.groups } := by
  simp only [linkPattern, all, mem_results_seq, mem_results_literal, mem_results_group,
    mem_results_plus_char]
  constructor
  · rintro ⟨-, ⟨r₁, h₁, rfl⟩, -, ⟨-, ⟨label, r₂, hlne, hlabel, h₂, rfl⟩, rfl⟩, -, ⟨r₃, h₃, rfl⟩, -,
      ⟨-, ⟨url, r₄, hune, hurl, h₄, rfl⟩, rfl⟩, r₅, h₅, rfl⟩
    simp only [Cursor.past_rest] at h₂ h₃ h₄ h₅
    refine ⟨_, label, url, r₅, ⟨rfl, hlne, ?_, hune, ?_⟩, ?_, ?_⟩
    · exact fun hmem => by simpa using hlabel _ hmem
    · exact fun a ha => by simpa using hurl a ha
    · rw [h₁, h₂, h₃, h₄, h₅]
      simp
    · subst h₂ h₃ h₄ h₅
      simp [Cursor.past, getLast?_link]
  · rintro ⟨-, label, url, rest, ⟨rfl, hlne, hlabel, hune, hurl⟩, hrest, rfl⟩
    refine ⟨_, ⟨label ++ [']', '('] ++ url ++ [')'] ++ rest, by simp [hrest], rfl⟩, _,
      ⟨_, ⟨label, [']', '('] ++ url ++ [')'] ++ rest, hlne, ?_, by simp, rfl⟩, rfl⟩, _,
      ⟨url ++ [')'] ++ rest, by simp, rfl⟩, _, ⟨_, ⟨url, [')'] ++ rest, hune, ?_, by simp, rfl⟩, rfl⟩,
      rest, by simp, ?_⟩
    · exact fun a ha => by simpa using fun heq : a = ']' => hlabel (heq ▸ ha)
    · exact fun a ha => by simpa using hurl a ha
    · simp [Cursor.past, getLast?_link]

/-- `_LINK` matches at a place exactly if a link stands there, and takes that link. -/
theorem matchAt_link_iff {last : Option Char} {text : List Char} {m : Match} :
    matchAt linkPattern last text = some m ↔ ∃ label url rest, IsLink m.text label url ∧
      text = m.text ++ rest ∧ m.groups = [(2, url), (1, label)] := by
  constructor
  · intro h
    obtain ⟨d, hd, htext, hgroups⟩ := matchAt_text h
    obtain ⟨link, label, url, rest, hlink, hrest, rfl⟩ := results_link_iff.1 hd
    obtain rfl : m.text = link := by simpa using htext.symm.trans hrest
    exact ⟨label, url, rest, hlink, hrest, hgroups.symm⟩
  · rintro ⟨label, url, rest, hlink, rfl, hgroups⟩
    have hmem := results_link_iff.2
      ⟨m.text, label, url, rest, hlink, (rfl : (⟨last, m.text ++ rest, []⟩ : Cursor).rest = _), rfl⟩
    obtain ⟨d, hd⟩ := Option.isSome_iff_exists.1 (List.isSome_head?.2 (List.ne_nil_of_mem hmem))
    obtain ⟨other, label', url', rest', hother, heq, rfl⟩ :=
      results_link_iff.1 (List.mem_of_mem_head? hd)
    obtain ⟨rfl, rfl, rfl⟩ := hlink.unique hother heq
    obtain rfl := List.append_cancel_left heq
    obtain ⟨text, groups⟩ := m
    obtain rfl : groups = [(2, url), (1, label)] := hgroups
    simp [matchAt, hd]

theorem link_shape {m : Match} (h : Accepts linkPattern m) :
    m.text = ['['] ++ group m 1 ++ [']', '('] ++ group m 2 ++ [')'] := by
  obtain ⟨last, rest, d, hd, rfl, hgroups⟩ := h
  obtain ⟨link, label, url, tail, hlink, htext, heq⟩ := results_link_iff.1 hd
  obtain rfl : tail = d.rest := by rw [heq]; rfl
  obtain rfl : m.text = link := List.append_cancel_right htext
  have hset : m.groups = [(2, url), (1, label)] := by rw [← hgroups, heq]
  have hlabel : group m 1 = label := by simp [group, Match.group?, List.lookup_cons, hset]
  have hurl : group m 2 = url := by simp [group, Match.group?, hset]
  rw [hlabel, hurl]
  exact hlink.text_eq

end Links

end GraphAgent.Telegram
