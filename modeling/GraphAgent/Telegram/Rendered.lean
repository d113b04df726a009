import GraphAgent.Telegram.Emphasis
import GraphAgent.Telegram.Links
import GraphAgent.Telegram.PlainText
import Mathlib.Tactic.MkIffOfInductiveProp

/-!
# Rendered messages as markup

What `markdown_to_telegram_html` returns is well-formed, and its links have the escaped URLs,
exactly if in every text that goes through `_inline` no code stands in a URL and every emphasis
that a pass replaces begins outside of the tags and stands around whole ones.
-/

namespace GraphAgent.Telegram

open Regex Regex.Pattern Automaton

section Inline

variable (py : Classes)

/-- What the passes of `_inline` need of a text: no placeholder of code is in a URL, and every
match of a pass fits the markup that the passes before it have written. -/
@[mk_iff]
structure Sane (text : List Char) : Prop where
  links : ∀ url ∈ linkUrls text, '\x00' ∉ url
  bold : Fits either false (segments boldPattern (linked text))
  strike : Fits (group · 1) false (segments strikePattern (bolded (linked text)))
  italic : Fits either false (segments (italicPattern py) (struck (bolded (linked text))))

instance (text : List Char) : Decidable (Sane py text) := decidable_of_iff _ (sane_iff py text).symm

/-- A placeholder is read like what it stands for. -/
theorem run_mark {mark piece : List Char} (hlt : '<' ∉ mark) (hgt : '>' ∉ mark)
    (hmark : mark.head? = some '\x00') (hpiece : piece.head? = some '<')
    (hwell : WellFormed piece []) (r : Reader) : run readStep r piece = run readStep r mark := by
  obtain ⟨mode, names, hrefs⟩ := r
  cases mode with
  | text => rw [hwell.run_eq, run_bare hlt hgt, List.append_nil]
  | tag seen =>
      obtain ⟨rest, rfl⟩ := List.head?_eq_some_iff.1 hmark
      obtain ⟨tail, rfl⟩ := List.head?_eq_some_iff.1 hpiece
      rw [run_inTag_refused (.inl rfl), run_inTag_refused (.inr rfl)]

theorem run_restore {mark : Nat → List Char} {pieces : List (List Char)}
    (hpieces : ∀ n, ∀ piece ∈ pieces, ∀ r, run readStep r piece = run readStep r (mark n))
    (n : Nat) (text : List Char) (r : Reader) :
    run readStep r (restore mark n pieces text) = run readStep r text := by
  refine restore_induction (motive := fun new => ∀ r, run readStep r new = run readStep r text)
    (fun r => rfl) (fun k piece hpiece new hnew r => ?_) r
  rcases replaceFirst_eq (mark k) piece new with hsame | ⟨front, back, rfl, hreplaced⟩
  · rw [hsame, hnew]
  · rw [hreplaced]
    calc run readStep r (front ++ piece ++ back) = run readStep r (front ++ mark k ++ back) := by
          simp only [run_append, hpieces k piece hpiece]
      _ = run readStep r text := hnew r

theorem lt_not_mem_marks (index : Nat) : '<' ∉ codeMark index ∧ '<' ∉ blockMark index := by
  have hplain : ∀ {w : List Char}, isFence w = true → '<' ∉ w := by
    intro w hw
    simp only [isFence, Bool.and_eq_true, List.all_eq_true] at hw
    exact not_mem_of_forall (by decide) hw.2
  exact ⟨hplain (isFence_marks index).1, hplain (isFence_marks index).2⟩

theorem run_codes (text : List Char) (n : Nat) : ∀ piece ∈ codes text, ∀ r,
    run readStep r piece = run readStep r (codeMark n) := by
  intro piece hpiece r
  obtain ⟨m, -, rfl⟩ := mem_stashed hpiece
  refine run_mark (lt_not_mem_marks n).1 (not_mem_marks n).1 rfl ?_ ?_ r
  · rfl
  · exact (wellFormed_escapeHtml _).run_wrap (by decide)

/-- The first letters of the names of tags. -/
def within (letters : List Char) (c : Char) : Bool := c ∈ letters

theorem isLetter_of_within {letters : List Char} (h : letters.all isLetter = true) (c : Char)
    (hc : within letters c = true) : isLetter c = true :=
  List.all_eq_true.1 h c (of_decide_eq_true hc)

/-- A rendered text is read as its condition says: each pass writes tags of a new name. -/
theorem reads_inline (text : List Char) :
    Reads (Sane py text) ((linkUrls text).map escapeUrl) (inline py text) := by
  have hone : ['a'].all isLetter = true := by decide
  have htwo : ['a', 'b'].all isLetter = true := by decide
  have hthree : ['a', 'b', 's'].all isLetter = true := by decide
  have hlinked : ∀ {letters : List Char}, letters.all isLetter = true → 'a' ∈ letters →
      Sound (within letters) (linked text) := fun h ha =>
    sound_linked (isLetter_of_within h) (decide_eq_true ha) text
  have hbolded : ∀ {letters : List Char}, letters.all isLetter = true → 'a' ∈ letters →
      'b' ∈ letters → Sound (within letters) (bolded (linked text)) := fun h ha hb =>
    sound_emphasis (isLetter_of_within h) emphasis_bold (decide_eq_true hb) (hlinked h ha)
  have hstruck : Sound (within ['a', 'b', 's']) (struck (bolded (linked text))) :=
    sound_emphasis (isLetter_of_within hthree) emphasis_strike (by decide)
      (hbolded hthree (by decide) (by decide))
  have hbold : Reads ((∀ url ∈ linkUrls text, '\x00' ∉ url) ∧
      Fits either false (segments boldPattern (linked text))) ((linkUrls text).map escapeUrl)
      (bolded (linked text)) :=
    reads_pass (isLetter_of_within hone) (by decide) (by decide)
      (reads_linked text) emphasis_bold (hlinked hone (by decide))
  have hstrike : Reads (((∀ url ∈ linkUrls text, '\x00' ∉ url) ∧
      Fits either false (segments boldPattern (linked text))) ∧
      Fits (group · 1) false (segments strikePattern (bolded (linked text))))
      ((linkUrls text).map escapeUrl) (struck (bolded (linked text))) :=
    reads_pass (isLetter_of_within htwo) (by decide) (by decide)
      hbold emphasis_strike (hbolded htwo (by decide) (by decide))
  have hitalic : Reads ((((∀ url ∈ linkUrls text, '\x00' ∉ url) ∧
      Fits either false (segments boldPattern (linked text))) ∧
      Fits (group · 1) false (segments strikePattern (bolded (linked text)))) ∧
      Fits either false (segments (italicPattern py) (struck (bolded (linked text)))))
      ((linkUrls text).map escapeUrl) (slantedText py (struck (bolded (linked text)))) :=
    reads_pass (isLetter_of_within hthree) (by decide) (by decide) hstrike (emphasis_italic py) hstruck
  have hrestore : ∀ r, run readStep r (inline py text) =
      run readStep r (slantedText py (struck (bolded (linked text)))) := fun r =>
    run_restore (run_codes text) 0 _ r
  refine (hitalic.of_run_eq hrestore).congr ?_
  rw [sane_iff, and_assoc, and_assoc]

end Inline

section Blocks

/-- The language of a code block is written in its text. -/
theorem fenced_shape {m : Match} (h : Accepts fencedPattern m) : ∀ a ∈ group m 1, a ∈ m.text := by
  obtain ⟨last, rest, d, hd, hrest, hgroups⟩ := h
  simp only [fencedPattern, all, anything, opt, mem_results_seq, mem_results_alt, mem_results_empty,
    mem_results_group, mem_results_literal, mem_results_star_char] at hd
  obtain ⟨-, ⟨r₁, h₁, rfl⟩, -, ⟨-, ⟨language, r₂, -, h₂, rfl⟩, rfl⟩, e, he, -,
    ⟨-, ⟨code, r₃, -, h₃, rfl⟩, rfl⟩, r₄, h₄, rfl⟩ := hd
  obtain rfl : r₄ = rest := hrest
  obtain ⟨newline, hnewline, hset⟩ : ∃ newline, r₂ = newline ++ e.rest ∧ e.groups = [(1, language)] := by
    simp only [Cursor.past_rest] at h₂
    rcases he with ⟨r, hr, heq⟩ | heq
    · exact ⟨['\n'], by rw [heq]; exact hr, by simp [heq, h₂]⟩
    · exact ⟨[], by rw [heq]; rfl, by simp [heq, h₂]⟩
  simp only [Cursor.past_rest] at h₁ h₂ h₃ h₄ hgroups
  have hgroup : group m 1 = language := by
    simp [group, Match.group?, List.lookup_cons, ← hgroups, hset]
  have hwhole : m.text ++ r₄ =
      "```".toList ++ language ++ newline ++ code ++ "```".toList ++ r₄ := by
    rw [h₁, h₂, hnewline, h₃, h₄]
    simp only [List.append_assoc]
  have htext := List.append_cancel_right hwhole
  intro a ha
  rw [htext]
  simp only [List.mem_append]
  exact .inl (.inl (.inl (.inr (hgroup ▸ ha))))

theorem mem_of_mem_stripChars {chars : List Char} {c : Char} (h : c ∈ Text.stripChars chars) :
    c ∈ chars :=
  (List.dropWhile_suffix _).subset ((List.rdropWhile_prefix _ _).subset h)

/-- A rendered code block is markup of its own. -/
theorem wellFormed_renderCodeBlock {m : Match} (hnul : '\x00' ∉ Text.stripChars (group m 1)) :
    WellFormed (renderCodeBlock m) [] := by
  have hcode := wellFormed_escapeHtml ((group m 2).rdropWhile (· = '\n'))
  have hpre : IsName "pre".toList := by decide
  unfold renderCodeBlock
  generalize escapeHtml ((group m 2).rdropWhile (· = '\n')) = code at hcode ⊢
  dsimp only
  split
  case isTrue =>
    obtain ⟨hlt, hgt⟩ := not_mem_escapeHtml (Text.stripChars (group m 1))
    have hnul' : '\x00' ∉ escapeHtml (Text.stripChars (group m 1)) :=
      mt (mem_escapeHtml (by decide)).1 hnul
    generalize escapeHtml (Text.stripChars (group m 1)) = language at hlt hgt hnul' ⊢
    have hopen : "<pre><code class=\"language-".toList = ['<'] ++ "pre".toList ++ ['>'] ++
        (['<'] ++ "code".toList ++ " class=\"language-".toList) := by decide
    have hmid : "\">".toList = ['"'] ++ ['>'] := by decide
    have hclose : "</code></pre>".toList = closeTag "code".toList ++ closeTag "pre".toList := by decide
    have htext : "<pre><code class=\"language-".toList ++ language ++ "\">".toList ++ code ++
        "</code></pre>".toList = wrap "pre".toList (['<'] ++ "code".toList ++
          (" class=\"language-".toList ++ language ++ ['"']) ++ ['>'] ++ code ++
            closeTag "code".toList) := by
      rw [hopen, hmid, hclose, wrap]
      simp only [List.append_assoc]
    have hcoded : WellFormed (['<'] ++ "code".toList ++ (" class=\"language-".toList ++ language ++
        ['"']) ++ ['>'] ++ code ++ closeTag "code".toList) [] :=
      run_attrTag (by decide) (by simp) (not_mem_attr (by decide) hlt (by decide))
        (not_mem_attr (by decide) hgt (by decide)) (not_mem_attr (by decide) hnul' (by decide)) hcode
    rw [htext]
    exact hcoded.run_wrap hpre
  case isFalse =>
    have hopen : "<pre>".toList = ['<'] ++ "pre".toList ++ ['>'] := by decide
    have hclose : "</pre>".toList = closeTag "pre".toList := by decide
    rw [hopen, hclose]
    exact hcode.run_wrap hpre

theorem run_block {text : List Char} (hnul : '\x00' ∉ text) (n : Nat) :
    ∀ piece ∈ stashed renderCodeBlock (segments fencedPattern text), ∀ r,
      run readStep r piece = run readStep r (blockMark n) := by
  intro piece hpiece r
  obtain ⟨m, hm, rfl⟩ := mem_stashed hpiece
  have hlanguage : '\x00' ∉ Text.stripChars (group m 1) := by
    intro hmem
    have htext := fenced_shape (accepts_of_mem_segments hm) _ (mem_of_mem_stripChars hmem)
    rw [← flatMap_text_segments (r := fencedPattern) text] at hnul
    exact hnul (List.mem_flatMap.2 ⟨_, hm, htext⟩)
  refine run_mark (lt_not_mem_marks n).2 (not_mem_marks n).2 rfl ?_ ?_ r
  · unfold renderCodeBlock
    dsimp only
    split <;> rfl
  · exact wellFormed_renderCodeBlock hlanguage

end Blocks

section Lines

variable (py : Classes)

/-- The texts of a line that go through `_inline`. -/
def inlineTexts (line : List Char) : List (List Char) :=
  match matchAt quotePattern none line with
  | some m => [group m 1]
  | none =>
      if (matchAt hrPattern none line).isSome then []
      else
        match matchAt headingPattern none line with
        | some m => [group m 2]
        | none =>
            match matchAt ulistPattern none line with
            | some m => [group m 2]
            | none =>
                match matchAt (olistPattern py) none line with
                | some m => [group m 3]
                | none => [line]

/-- The escaped URLs of the links of some texts. -/
def hrefsOf (texts : List (List Char)) : List (List Char) :=
  texts.flatMap fun text => (linkUrls text).map escapeUrl

/-- The rendered form of some texts. -/
def Renders (texts : List (List Char)) (out : List Char) : Prop :=
  Reads (∀ text ∈ texts, Sane py text) (hrefsOf texts) out

variable {py} {texts more : List (List Char)} {out back : List Char}

theorem Renders.append (h : Renders py texts out) (hback : Renders py more back) :
    Renders py (texts ++ more) (out ++ back) := by
  unfold Renders hrefsOf at *
  rw [List.flatMap_append]
  exact (Reads.append h hback).congr List.forall_mem_append.symm

theorem renders_bare (hlt : '<' ∉ out) (hgt : '>' ∉ out) : Renders py [] out :=
  (reads_bare hlt hgt).congr (by simp)

theorem renders_inline (text : List Char) : Renders py [text] (inline py text) := by
  unfold Renders hrefsOf
  rw [List.flatMap_singleton]
  exact (reads_inline py text).congr (by simp)

theorem renders_join {groups : List (List (List Char))} {lines : List (List Char)}
    (h : List.Forall₂ (Renders py) groups lines) :
    Renders py groups.flatten (['\n'].intercalate lines) := by
  induction h with
  | nil => exact renders_bare (by simp) (by simp)
  | @cons texts line groups lines hline hlines ih =>
      cases lines with
      | nil =>
          cases hlines
          simpa using hline
      | cons next lines =>
          rw [List.intercalate_cons_cons, List.flatten_cons]
          have hnewline : Renders py [] ['\n'] := renders_bare (by decide) (by decide)
          have hfront := hline.append hnewline
          rw [List.append_nil] at hfront
          exact hfront.append ih

theorem renders_spaces (h : ∀ c ∈ out, Text.isSpace c = true) : Renders py [] out :=
  renders_bare (not_mem_of_forall (by decide) h) (not_mem_of_forall (by decide) h)

theorem renders_digits (h : ∀ c ∈ out, py.isDigit c = true) : Renders py [] out :=
  renders_bare (not_mem_of_forall (py.isDigit_eq_false (by decide) (by decide)) h)
    (not_mem_of_forall (py.isDigit_eq_false (by decide) (by decide)) h)

/-- A line that is no quote renders the text that it hands to `_inline`, if it does. -/
theorem renders_renderLine {line : List Char} (h : matchAt quotePattern none line = none) :
    Renders py (inlineTexts py line) (renderLine py line) := by
  unfold inlineTexts renderLine
  rw [h]
  dsimp only
  split
  case isTrue => exact renders_bare (by decide) (by decide)
  case isFalse =>
    cases hheading : matchAt headingPattern none line with
    | some m =>
        have hcontent : Renders py [group m 2] _ := renders_inline (group m 2)
        dsimp only
        split
        case isTrue => exact Reads.wrap (by decide) hcontent
        case isFalse hempty =>
          rw [not_not.1 hempty] at hcontent
          exact hcontent
    | none =>
        cases hulist : matchAt ulistPattern none line with
        | some m =>
            have hindent : Renders py [] (group m 1) :=
              renders_spaces (ulist_shape (accepts_of_matchAt hulist))
            have hbullet : Renders py [] "• ".toList := renders_bare (by decide) (by decide)
            exact (hindent.append hbullet).append (renders_inline _)
        | none =>
            cases holist : matchAt (olistPattern py) none line with
            | some m =>
                obtain ⟨hspaces, hdigits⟩ := olist_shape (accepts_of_matchAt holist)
                have hindent : Renders py [] (group m 1) := renders_spaces hspaces
                have hdot : Renders py [] ". ".toList := renders_bare (by decide) (by decide)
                exact ((hindent.append (renders_digits hdigits)).append hdot).append (renders_inline _)
            | none => exact renders_inline line

/-- The lines of the loop and those of the quote in hand render these texts. -/
def LinesRender (py : Classes) (texts : List (List Char)) (s : Lines) : Prop :=
  ∃ groups quotes, List.Forall₂ (Renders py) groups s.rendered ∧
    List.Forall₂ (Renders py) quotes s.quote ∧ texts = groups.flatten ++ quotes.flatten

theorem forall₂_concat {groups : List (List (List Char))} {lines : List (List Char)}
    (h : List.Forall₂ (Renders py) groups lines) (hout : Renders py texts out) :
    List.Forall₂ (Renders py) (groups ++ [texts]) (lines ++ [out]) := List.rel_append h (.cons hout .nil)

theorem linesRender_flushQuote {s : Lines} (h : LinesRender py texts s) :
    LinesRender py texts s.flushQuote ∧ s.flushQuote.quote = [] := by
  obtain ⟨groups, quotes, hrendered, hquote, rfl⟩ := h
  unfold Lines.flushQuote
  split
  case isTrue =>
    have hblock : Renders py quotes.flatten (wrap "blockquote".toList (['\n'].intercalate s.quote)) :=
      Reads.wrap (by decide) (renders_join hquote)
    exact ⟨⟨_, [], forall₂_concat hrendered hblock, .nil, by simp⟩, rfl⟩
  case isFalse hempty => exact ⟨⟨groups, quotes, hrendered, hquote, rfl⟩, not_not.1 hempty⟩

theorem linesRender_add {s : Lines} (h : LinesRender py texts s) (line : List Char) :
    LinesRender py (texts ++ inlineTexts py line) (s.add py line) := by
  unfold Lines.add
  split
  case h_1 m hm =>
    obtain ⟨groups, quotes, hrendered, hquote, rfl⟩ := h
    have htexts : inlineTexts py line = [group m 1] := by simp [inlineTexts, hm]
    rw [htexts]
    exact ⟨groups, _, hrendered, forall₂_concat hquote (renders_inline _), by simp⟩
  case h_2 hnone =>
    obtain ⟨⟨groups, quotes, hrendered, hquote, rfl⟩, hempty⟩ := linesRender_flushQuote h
    rw [hempty] at hquote
    cases hquote
    exact ⟨_, [], forall₂_concat hrendered (renders_renderLine hnone), .nil, by simp⟩

theorem linesRender_foldl {s : Lines} (h : LinesRender py texts s) (lines : List (List Char)) :
    LinesRender py (texts ++ lines.flatMap (inlineTexts py)) (lines.foldl (Lines.add py) s) := by
  induction lines generalizing texts s with
  | nil => simpa using h
  | cons line rest ih => simpa using ih (linesRender_add h line)

theorem renders_renderLines (text : List Char) :
    Renders py ((text.splitOn '\n').flatMap (inlineTexts py)) (renderLines py text) := by
  have hstart : LinesRender py [] ⟨[], []⟩ := ⟨[], [], .nil, .nil, rfl⟩
  obtain ⟨⟨groups, quotes, hrendered, hquote, htexts⟩, hempty⟩ :=
    linesRender_flushQuote (linesRender_foldl hstart (text.splitOn '\n'))
  rw [hempty] at hquote
  cases hquote
  have hjoin := renders_join hrendered
  rw [List.nil_append, List.flatten_nil, List.append_nil] at htexts
  rw [htexts]
  exact hjoin

end Lines

section Message

/-- The texts of a message that go through `_inline`. -/
def inlined (py : Classes) (text : List Char) : List (List Char) :=
  ((stash blockMark 0 (segments fencedPattern text)).splitOn '\n').flatMap (inlineTexts py)

/-- A rendered message is well-formed markup in which the links have their escaped URLs exactly
if each text that goes through `_inline` is sane. -/
theorem wellFormed_iff (py : Classes) {text : List Char} (hnul : '\x00' ∉ text) :
    WellFormed (markdownToTelegramHtml py text) (hrefsOf (inlined py text)) ↔
      ∀ part ∈ inlined py text, Sane py part := by
  have hlines : Renders py (inlined py text)
      (renderLines py (stash blockMark 0 (segments fencedPattern text))) := renders_renderLines _
  have hrestored : ∀ r, run readStep r (markdownToTelegramHtml py text) =
      run readStep r (renderLines py (stash blockMark 0 (segments fencedPattern text))) := fun r =>
    run_restore (run_block hnul) 0 _ r
  exact (Reads.of_run_eq hlines hrestored).accepted_iff

/-- A link and bold text around italic text. -/
theorem wellFormed_link :
    hrefsOf (inlined asciiClasses "[a](b?c&d) **e _f_**".toList) = ["b?c&amp;d".toList] ∧
      WellFormed (markdownToTelegramHtml asciiClasses "[a](b?c&d) **e _f_**".toList)
        (hrefsOf (inlined asciiClasses "[a](b?c&d) **e _f_**".toList)) :=
  ⟨by decide, (wellFormed_iff asciiClasses (by decide)).2 (by decide)⟩

/-- Italic text that begins in bold text and ends behind it. -/
theorem tags_overlap : ¬ ∀ (py : Classes) (text : List Char), '\x00' ∉ text →
    WellFormed (markdownToTelegramHtml py text) (hrefsOf (inlined py text)) := by
  intro h
  have hwell := h asciiClasses "**a _b** c_".toList (by decide)
  revert hwell
  decide

end Message

end GraphAgent.Telegram
