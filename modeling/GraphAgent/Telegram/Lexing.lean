import GraphAgent.Library.Automaton
import GraphAgent.Telegram.Formatting

/-!
# The letters of rendered messages

In what `markdown_to_telegram_html` returns, every `&` begins one of four entities, every `<`
begins a tag, and a `>` follows it. Each of the passes keeps to this, because the markers that
it replaces cannot stand inside of an entity or behind a `<`.
-/

namespace GraphAgent.Telegram

open Regex Automaton

section Lexer

/-- The entities that `escape_html` and `_render_link` write. -/
def entities : List (List Char) :=
  ["&amp;".toList, "&lt;".toList, "&gt;".toList, "&quot;".toList]

/-- Where a reader of the letters stands: between them, in an entity of which it has seen some
letters, behind a `<`, or behind a `</`. -/
inductive Lex where
  | free
  | entity (seen : List Char)
  | head
  | slash
  deriving DecidableEq

variable (heads : Char → Bool)

/-- One letter. The names of tags begin with the given letters. -/
def lexStep : Lex → Char → Option Lex
  | .free, c => some (if c = '&' then .entity ['&'] else if c = '<' then .head else .free)
  | .entity seen, c =>
      if seen ++ [c] ∈ entities then some .free
      else if entities.any fun e => (seen ++ [c]).isPrefixOf e then some (.entity (seen ++ [c]))
      else none
  | .head, c => if c = '/' then some .slash else if heads c then some .free else none
  | .slash, c => if heads c then some .free else none

/-- Every `&` of the text begins an entity, every `<` a tag. -/
def Sound (text : List Char) : Prop := run (lexStep heads) .free text = some .free

variable {heads}

theorem Sound.append {front back : List Char} (h : Sound heads front) (hback : Sound heads back) :
    Sound heads (front ++ back) := run_append_eq_some.2 ⟨.free, h, hback⟩

theorem sound_nil : Sound heads [] := rfl

theorem sound_flatMap {α : Type} {f : α → List Char} {l : List α}
    (h : ∀ a ∈ l, Sound heads (f a)) : Sound heads (l.flatMap f) := by
  induction l with
  | nil => exact sound_nil
  | cons a rest ih => exact (h a (by simp)).append (ih fun b hb => h b (by simp [hb]))

/-- A letter that is neither `&` nor `<`. -/
def isPlain (c : Char) : Bool := c ≠ '&' && c ≠ '<'

theorem not_mem_of_forall {p : Char → Bool} {c : Char} (hc : p c = false) {text : List Char}
    (h : ∀ a ∈ text, p a = true) : c ∉ text := fun hmem => by
  rw [h c hmem] at hc
  cases hc

/-- A class without `&` and `<`, as those of the spaces and of the digits are. -/
theorem isPlain_of_class {p : Char → Bool} (hamp : p '&' = false) (hlt : p '<' = false)
    {c : Char} (h : p c = true) : isPlain c = true := by
  have hne : c ≠ '&' ∧ c ≠ '<' := by
    constructor
    · rintro rfl
      exact absurd h (by simp [hamp])
    · rintro rfl
      exact absurd h (by simp [hlt])
  simpa [isPlain] using hne

theorem sound_plain {text : List Char} (h : ∀ c ∈ text, isPlain c = true) : Sound heads text := by
  apply run_eq_self
  intro c hc
  obtain ⟨hamp, hlt⟩ : c ≠ '&' ∧ c ≠ '<' := by simpa [isPlain] using h c hc
  simp [lexStep, hamp, hlt]

/-- A letter that can stand in no entity and in no head of a tag. -/
def isBarrier (c : Char) : Bool := isPlain c && c ≠ '/' && c ∉ entities.flatten && !isLetter c

/-- Only a reader between the letters passes a character of no entity that is in no head. -/
theorem eq_free_of_lexStep (hheads : ∀ c, heads c = true → isLetter c = true) {c : Char}
    (hslash : c ≠ '/') (hentity : c ∉ entities.flatten) (hletter : isLetter c = false) {s t : Lex}
    (h : lexStep heads s c = some t) : s = .free := by
  have hhead : heads c = false := by
    by_contra hyes
    rw [hheads c (by simpa using hyes)] at hletter
    cases hletter
  cases s with
  | free => rfl
  | entity seen =>
      have hnot : ∀ e ∈ entities, ¬ (seen ++ [c]) <+: e := by
        intro e he hprefix
        exact hentity (List.mem_flatten.2 ⟨e, he, hprefix.subset (by simp)⟩)
      have hmem : seen ++ [c] ∉ entities := fun hmem => hnot _ hmem (List.prefix_refl _)
      have hany : (entities.any fun e => (seen ++ [c]).isPrefixOf e) = false := by
        simpa using hnot
      simp only [lexStep, hmem, if_false, hany] at h
      cases h
  | head => simp [lexStep, hslash, hhead] at h
  | slash => simp [lexStep, hhead] at h

/-- Only a reader between the letters passes a barrier, and it stays there. -/
theorem lexStep_barrier (hheads : ∀ c, heads c = true → isLetter c = true) {c : Char}
    (hc : isBarrier c = true) {s t : Lex} (h : lexStep heads s c = some t) :
    s = .free ∧ t = .free := by
  obtain ⟨⟨⟨hplain, hslash⟩, hentity⟩, hletter⟩ : ((isPlain c = true ∧ c ≠ '/') ∧
      c ∉ entities.flatten) ∧ isLetter c = false := by
    simpa [isBarrier] using hc
  obtain rfl := eq_free_of_lexStep hheads hslash hentity hletter h
  obtain ⟨hamp, hlt⟩ : c ≠ '&' ∧ c ≠ '<' := by simpa [isPlain] using hplain
  exact ⟨rfl, by simpa [lexStep, hamp, hlt, eq_comm] using h⟩

/-- A text that begins with a barrier and goes on with plain letters, like the markers of the
emphasis, is passed only between the letters. -/
def isFence (text : List Char) : Bool := text.head?.any isBarrier && text.all isPlain

theorem isPlain_of_isBarrier {c : Char} (h : isBarrier c = true) : isPlain c = true := by
  simp only [isBarrier, Bool.and_eq_true] at h
  exact h.1.1.1

theorem sound_fence {text : List Char} (h : isFence text = true) : Sound heads text := by
  simp only [isFence, Bool.and_eq_true, List.all_eq_true] at h
  exact sound_plain h.2

theorem run_fence (hheads : ∀ c, heads c = true → isLetter c = true) {text : List Char}
    (hfence : isFence text = true) {s t : Lex} (h : run (lexStep heads) s text = some t) :
    s = .free ∧ t = .free := by
  cases text with
  | nil => cases hfence
  | cons c rest =>
      obtain ⟨u, hc, -⟩ := Option.bind_eq_some_iff.1 h
      have hbarrier : isBarrier c = true := by
        simp only [isFence, Bool.and_eq_true] at hfence
        simpa using hfence.1
      obtain ⟨rfl, -⟩ := lexStep_barrier hheads hbarrier hc
      rw [sound_fence hfence] at h
      exact ⟨rfl, (Option.some.inj h).symm⟩

theorem run_wrapped (hheads : ∀ c, heads c = true → isLetter c = true) {marker body : List Char}
    (hmarker : isFence marker = true) {s t : Lex}
    (h : run (lexStep heads) s (marker ++ body ++ marker) = some t) :
    s = .free ∧ t = .free ∧ Sound heads body := by
  obtain ⟨u, hfront, hlast⟩ := run_append_eq_some.1 h
  obtain ⟨v, hfirst, hbody⟩ := run_append_eq_some.1 hfront
  obtain ⟨rfl, rfl⟩ := run_fence hheads hmarker hfirst
  obtain ⟨rfl, rfl⟩ := run_fence hheads hmarker hlast
  exact ⟨rfl, rfl, hbody⟩

end Lexer

section Pieces

variable {heads : Char → Bool}

/-- What `escape_html` makes of a character. -/
def escapeChar (c : Char) : List Char :=
  if c = '&' then "&amp;".toList else if c = '<' then "&lt;".toList
  else if c = '>' then "&gt;".toList else [c]

theorem escapeChar_cases (c : Char) : (c = '&' ∧ escapeChar c = "&amp;".toList) ∨
    (c = '<' ∧ escapeChar c = "&lt;".toList) ∨ (c = '>' ∧ escapeChar c = "&gt;".toList) ∨
    (c ≠ '&' ∧ c ≠ '<' ∧ c ≠ '>' ∧ escapeChar c = [c]) := by
  unfold escapeChar
  split
  case isTrue hamp => exact .inl ⟨hamp, rfl⟩
  case isFalse hamp =>
    split
    case isTrue hlt => exact .inr (.inl ⟨hlt, rfl⟩)
    case isFalse hlt =>
      split
      case isTrue hgt => exact .inr (.inr (.inl ⟨hgt, rfl⟩))
      case isFalse hgt => exact .inr (.inr (.inr ⟨hamp, hlt, hgt, rfl⟩))

theorem escapeHtml_eq (text : List Char) : escapeHtml text = text.flatMap escapeChar := by
  simp only [escapeHtml, replaceChar, List.flatMap_assoc]
  apply List.flatMap_congr
  intro c _
  by_cases hamp : c = '&'
  · subst hamp
    decide
  · by_cases hlt : c = '<'
    · subst hlt
      decide
    · by_cases hgt : c = '>'
      · subst hgt
        decide
      · simp only [escapeChar, if_neg hamp, if_neg hlt, if_neg hgt, List.flatMap_singleton]

theorem sound_escapeHtml (text : List Char) : Sound heads (escapeHtml text) := by
  rw [escapeHtml_eq]
  apply sound_flatMap
  intro c _
  rcases escapeChar_cases c with ⟨-, heq⟩ | ⟨-, heq⟩ | ⟨-, heq⟩ | ⟨hamp, hlt, -, heq⟩
  · rw [heq]
    rfl
  · rw [heq]
    rfl
  · rw [heq]
    rfl
  · rw [heq]
    exact sound_plain (by simp [isPlain, hamp, hlt])

theorem sound_quot (hheads : ∀ c, heads c = true → isLetter c = true) {text : List Char}
    (h : Sound heads text) :
    Sound heads (replaceChar '"' "&quot;".toList text) := by
  have hsingle : text = text.flatMap fun c => [c] := by simp
  unfold Sound replaceChar
  rw [Sound, hsingle] at h
  refine run_flatMap (fun c _ s t hc => ?_) h
  by_cases hquot : c = '"'
  · subst hquot
    obtain ⟨u, hu, hut⟩ := Option.bind_eq_some_iff.1 hc
    obtain ⟨rfl, rfl⟩ := lexStep_barrier hheads (by decide) hu
    exact hut
  · simpa [hquot] using hc

/-- A tag whose name begins with one of the heads, with plain letters behind it. -/
theorem sound_tag (hheads : ∀ c, heads c = true → isLetter c = true) {slash : List Char} {c : Char}
    {rest : List Char} (hslash : slash = [] ∨ slash = ['/']) (hc : heads c = true)
    (hrest : Sound heads rest) : Sound heads ('<' :: slash ++ c :: rest) := by
  have hne : c ≠ '/' := isLetter_ne (hheads c hc)
  unfold Sound at hrest ⊢
  rcases hslash with rfl | rfl
  · simpa [lexStep, hc, hne] using hrest
  · simpa [lexStep, hc] using hrest

theorem sound_wrap (hheads : ∀ c, heads c = true → isLetter c = true) {c : Char}
    {name text : List Char} (hc : heads c = true) (hname : ∀ a ∈ name, isPlain a = true)
    (htext : Sound heads text) : Sound heads (wrap (c :: name) text) := by
  have hopen : Sound heads ('<' :: [] ++ c :: (name ++ ['>'])) :=
    sound_tag hheads (.inl rfl) hc ((sound_plain hname).append rfl)
  have hclose : Sound heads ('<' :: ['/'] ++ c :: (name ++ ['>'])) :=
    sound_tag hheads (.inr rfl) hc ((sound_plain hname).append rfl)
  simpa [wrap, closeTag] using (hopen.append htext).append hclose

theorem isFence_marks (index : Nat) : isFence (codeMark index) = true ∧ isFence (blockMark index) = true := by
  have hdigits : ∀ c ∈ (toString index).toList, isPlain c = true := by
    intro c hc
    rw [Nat.toString_eq_repr, Nat.toList_repr] at hc
    exact isPlain_of_class (p := Char.isDigit) (by decide) (by decide)
      (Nat.isDigit_of_mem_toDigits (by decide) (by decide) hc)
  have hnul : isBarrier '\x00' = true := by decide
  constructor
  · simpa [isFence, codeMark, hnul, isPlain_of_isBarrier hnul] using hdigits
  · simpa [isFence, blockMark, hnul, isPlain_of_isBarrier hnul, show isPlain 'B' = true by decide]
      using hdigits

end Pieces

section Ended

/-- Behind every `<` of the text there is a `>`. -/
def Ended : List Char → Prop
  | [] => True
  | c :: rest => (c = '<' → '>' ∈ rest) ∧ Ended rest

/-- The text behind some other text may be replaced by one that is ended, if it keeps a `>`. -/
theorem Ended.append_of {front back after : List Char} (h : Ended (front ++ back))
    (hback : Ended after) (hkeep : '>' ∈ back → '>' ∈ after) : Ended (front ++ after) := by
  induction front with
  | nil => exact hback
  | cons c rest ih =>
      refine ⟨fun hc => ?_, ih h.2⟩
      rcases List.mem_append.1 (h.1 hc) with hmem | hmem
      · exact List.mem_append_left _ hmem
      · exact List.mem_append_right _ (hkeep hmem)

theorem Ended.append {front back : List Char} (h : Ended front) (hback : Ended back) :
    Ended (front ++ back) := by
  have hfront : Ended (front ++ []) := by simpa using h
  exact hfront.append_of hback (by simp)

theorem Ended.of_append {front back : List Char} (h : Ended (front ++ back)) : Ended back := by
  induction front with
  | nil => exact h
  | cons c rest ih => exact ih h.2

theorem ended_of_getLast? {text : List Char} (h : text.getLast? = some '>') : Ended text := by
  obtain ⟨front, rfl⟩ := List.getLast?_eq_some_iff.1 h
  induction front with
  | nil => exact ⟨by decide, trivial⟩
  | cons c rest ih => exact ⟨fun _ => by simp, ih (by simp)⟩

theorem ended_append {front back : List Char} (h : back.getLast? = some '>') :
    Ended (front ++ back) := by
  refine ended_of_getLast? ?_
  rw [List.getLast?_append, h, Option.some_or]

theorem ended_of_not_mem {text : List Char} (h : '<' ∉ text) : Ended text := by
  induction text with
  | nil => trivial
  | cons c rest ih =>
      refine ⟨?_, ih fun hmem => h (List.mem_cons_of_mem _ hmem)⟩
      rintro rfl
      exact absurd (List.mem_cons_self ..) h

theorem Ended.mem {front back : List Char} (h : Ended (front ++ '<' :: back)) : '>' ∈ back :=
  h.of_append.1 rfl

/-- Pieces may be replaced by ended ones that keep a `>`. -/
theorem ended_flatMap {P : Type} {pieces : List P} {before after : P → List Char}
    (hkeep : ∀ p ∈ pieces, '>' ∈ before p → '>' ∈ after p)
    (hpieces : ∀ p ∈ pieces, before p = after p ∨ Ended (after p))
    (h : Ended (pieces.flatMap before)) : Ended (pieces.flatMap after) := by
  induction pieces with
  | nil => exact h
  | cons p rest ih =>
      rw [List.flatMap_cons] at h ⊢
      have hrest := ih (fun q hq => hkeep q (by simp [hq])) (fun q hq => hpieces q (by simp [hq]))
        h.of_append
      rcases hpieces p (by simp) with heq | hended
      · rw [heq] at h
        apply h.append_of hrest
        intro hmem
        obtain ⟨q, hq, hgt⟩ := List.mem_flatMap.1 hmem
        exact List.mem_flatMap.2 ⟨q, hq, hkeep q (by simp [hq]) hgt⟩
      · exact hended.append hrest

end Ended

section Passes

/-- The markers of the emphasis. -/
def markers : List (List Char) := [['*', '*'], ['_', '_'], ['~', '~'], ['*'], ['_']]

/-- Every match of the pattern is text between two markers. -/
def Emphasis (r : Pattern) (body : Match → List Char) : Prop :=
  ∀ m, Accepts r m → ∃ marker ∈ markers, Between marker (body m) m

theorem emphasis_bold : Emphasis boldPattern either := by
  intro m hm
  obtain ⟨marker, rfl | rfl, h⟩ := bold_shape hm
  · exact ⟨_, by decide, h⟩
  · exact ⟨_, by decide, h⟩

theorem emphasis_strike : Emphasis strikePattern (group · 1) := fun _ hm =>
  ⟨['~', '~'], by decide, strike_shape hm⟩

theorem emphasis_italic (py : Classes) : Emphasis (italicPattern py) either := by
  intro m hm
  obtain ⟨marker, rfl | rfl, h⟩ := italic_shape hm
  · exact ⟨_, by decide, h⟩
  · exact ⟨_, by decide, h⟩

theorem isFence_markers : ∀ marker ∈ markers, isFence marker = true := by decide

variable {heads : Char → Bool} (hheads : ∀ c, heads c = true → isLetter c = true)
include hheads

theorem sound_emphasis {r : Pattern} {body : Match → List Char} (hr : Emphasis r body) {name : Char}
    (hname : heads name = true) {text : List Char} (h : Sound heads text) :
    Sound heads (sub r (fun m => wrap [name] (body m)) text) := by
  unfold Sound sub at *
  rw [← flatMap_text_segments (r := r) text] at h
  refine run_flatMap (fun segment hmem s t hrun => ?_) h
  cases segment with
  | plain c => exact hrun
  | found m =>
      obtain ⟨marker, hmarker, -, htext⟩ := hr m (accepts_of_mem_segments hmem)
      change run (lexStep heads) s m.text = some t at hrun
      rw [htext] at hrun
      obtain ⟨rfl, rfl, hbody⟩ := run_wrapped hheads (isFence_markers marker hmarker) hrun
      exact sound_wrap hheads hname (by simp) hbody

omit hheads in
/-- A rendered link is text between two tags, of which the first has an attribute. -/
theorem renderLink_eq (m : Match) : renderLink m = ['<'] ++ ['a'] ++ (" href=\"".toList ++
    replaceChar '"' "&quot;".toList (group m 2) ++ ['"']) ++ ['>'] ++ group m 1 ++ closeTag ['a'] := by
  have hopening : "<a href=\"".toList = '<' :: 'a' :: " href=\"".toList := by decide
  have hmid : "\">".toList = ['"', '>'] := by decide
  have hclosing : "</a>".toList = ['<', '/', 'a', '>'] := by decide
  unfold renderLink closeTag
  simp only [hopening, hmid, hclosing, List.append_assoc, List.cons_append, List.nil_append]

theorem sound_linked (ha : heads 'a' = true) (text : List Char) : Sound heads (linked text) := by
  unfold linked sub
  have h : Sound heads (escapeHtml (stash codeMark 0 (segments inlineCodePattern text))) :=
    sound_escapeHtml _
  generalize escapeHtml (stash codeMark 0 (segments inlineCodePattern text)) = escaped at h
  unfold Sound at *
  rw [← flatMap_text_segments (r := linkPattern) escaped] at h
  refine run_flatMap (fun segment hmem s t hrun => ?_) h
  cases segment with
  | plain c => exact hrun
  | found m =>
      change run (lexStep heads) s m.text = some t at hrun
      rw [link_shape (accepts_of_mem_segments hmem)] at hrun
      obtain ⟨u₁, h₁, hclose⟩ := run_append_eq_some.1 hrun
      obtain ⟨u₂, h₂, hurl⟩ := run_append_eq_some.1 h₁
      obtain ⟨u₃, h₃, hmid⟩ := run_append_eq_some.1 h₂
      obtain ⟨u₄, hopen, hlabel⟩ := run_append_eq_some.1 h₃
      obtain ⟨rfl, rfl⟩ := run_fence hheads (show isFence ['['] = true by decide) hopen
      obtain ⟨rfl, rfl⟩ := run_fence hheads (show isFence [']', '('] = true by decide) hmid
      obtain ⟨rfl, rfl⟩ := run_fence hheads (show isFence [')'] = true by decide) hclose
      have hquoted := sound_quot hheads hurl
      have hplain : ∀ w : List Char, w.all isPlain = true → Sound heads w := fun w hw =>
        sound_plain (List.all_eq_true.1 hw)
      have hhead := sound_tag hheads (.inl rfl) ha (((hplain " href=\"".toList (by decide)).append
        hquoted).append ((hplain "\">".toList (by decide)).append hlabel))
      have htail := sound_tag hheads (.inr rfl) ha (hplain ['>'] (by decide))
      have htext : renderLink m = '<' :: [] ++ 'a' :: (" href=\"".toList ++
          replaceChar '"' "&quot;".toList (group m 2) ++ ("\">".toList ++ group m 1)) ++
          ('<' :: ['/'] ++ 'a' :: ['>']) := by
        have hmid : "\">".toList = ['"', '>'] := by decide
        rw [renderLink_eq, closeTag, hmid]
        simp only [List.append_assoc, List.cons_append, List.nil_append]
      change Sound heads (renderLink m)
      rw [htext]
      exact hhead.append htail

end Passes

section Output

/-- What `markdown_to_telegram_html` keeps to. -/
structure Lexed (text : List Char) : Prop where
  sound : Sound isLetter text
  ended : Ended text

theorem Lexed.append {front back : List Char} (h : Lexed front) (hback : Lexed back) :
    Lexed (front ++ back) := ⟨h.sound.append hback.sound, h.ended.append hback.ended⟩

theorem lexed_plain {text : List Char} (h : ∀ c ∈ text, isPlain c = true) : Lexed text := by
  refine ⟨sound_plain h, ended_of_not_mem fun hmem => ?_⟩
  exact absurd (h '<' hmem) (by decide)

theorem lexed_word {text : List Char} (h : text.all isPlain = true) : Lexed text :=
  lexed_plain (List.all_eq_true.1 h)

theorem not_mem_escapeHtml (text : List Char) : '<' ∉ escapeHtml text ∧ '>' ∉ escapeHtml text := by
  have hchar : ∀ c, '<' ∉ escapeChar c ∧ '>' ∉ escapeChar c := by
    intro c
    rcases escapeChar_cases c with ⟨-, heq⟩ | ⟨-, heq⟩ | ⟨-, heq⟩ | ⟨-, hlt, hgt, heq⟩
    · rw [heq]
      decide
    · rw [heq]
      decide
    · rw [heq]
      decide
    · rw [heq]
      simp [Ne.symm hlt, Ne.symm hgt]
  rw [escapeHtml_eq]
  simp only [List.mem_flatMap, not_exists, not_and]
  exact ⟨fun c _ => (hchar c).1, fun c _ => (hchar c).2⟩

theorem lexed_escapeHtml (text : List Char) : Lexed (escapeHtml text) :=
  ⟨sound_escapeHtml text, ended_of_not_mem (not_mem_escapeHtml text).1⟩

theorem getLast?_wrap (name text : List Char) : (wrap name text).getLast? = some '>' := by
  rw [wrap, closeTag, List.getLast?_append, List.getLast?_append]
  rfl

theorem lexed_wrap {c : Char} {name text : List Char} (hc : isLetter c = true)
    (hname : name.all isPlain = true) (h : Sound isLetter text) :
    Lexed (wrap (c :: name) text) := by
  exact ⟨sound_wrap (fun _ => id) hc (List.all_eq_true.1 hname) h,
    ended_of_getLast? (getLast?_wrap (c :: name) text)⟩

/-- A pass keeps the text ended where what it writes ends with a tag. -/
theorem ended_sub {r : Pattern} {f : Match → List Char}
    (hf : ∀ m, (f m).getLast? = some '>') {text : List Char} (h : Ended text) :
    Ended (sub r f text) := by
  rw [← flatMap_text_segments (r := r) text] at h
  refine ended_flatMap (fun segment hmem hgt => ?_) (fun segment hmem => ?_) h
  · cases segment with
    | plain c => exact hgt
    | found m =>
        exact List.mem_of_mem_getLast? (hf m)
  · cases segment with
    | plain c => exact .inl rfl
    | found m =>
        exact .inr (ended_of_getLast? (hf m))

theorem lexed_linked (text : List Char) : Lexed (linked text) := by
  refine ⟨sound_linked (fun _ => id) rfl text, ended_sub (fun m => ?_) (lexed_escapeHtml _).ended⟩
  unfold renderLink
  rw [List.getLast?_append]
  rfl

theorem lexed_emphasis {r : Pattern} {body : Match → List Char} (hr : Emphasis r body) {name : Char}
    (hname : isLetter name = true) {text : List Char} (h : Lexed text) :
    Lexed (sub r (fun m => wrap [name] (body m)) text) := by
  exact ⟨sound_emphasis (fun _ => id) hr hname h.sound,
    ended_sub (fun m => getLast?_wrap [name] (body m)) h.ended⟩

theorem lexed_replaceFirst {mark piece text : List Char} (hmark : isFence mark = true)
    (hgt : '>' ∉ mark) (hpiece : Lexed piece) (h : Lexed text) :
    Lexed (replaceFirst mark piece text) := by
  rcases replaceFirst_eq mark piece text with hsame | ⟨front, back, rfl, hreplaced⟩
  · rw [hsame]
    exact h
  · rw [hreplaced]
    obtain ⟨s, hmarked, hback⟩ := run_append_eq_some.1 h.sound
    obtain ⟨t, hfront, hmarked⟩ := run_append_eq_some.1 hmarked
    obtain ⟨rfl, rfl⟩ := run_fence (fun _ => id) hmark hmarked
    constructor
    · exact (Sound.append hfront hpiece.sound).append hback
    · have hended := h.ended
      rw [List.append_assoc] at hended ⊢
      apply hended.append_of (hpiece.ended.append hended.of_append.of_append)
      intro hmem
      exact List.mem_append_right _ ((List.mem_append.1 hmem).resolve_left hgt)

theorem not_mem_marks (index : Nat) : '>' ∉ codeMark index ∧ '>' ∉ blockMark index := by
  have hdigits : '>' ∉ Nat.toDigits 10 index := by
    intro hmem
    cases Nat.isDigit_of_mem_toDigits (by decide) (by decide) hmem
  simp [codeMark, blockMark, hdigits]

section Lines

variable (py : Classes)

theorem lexed_inline (text : List Char) : Lexed (inline py text) := by
  refine restore_induction ?_ fun n piece hpiece text htext => ?_
  · exact lexed_emphasis (emphasis_italic py) (by decide)
      (lexed_emphasis emphasis_strike (by decide)
        (lexed_emphasis emphasis_bold (by decide) (lexed_linked text)))
  · obtain ⟨m, -, rfl⟩ := mem_stashed hpiece
    have hcode : Lexed (wrap ('c' :: "ode".toList) (escapeHtml (group m 1))) :=
      lexed_wrap (by decide) (by decide) (sound_escapeHtml _)
    exact lexed_replaceFirst (isFence_marks n).1 (not_mem_marks n).1 hcode htext

theorem lexed_join {lines : List (List Char)} (h : ∀ line ∈ lines, Lexed line) :
    Lexed (['\n'].intercalate lines) := by
  induction lines with
  | nil => exact lexed_plain (by simp)
  | cons line rest ih =>
      cases rest with
      | nil => simpa using h line (by simp)
      | cons next rest =>
          rw [List.intercalate_cons_cons]
          refine ((h line (by simp)).append (lexed_word (by decide))).append ?_
          exact ih fun other hother => h other (by simp [hother])

theorem lexed_renderLine (line : List Char) : Lexed (renderLine py line) := by
  have hspaces : ∀ {text : List Char}, (∀ c ∈ text, Text.isSpace c = true) → Lexed text :=
    fun h => lexed_plain fun c hc => isPlain_of_class (by decide) (by decide) (h c hc)
  have hdigits : ∀ {text : List Char}, (∀ c ∈ text, py.isDigit c = true) → Lexed text :=
    fun h => lexed_plain fun c hc => isPlain_of_class (py.isDigit_eq_false (by decide) (by decide))
      (py.isDigit_eq_false (by decide) (by decide)) (h c hc)
  unfold renderLine
  split
  case isTrue => exact lexed_word (by decide)
  case isFalse =>
    split
    case h_1 m hm =>
      dsimp only
      split
      case isTrue => exact lexed_wrap (by decide) (by simp) (lexed_inline py _).sound
      case isFalse => exact lexed_plain (by simp)
    case h_2 =>
      split
      case h_1 m hm =>
        have hindent := hspaces (ulist_shape (accepts_of_matchAt hm))
        exact (hindent.append (lexed_word (by decide))).append (lexed_inline py _)
      case h_2 =>
        split
        case h_1 m hm =>
          obtain ⟨hindent, hnumber⟩ := olist_shape (accepts_of_matchAt hm)
          exact (((hspaces hindent).append (hdigits hnumber)).append
            (lexed_word (by decide))).append (lexed_inline py _)
        case h_2 => exact lexed_inline py line

/-- The lines that the loop has rendered, and those of the quote in hand. -/
def LinesLexed (s : Lines) : Prop := (∀ line ∈ s.rendered, Lexed line) ∧ ∀ line ∈ s.quote, Lexed line

theorem linesLexed_flushQuote {s : Lines} (h : LinesLexed s) : LinesLexed s.flushQuote := by
  unfold Lines.flushQuote
  split
  case isTrue =>
    refine ⟨fun line hline => ?_, by simp⟩
    rcases List.mem_append.1 hline with hold | hnew
    · exact h.1 line hold
    · rw [List.mem_singleton.1 hnew]
      have hquote : Lexed (wrap ('b' :: "lockquote".toList) (['\n'].intercalate s.quote)) :=
        lexed_wrap (by decide) (by decide) (lexed_join h.2).sound
      exact hquote
  case isFalse => exact h

theorem linesLexed_add {s : Lines} (h : LinesLexed s) (line : List Char) : LinesLexed (s.add py line) := by
  unfold Lines.add
  split
  case h_1 m _ =>
    refine ⟨h.1, fun other hother => ?_⟩
    rcases List.mem_append.1 hother with hold | hnew
    · exact h.2 other hold
    · exact List.mem_singleton.1 hnew ▸ lexed_inline py _
  case h_2 =>
    refine ⟨fun other hother => ?_, by simp⟩
    rcases List.mem_append.1 hother with hold | hnew
    · exact (linesLexed_flushQuote h).1 other hold
    · exact List.mem_singleton.1 hnew ▸ lexed_renderLine py line

theorem lexed_renderLines (text : List Char) : Lexed (renderLines py text) := by
  have hfold : ∀ (lines : List (List Char)) (s : Lines), LinesLexed s →
      LinesLexed (lines.foldl (Lines.add py) s) := by
    intro lines
    induction lines with
    | nil => exact fun s h => h
    | cons line rest ih => exact fun s h => ih _ (linesLexed_add py h line)
  exact lexed_join (linesLexed_flushQuote (hfold _ _ ⟨by simp, by simp⟩)).1

theorem lexed_renderCodeBlock (m : Match) : Lexed (renderCodeBlock m) := by
  have hcode : Sound isLetter (escapeHtml ((group m 2).rdropWhile (· = '\n'))) := sound_escapeHtml _
  have hlanguage : Sound isLetter (escapeHtml (Text.stripChars (group m 1))) := sound_escapeHtml _
  unfold renderCodeBlock
  dsimp only
  split
  case isTrue =>
    have hopen : Sound isLetter "<pre><code class=\"language-".toList := by
      unfold Sound
      decide
    have hmid : Sound isLetter "\">".toList := by
      unfold Sound
      decide
    have hclose : Sound isLetter "</code></pre>".toList := by
      unfold Sound
      decide
    exact ⟨(((hopen.append hlanguage).append hmid).append hcode).append hclose,
      ended_append (by decide)⟩
  case isFalse =>
    have hopen : Sound isLetter "<pre>".toList := by
      unfold Sound
      decide
    have hclose : Sound isLetter "</pre>".toList := by
      unfold Sound
      decide
    exact ⟨(hopen.append hcode).append hclose, ended_append (by decide)⟩

/-- Every `&` of a rendered message begins an entity, every `<` a tag that ends. -/
theorem lexed_markdownToTelegramHtml (text : List Char) : Lexed (markdownToTelegramHtml py text) := by
  refine restore_induction (lexed_renderLines py _) fun n piece hpiece text htext => ?_
  obtain ⟨m, -, rfl⟩ := mem_stashed hpiece
  exact lexed_replaceFirst (isFence_marks n).2 (not_mem_marks n).2 (lexed_renderCodeBlock m) htext

end Lines

end Output

end GraphAgent.Telegram
