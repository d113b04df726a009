import GraphAgent.Telegram.Lexing
import GraphAgent.Telegram.Nesting
import Mathlib.Data.List.Infix

/-!
# The plain text of the chunks

What `html_to_plain` makes of the chunks of a rendered message, against what it makes of the
message: nothing visible is lost or repeated, as long as no cut falls into an entity.
-/

namespace GraphAgent.Telegram

open Regex Automaton

section Unescape

/-- The text with each entity in place of its character; a character that begins no entity
stays. -/
def unescape : List Char → List Char
  | '&' :: 'a' :: 'm' :: 'p' :: ';' :: rest => '&' :: unescape rest
  | '&' :: 'l' :: 't' :: ';' :: rest => '<' :: unescape rest
  | '&' :: 'g' :: 't' :: ';' :: rest => '>' :: unescape rest
  | '&' :: 'q' :: 'u' :: 'o' :: 't' :: ';' :: rest => '"' :: unescape rest
  | c :: rest => c :: unescape rest
  | [] => []

/-- `html_to_plain` -/
def htmlToPlain (text : List Char) : List Char := unescape (sub tagPattern (fun _ => []) text)

/-- Text without tags in which every `&` begins an entity. -/
inductive Escaped : List Char → Prop
  | nil : Escaped []
  | plain {c : Char} {rest : List Char} (isPlain : isPlain c = true) (escaped : Escaped rest) :
      Escaped (c :: rest)
  | entity {e rest : List Char} (mem : e ∈ entities) (escaped : Escaped rest) : Escaped (e ++ rest)

theorem Escaped.append {front back : List Char} (h : Escaped front) (hback : Escaped back) :
    Escaped (front ++ back) := by
  induction h with
  | nil => exact hback
  | plain hc _ ih => exact .plain hc ih
  | entity he _ ih =>
      rw [List.append_assoc]
      exact .entity he ih

theorem unescape_plain {c : Char} (h : isPlain c = true) (rest : List Char) :
    unescape (c :: rest) = c :: unescape rest := by
  have hamp : c ≠ '&' := by
    rintro rfl
    cases h
  rw [unescape]
  all_goals simp [hamp]

theorem unescape_entity {e : List Char} (h : e ∈ entities) (rest : List Char) :
    unescape (e ++ rest) = unescape e ++ unescape rest := by
  simp only [entities, List.mem_cons, List.not_mem_nil, or_false] at h
  rcases h with rfl | rfl | rfl | rfl <;> rfl

theorem unescape_append {front : List Char} (h : Escaped front) (back : List Char) :
    unescape (front ++ back) = unescape front ++ unescape back := by
  induction h with
  | nil => rfl
  | plain hc _ ih => rw [List.cons_append, unescape_plain hc, unescape_plain hc, ih, List.cons_append]
  | entity he _ ih => rw [List.append_assoc, unescape_entity he, unescape_entity he, ih, List.append_assoc]

theorem unescape_of_plain {text : List Char} (h : ∀ c ∈ text, isPlain c = true) :
    unescape text = text := by
  induction text with
  | nil => rfl
  | cons c rest ih => rw [unescape_plain (h c (by simp)), ih fun d hd => h d (by simp [hd])]

theorem escaped_of_plain {text : List Char} (h : ∀ c ∈ text, isPlain c = true) : Escaped text := by
  induction text with
  | nil => exact .nil
  | cons c rest ih => exact .plain (h c (by simp)) (ih fun d hd => h d (by simp [hd]))

theorem Escaped.not_mem {text : List Char} (h : Escaped text) : '<' ∉ text := by
  induction h with
  | nil => simp
  | plain hc _ ih =>
      rintro (_ | ⟨_, hmem⟩)
      · cases hc
      · exact ih hmem
  | entity he _ ih =>
      have hnone : ∀ e ∈ entities, '<' ∉ e := by decide
      exact fun hmem => (List.mem_append.1 hmem).elim (hnone _ he) ih

/-- What a reader in an entity passes ends that entity first. -/
theorem exists_of_run_entity {seen text : List Char}
    (h : run (lexStep isLetter) (.entity seen) text = some .free) :
    ∃ w rest, seen ++ w ∈ entities ∧ text = w ++ rest ∧ Sound isLetter rest := by
  induction text generalizing seen with
  | nil => cases h
  | cons c text ih =>
      rw [run_cons, lexStep] at h
      split at h
      case isTrue hmem => exact ⟨[c], text, hmem, rfl, h⟩
      case isFalse =>
        split at h
        case isTrue =>
          obtain ⟨w, rest, hmem, rfl, hrest⟩ := ih h
          exact ⟨c :: w, rest, by simpa using hmem, rfl, hrest⟩
        case isFalse => cases h

theorem escaped_of_sound {text : List Char} (h : Sound isLetter text) (hlt : '<' ∉ text) :
    Escaped text := by
  induction hn : text.length using Nat.strongRecOn generalizing text with
  | ind n ih =>
      subst hn
      cases text with
      | nil => exact .nil
      | cons c rest =>
          have hc : c ≠ '<' := fun heq => hlt (heq ▸ List.mem_cons_self ..)
          by_cases hamp : c = '&'
          · subst hamp
            obtain ⟨w, rest, hmem, rfl, hsound⟩ := exists_of_run_entity h
            refine .entity hmem (ih rest.length ?_ hsound ?_ rfl)
            · simp only [List.length_cons, List.length_append]
              omega
            · exact fun hmem => hlt (List.mem_cons_of_mem _ (List.mem_append_right _ hmem))
          · have hstep : lexStep isLetter .free c = some .free := by simp [lexStep, hamp, hc]
            refine .plain (by simp [isPlain, hamp, hc]) (ih rest.length (by simp) ?_ ?_ rfl)
            · rw [Sound, run_cons, hstep] at h
              exact h
            · exact fun hmem => hlt (List.mem_cons_of_mem _ hmem)

end Unescape

section Cuts

/-- The text is cut in two inside of an entity. -/
def CutsEntity (text : List Char) (n : Nat) : Prop :=
  ∃ before e behind, e ∈ entities ∧ text = before ++ e ++ behind ∧
    before.length < n ∧ n < before.length + e.length

/-- A cut leaves two escaped texts, or it falls into an entity. -/
theorem Escaped.split {front back : List Char} (h : Escaped (front ++ back)) :
    Escaped front ∧ Escaped back ∨ ∃ x e₁ e₂ y, front = x ++ e₁ ∧ back = e₂ ++ y ∧
      e₁ ++ e₂ ∈ entities ∧ e₁ ≠ [] ∧ e₂ ≠ [] ∧ Escaped x ∧ Escaped y := by
  generalize hw : front ++ back = text at h
  induction h generalizing front with
  | nil =>
      obtain ⟨rfl, rfl⟩ := List.append_eq_nil_iff.1 hw
      exact .inl ⟨.nil, .nil⟩
  | @plain c rest hc hrest ih =>
      cases front with
      | nil => exact .inl ⟨.nil, (show back = c :: rest from hw) ▸ .plain hc hrest⟩
      | cons d front =>
          obtain ⟨rfl, htail⟩ := List.cons.inj hw
          rcases ih htail with ⟨hfront, hback⟩ | ⟨x, e₁, e₂, y, rfl, hback, he, h₁, h₂, hx, hy⟩
          · exact .inl ⟨.plain hc hfront, hback⟩
          · exact .inr ⟨d :: x, e₁, e₂, y, rfl, hback, he, h₁, h₂, .plain hc hx, hy⟩
  | @entity e rest he hrest ih =>
      rcases List.append_eq_append_iff.1 hw with ⟨e₂, rfl, rfl⟩ | ⟨front, rfl, htail⟩
      · by_cases h₁ : front = []
        · exact .inl ⟨h₁ ▸ .nil, by simpa [h₁] using Escaped.entity he hrest⟩
        · by_cases h₂ : e₂ = []
          · have hfront : Escaped (front ++ []) := by simpa [h₂] using Escaped.entity he .nil
            exact .inl ⟨by simpa using hfront, by simpa [h₂] using hrest⟩
          · exact .inr ⟨[], front, e₂, rest, rfl, rfl, he, h₁, h₂, .nil, hrest⟩
      · rcases ih htail.symm with ⟨hfront, hback⟩ | ⟨x, e₁, e₂, y, rfl, hback, he', h₁, h₂, hx, hy⟩
        · exact .inl ⟨.entity he hfront, hback⟩
        · refine .inr ⟨e ++ x, e₁, e₂, y, by simp, hback, he', h₁, h₂, .entity he hx, hy⟩

theorem Escaped.halves {text : List Char} (h : Escaped text) (n : Nat) :
    Escaped (text.take n ++ text.drop n) := by
  rwa [List.take_append_drop]

theorem entities_prefix : ∀ e ∈ entities, ∀ e' ∈ entities, e <+: e' → e = e' := by decide

/-- No escaped text ends with the beginning of an entity. -/
theorem not_escaped_partial {before part e : List Char} (he : e ∈ entities) (hpart : part <+: e)
    (hne : part ≠ []) (hlt : part.length < e.length) : ¬ Escaped (before ++ part) := by
  have hamp : ∀ e ∈ entities, e.head? = some '&' ∧ '&' ∉ e.tail := by decide
  obtain ⟨rest, hrest⟩ := hpart
  obtain ⟨c, part, rfl⟩ := List.exists_cons_of_ne_nil hne
  have hhead := (hamp e he).1
  rw [← hrest] at hhead
  obtain rfl : c = '&' := by simpa using hhead
  intro h
  rcases h.split with ⟨-, h⟩ | ⟨x, e₁, e₂, y, -, hback, hmem, h₁, h₂, -, -⟩
  · generalize hw : '&' :: part = text at h
    cases h with
    | nil => cases hw
    | plain hc _ =>
        obtain ⟨rfl, -⟩ := List.cons.inj hw
        cases hc
    | @entity e' tail he' _ =>
        have hsame := entities_prefix e' he' e he ⟨tail ++ rest, by rw [← List.append_assoc, ← hw, hrest]⟩
        have hlength := congrArg List.length hw
        rw [List.length_append] at hlength
        rw [← hsame] at hlt
        omega
  · obtain ⟨d, e₂, rfl⟩ := List.exists_cons_of_ne_nil h₂
    obtain ⟨a, e₁, rfl⟩ := List.exists_cons_of_ne_nil h₁
    obtain ⟨rfl, -⟩ := List.cons.inj hback
    exact (hamp _ hmem).2 (by simp)

theorem not_cutsEntity_iff {text : List Char} (h : Escaped text) {n : Nat} (hn : n ≤ text.length) :
    ¬ CutsEntity text n ↔ Escaped (text.take n) ∧ Escaped (text.drop n) := by
  constructor
  · intro hnot
    apply (h.halves n).split.resolve_right
    rintro ⟨x, e₁, e₂, y, hfront, hback, he, h₁, h₂, -, -⟩
    refine hnot ⟨x, e₁ ++ e₂, y, he, ?_, ?_, ?_⟩
    · rw [← List.take_append_drop n text, hfront, hback]
      simp
    · have hlength := congrArg List.length hfront
      have hpos := List.length_pos_of_ne_nil h₁
      rw [List.length_take, List.length_append] at hlength
      omega
    · have hlength := congrArg List.length hfront
      have hpos := List.length_pos_of_ne_nil h₂
      rw [List.length_take, List.length_append] at hlength
      rw [List.length_append]
      omega
  · rintro ⟨hfront, -⟩ ⟨before, e, behind, he, rfl, hlow, hhigh⟩
    have htake : (before ++ e ++ behind).take n = before ++ e.take (n - before.length) := by
      rw [List.append_assoc, List.take_append, List.take_of_length_le hlow.le,
        List.take_append_of_le_length (by omega)]
    rw [htake] at hfront
    refine not_escaped_partial he (List.take_prefix _ _) ?_ ?_ hfront
    · intro hnil
      have hlength := congrArg List.length hnil
      rw [List.length_take, List.length_nil] at hlength
      omega
    · rw [List.length_take]
      omega

end Cuts

section Pieces

/-- A tag, or text in which every `&` begins an entity. -/
def Piece (piece : List Char) : Prop := IsTag piece ∨ piece ≠ [] ∧ Escaped piece

/-- The text of some pieces without their tags. -/
def bare (pieces : List (List Char)) : List Char :=
  pieces.flatMap fun piece => if isTag piece then [] else piece

theorem clear_of_not_mem {text : List Char} (h : '<' ∉ text) (behind : List Char) :
    Clear text behind := by
  rintro part hne ⟨front, rfl⟩ tag htag hprefix
  obtain ⟨c, part, rfl⟩ := List.exists_cons_of_ne_nil hne
  obtain ⟨slash, d, body, -, -, -, rfl⟩ := htag
  obtain ⟨rfl, -⟩ := List.cons_prefix_cons.1 hprefix
  exact h (by simp)

/-- Pieces whose texts have no `<` are taken as they are, whatever texts are neighbours. -/
theorem tidy_of_not_mem {pieces : List (List Char)}
    (h : ∀ piece ∈ pieces, IsTag piece ∨ piece ≠ [] ∧ '<' ∉ piece) : Tidy pieces := by
  induction pieces with
  | nil => exact .nil
  | cons piece rest ih =>
      have htidy := ih fun p hp => h p (by simp [hp])
      rcases h piece (by simp) with htag | ⟨hne, hlt⟩
      · exact .tag htag htidy
      · exact .text hne (clear_of_not_mem hlt _) htidy

theorem Tidy.sub_tag {pieces : List (List Char)} (h : Tidy pieces) :
    sub tagPattern (fun _ => []) pieces.flatten = bare pieces := by
  have hpiece : ∀ piece, (pieceSegments piece).flatMap (Segment.render fun _ => []) =
      if isTag piece then [] else piece := by
    intro piece
    unfold pieceSegments
    split
    case isTrue => rfl
    case isFalse =>
      rw [List.flatMap_map]
      simp [Segment.render]
  rw [sub, h.segments, List.flatMap_assoc, bare]
  exact List.flatMap_congr fun piece _ => hpiece piece

theorem bare_append (front back : List (List Char)) : bare (front ++ back) = bare front ++ bare back :=
  List.flatMap_append

theorem bare_text {text : List Char} (h : ¬ IsTag text) : bare [text] = text := by
  have hfalse : isTag text = false := by simpa using mt isTag_iff.1 h
  simp [bare, hfalse]

theorem bare_tags {tags : List (List Char)} (h : ∀ tag ∈ tags, IsTag tag) : bare tags = [] := by
  rw [bare, List.flatMap_eq_nil_iff]
  exact fun tag htag => if_pos (isTag_iff.2 (h tag htag))

theorem bare_tag {tag : List Char} (h : IsTag tag) : bare [tag] = [] := by
  simp [bare, isTag_iff.2 h]

theorem Piece.not_mem {piece : List Char} (h : Piece piece) :
    IsTag piece ∨ piece ≠ [] ∧ '<' ∉ piece := h.imp_right fun hpiece => ⟨hpiece.1, hpiece.2.not_mem⟩

theorem escaped_bare {pieces : List (List Char)} (h : ∀ piece ∈ pieces, Piece piece) :
    Escaped (bare pieces) := by
  induction pieces with
  | nil => exact .nil
  | cons piece rest ih =>
      have hrest := ih fun p hp => h p (by simp [hp])
      rw [← List.singleton_append, bare_append]
      refine Escaped.append ?_ hrest
      rcases h piece (by simp) with htag | ⟨-, hescaped⟩
      · rw [bare_tag htag]
        exact .nil
      · by_cases htag : IsTag piece
        · rw [bare_tag htag]
          exact .nil
        · rw [bare_text htag]
          exact hescaped

/-- The plain text of pieces with the tags that close them. -/
theorem htmlToPlain_chunk {pieces openTags : List (List Char)}
    (h : ∀ piece ∈ pieces, IsTag piece ∨ piece ≠ [] ∧ '<' ∉ piece)
    (hopen : ∀ tag ∈ openTags, IsTag tag) :
    htmlToPlain (pieces.flatten ++ closing openTags) = unescape (bare pieces) := by
  have hclose := isTag_closeTags hopen
  have htidy : Tidy (pieces ++ closeTags openTags) := by
    apply tidy_of_not_mem
    intro piece hmem
    rcases List.mem_append.1 hmem with hpiece | htag
    · exact h piece hpiece
    · exact .inl (hclose piece htag)
  rw [htmlToPlain, closing_eq, ← List.flatten_append, htidy.sub_tag, bare_append, bare_tags hclose,
    List.append_nil]

theorem eq_free_of_lt {s t : Lex} (h : lexStep isLetter s '<' = some t) : s = .free ∧ t = .head := by
  obtain rfl := eq_free_of_lexStep (fun _ => id) (by decide) (by decide) (by decide) h
  exact ⟨rfl, (Option.some.inj h).symm⟩

/-- A tag stands between the letters. -/
theorem run_isTag {tag : List Char} (htag : IsTag tag) {s t : Lex}
    (h : run (lexStep isLetter) s tag = some t) : s = .free ∧ t = .free := by
  obtain ⟨slash, c, body, -, -, -, rfl⟩ := htag
  obtain ⟨u, hfront, hlast⟩ := run_append_eq_some.1 h
  obtain ⟨v, hlt, -⟩ := Option.bind_eq_some_iff.1 hfront
  exact ⟨(eq_free_of_lt hlt).1, (run_fence (fun _ => id) (show isFence ['>'] = true by decide) hlast).2⟩

theorem exists_of_run_head {text : List Char} (h : run (lexStep isLetter) .head text = some .free) :
    ∃ slash c rest, (slash = [] ∨ slash = ['/']) ∧ isLetter c = true ∧ text = slash ++ c :: rest := by
  have hslash : ∀ w, run (lexStep isLetter) .slash w = some .free →
      ∃ c rest, isLetter c = true ∧ w = c :: rest := by
    intro w hw
    cases w with
    | nil => cases hw
    | cons c rest =>
        refine ⟨c, rest, ?_, rfl⟩
        by_contra hc
        simp [lexStep, hc] at hw
  cases text with
  | nil => cases h
  | cons c rest =>
      by_cases hc : c = '/'
      · subst hc
        obtain ⟨d, more, hd, rfl⟩ := hslash rest h
        exact ⟨['/'], d, more, .inr rfl, hd, rfl⟩
      · refine ⟨[], c, rest, .inl rfl, ?_, rfl⟩
        by_contra hletter
        simp [lexStep, hc, hletter] at h

/-- Where a `<` stands in a rendered message, a tag begins. -/
theorem exists_tag_of_lexed {front back : List Char} {s : Lex}
    (h : run (lexStep isLetter) s (front ++ '<' :: back) = some .free)
    (hended : Ended (front ++ '<' :: back)) : ∃ tag, IsTag tag ∧ tag <+: '<' :: back := by
  obtain ⟨u, -, hrun⟩ := run_append_eq_some.1 h
  obtain ⟨v, hlt, hrun⟩ := Option.bind_eq_some_iff.1 hrun
  obtain ⟨rfl, rfl⟩ := eq_free_of_lt hlt
  obtain ⟨slash, c, rest, hslash, hc, rfl⟩ := exists_of_run_head hrun
  have hgt : '>' ∈ rest := by
    have hmem := hended.mem
    have hne : '>' ≠ c := (isLetter_ne hc).symm
    rcases hslash with rfl | rfl <;> simpa [hne] using hmem
  obtain ⟨tag, htag, hprefix⟩ := exists_tag_of_opensTag ⟨slash, c, [], hslash, hc, rfl⟩ hgt
  exact ⟨tag, htag, by simpa using hprefix⟩

theorem pieces_of_run {tokens : List (List Char)} (htidy : Tidy tokens)
    (hchain : tokens.IsChain Apart) (h : Sound isLetter tokens.flatten)
    (hended : Ended tokens.flatten) : ∀ token ∈ tokens, Piece token := by
  induction htidy with
  | nil => simp
  | tag htag _ ih =>
      obtain ⟨u, hfirst, hrest⟩ := run_append_eq_some.1 h
      obtain ⟨-, rfl⟩ := run_isTag htag hfirst
      exact List.forall_mem_cons.2
        ⟨.inl htag, ih (List.isChain_cons.1 hchain).2 hrest hended.of_append⟩
  | @text text rest hne hclear _ ih =>
      have hlt : '<' ∉ text := by
        intro hmem
        obtain ⟨front, back, rfl⟩ := List.append_of_mem hmem
        have hwhole : (front ++ '<' :: back) ++ rest.flatten =
            front ++ '<' :: (back ++ rest.flatten) := by simp
        rw [Sound, List.flatten_cons, hwhole] at h
        rw [List.flatten_cons, hwhole] at hended
        obtain ⟨tag, htag, hprefix⟩ := exists_tag_of_lexed h hended
        exact hclear ('<' :: back) (by simp) (List.suffix_append _ _) tag htag hprefix
      obtain ⟨hnext, hchain⟩ := List.isChain_cons.1 hchain
      obtain ⟨u, hfirst, hrest⟩ := run_append_eq_some.1 h
      have hu : u = .free := by
        cases rest with
        | nil => exact Option.some.inj hrest
        | cons next more =>
            obtain ⟨v, hv, -⟩ := run_append_eq_some.1 hrest
            exact (run_isTag ((hnext next rfl).resolve_left (hclear.not_isTag hne)) hv).1
      subst hu
      exact List.forall_mem_cons.2
        ⟨.inr ⟨hne, escaped_of_sound hfirst hlt⟩, ih hchain hrest hended.of_append⟩

/-- The tokens of a rendered message are tags and escaped texts. -/
theorem piece_of_mem_tokenize {text : List Char} (h : Lexed text) :
    ∀ token ∈ tokenize text, Piece token := by
  have hflat := flatten_tokenize text
  refine pieces_of_run (tidy_tokenize text) (isChain_tokenize text) ?_ ?_
  · rw [hflat]
    exact h.sound
  · rw [hflat]
    exact h.ended

end Pieces

section Chunks

/-- The parts are the whole one after the other, but for newlines between them and white space
at the end. -/
inductive Rejoined : List (List Char) → List Char → Prop
  | nil {tail : List Char} (blank : ∀ c ∈ tail, Text.isSpace c = true) : Rejoined [] tail
  | cons {part gap rest : List Char} {parts : List (List Char)} (newlines : ∀ c ∈ gap, c = '\n')
      (rejoined : Rejoined parts rest) : Rejoined (part :: parts) (part ++ gap ++ rest)

theorem ink_newlines {gap : List Char} (h : ∀ c ∈ gap, c = '\n') : Text.ink gap = 0 := by
  apply Text.ink_eq_zero_iff.2
  intro c hc
  rw [h c hc]
  decide

theorem Rejoined.ink_eq {parts : List (List Char)} {whole : List Char} (h : Rejoined parts whole) :
    Text.ink parts.flatten = Text.ink whole := by
  induction h with
  | nil blank => exact (Text.ink_eq_zero_iff.2 blank).symm
  | cons newlines _ ih => simp [Text.ink_append, ih, ink_newlines newlines]

theorem rejoined_singleton (part : List Char) : Rejoined [part] part := by
  have h : Rejoined [part] (part ++ [] ++ []) := .cons (by simp) (.nil (by simp))
  simpa using h

/-- The plain text that the chunks to come owe. -/
def Splitter.due (s : Splitter) : List Char := unescape (bare s.current ++ s.rest ++ bare s.tokens)

/-- The variables hold tags and escaped text. -/
structure Faithful (s : Splitter) : Prop where
  current : ∀ piece ∈ s.current, Piece piece
  rest : Escaped s.rest
  tokens : ∀ piece ∈ s.tokens, Piece piece
  openTags : ∀ tag ∈ s.openTags, IsTag tag

/-- A cut, if the next round makes one, falls into no entity. -/
def CutAllowed (limit : Int) (s : Splitter) : Prop :=
  s.rest ≠ [] → 0 < s.available limit → s.available limit < s.rest.length →
    ¬ CutsEntity s.rest (s.cut limit)

variable {limit : Int} {s t : Splitter}

theorem Faithful.plain_chunk (h : Faithful s) {piece : List Char} (hne : piece ≠ [])
    (hlt : '<' ∉ piece) :
    htmlToPlain ((s.current ++ [piece]).flatten ++ closing s.openTags) =
      unescape (bare s.current ++ piece) := by
  rw [htmlToPlain_chunk ?_ h.openTags, bare_append,
    bare_text ((clear_of_not_mem hlt []).not_isTag hne)]
  intro p hp
  rcases List.mem_append.1 hp with hp | hp
  · exact (h.current p hp).not_mem
  · exact .inr (List.mem_singleton.1 hp ▸ ⟨hne, hlt⟩)

theorem Faithful.plain_current (h : Faithful s) : htmlToPlain s.chunk = unescape (bare s.current) :=
  htmlToPlain_chunk (fun p hp => (h.current p hp).not_mem) h.openTags

theorem escaped_dropWhile {text : List Char} (h : Escaped text) :
    Escaped (text.dropWhile (· = '\n')) := by
  induction text with
  | nil => exact h
  | cons c rest ih =>
      by_cases hc : c = '\n'
      · subst hc
        rw [List.dropWhile_cons_of_pos (by simp)]
        refine ih ?_
        generalize hw : '\n' :: rest = text at h
        cases h with
        | nil => cases hw
        | plain _ hrest => exact (List.cons.inj hw).2 ▸ hrest
        | entity he _ =>
            have hhead : ∀ e ∈ entities, e.head? = some '&' := by decide
            have hfirst := congrArg List.head? hw
            rw [List.head?_append, hhead _ he] at hfirst
            cases hfirst
      · rwa [List.dropWhile_cons_of_neg (by simpa using hc)]

theorem escaped_of_entity_end {e₁ e₂ : List Char} (he : e₁ ++ e₂ ∈ entities) (h₁ : e₁ ≠ []) :
    ∀ c ∈ e₂, isPlain c = true ∧ c ≠ '\n' ∧ Text.isSpace c = false := by
  have htails : ∀ e ∈ entities,
      (e.tail.all fun c => isPlain c && (c ≠ '\n' && !Text.isSpace c)) = true := by decide
  have htail : ∀ e ∈ entities, ∀ c ∈ e.tail,
      isPlain c = true ∧ c ≠ '\n' ∧ Text.isSpace c = false := fun e he c hc => by
    simpa using List.all_eq_true.1 (htails e he) c hc
  obtain ⟨a, e₁, rfl⟩ := List.exists_cons_of_ne_nil h₁
  exact fun c hc => htail _ he c (List.mem_append_right e₁ hc)

theorem Escaped.of_append_right {front back : List Char} (h : Escaped (front ++ back)) :
    Escaped back := by
  rcases h.split with ⟨-, hback⟩ | ⟨x, e₁, e₂, y, -, rfl, he, h₁, -, -, hy⟩
  · exact hback
  · exact (escaped_of_plain fun c hc => (escaped_of_entity_end he h₁ c hc).1).append hy

theorem faithful_step (h : Faithful s) (hstep : s.step limit = some t) : Faithful t := by
  have hopen : ∀ tag ∈ s.openTags, Piece tag := fun tag htag => .inl (h.openTags tag htag)
  cases round_of_step hstep with
  | @tag tag tokens idle next isTag =>
      refine ⟨fun p hp => ?_, h.rest, fun p hp => h.tokens p (next ▸ List.mem_cons_of_mem tag hp),
        fun other hother => ?_⟩
      · rcases List.mem_append.1 hp with hp | hp
        · exact h.current p hp
        · exact .inl (List.mem_singleton.1 hp ▸ isTag)
      · rcases mem_afterTag hother with hold | rfl
        · exact h.openTags other hold
        · exact isTag
  | @load text tokens idle next notTag =>
      have htext := (h.tokens text (by simp [next])).resolve_left notTag
      exact ⟨h.current, htext.2, fun p hp => h.tokens p (next ▸ List.mem_cons_of_mem text hp),
        h.openTags⟩
  | flush => exact ⟨hopen, h.rest, h.tokens, h.openTags⟩
  | fits busy =>
      refine ⟨fun p hp => ?_, .nil, h.tokens, h.openTags⟩
      rcases List.mem_append.1 hp with hp | hp
      · exact h.current p hp
      · exact .inr (List.mem_singleton.1 hp ▸ ⟨busy, h.rest⟩)
  | cut =>
      have hback := (h.rest.halves (s.cut limit)).of_append_right
      exact ⟨hopen, escaped_dropWhile hback, h.tokens, h.openTags⟩

theorem Faithful.due_flush (h : Faithful s) :
    s.due = htmlToPlain s.chunk ++ [] ++ s.flush.due := by
  have hbare : bare s.flush.current = [] := bare_tags h.openTags
  rw [h.plain_current, Splitter.due, Splitter.due, hbare, List.append_assoc,
    unescape_append (escaped_bare h.current)]
  simp [Splitter.flush]

/-- What is owed where the text in hand is cut, against what is emitted and owed then. -/
theorem Faithful.due_cut (h : Faithful s) {front back : List Char} (hrest : s.rest = front ++ back)
    (hne : front ≠ []) {gap kept : List Char} (hgap : ∀ c ∈ gap, c = '\n')
    (hback : back = gap ++ kept) (hfront : Escaped front) :
    s.due = htmlToPlain ((s.current ++ [front]).flatten ++ closing s.openTags) ++ gap ++
      unescape (kept ++ bare s.tokens) := by
  have hplain : ∀ c ∈ gap, isPlain c = true := fun c hc => by
    rw [hgap c hc]
    decide
  have hcurrent := escaped_bare h.current
  have hsplit : bare s.current ++ s.rest ++ bare s.tokens =
      (bare s.current ++ front) ++ (gap ++ (kept ++ bare s.tokens)) := by
    simp [hrest, hback]
  rw [h.plain_chunk hne hfront.not_mem, Splitter.due, hsplit,
    unescape_append (hcurrent.append hfront), unescape_append (escaped_of_plain hplain),
    unescape_of_plain hplain, List.append_assoc]

/-- A round that cuts no entity emits nothing, or what it owes first, with newlines behind. -/
theorem delivered (h : Faithful s) (hstep : s.step limit = some t) (hallowed : CutAllowed limit s) :
    (t.chunks = s.chunks ∧ t.due = s.due) ∨ ∃ chunk gap, t.chunks = s.chunks ++ [chunk] ∧
      (∀ c ∈ gap, c = '\n') ∧ s.due = htmlToPlain chunk ++ gap ++ t.due := by
  cases round_of_step hstep with
  | @tag tag tokens idle next isTag =>
      refine .inl ⟨rfl, ?_⟩
      have hsplit : bare s.tokens = bare tokens := by
        rw [next, ← List.singleton_append, bare_append, bare_tag isTag, List.nil_append]
      have hcurrent : bare (s.current ++ [tag]) = bare s.current := by
        rw [bare_append, bare_tag isTag, List.append_nil]
      simp [Splitter.due, Splitter.takeTag, hsplit, hcurrent]
  | @load text tokens idle next notTag =>
      refine .inl ⟨rfl, ?_⟩
      have hsplit : bare s.tokens = text ++ bare tokens := by
        rw [next, ← List.singleton_append, bare_append, bare_text notTag]
      simp [Splitter.due, idle, hsplit]
  | flush => exact .inr ⟨s.chunk, [], rfl, by simp, h.due_flush⟩
  | fits busy =>
      refine .inl ⟨rfl, ?_⟩
      have hnot := (clear_of_not_mem h.rest.not_mem []).not_isTag busy
      have hcurrent : bare (s.current ++ [s.rest]) = bare s.current ++ s.rest := by
        rw [bare_append, bare_text hnot]
      simp [Splitter.due, hcurrent]
  | cut busy room long =>
      have hbounds := cut_bounds room
      have hlength : s.cut limit ≤ s.rest.length := by omega
      obtain ⟨hfront, hback⟩ := (not_cutsEntity_iff h.rest hlength).1 (hallowed busy room long)
      have hne : s.rest.take (s.cut limit) ≠ [] := by
        simp [busy]
        omega
      have hgap : ∀ c ∈ (s.rest.drop (s.cut limit)).takeWhile (· = '\n'), c = '\n' := fun c hc => by
        simpa using List.mem_takeWhile_imp hc
      have hbare : bare s.openTags = [] := bare_tags h.openTags
      have hdue := h.due_cut (List.take_append_drop (s.cut limit) s.rest).symm hne hgap
        List.takeWhile_append_dropWhile.symm hfront
      exact .inr ⟨_, _, rfl, hgap, by
        simpa [Splitter.chunk, Splitter.due, Splitter.flush, hbare] using hdue⟩

/-- The beginning of an entity shows more than the entity. -/
theorem ink_entity_parts {e₁ e₂ : List Char} (he : e₁ ++ e₂ ∈ entities) (h₁ : e₁ ≠ []) (h₂ : e₂ ≠ []) :
    Text.ink (unescape (e₁ ++ e₂)) < Text.ink (unescape e₁) + Text.ink e₂ := by
  have hparts : ∀ e ∈ entities, ∀ n < e.length, 0 < n →
      Text.ink (unescape e) < Text.ink (unescape (e.take n)) + Text.ink (e.drop n) := by decide
  have hpos₁ := List.length_pos_of_ne_nil h₁
  have hpos₂ := List.length_pos_of_ne_nil h₂
  have hpart := hparts _ he e₁.length (by rw [List.length_append]; omega) hpos₁
  simpa using hpart

/-- A round that cuts an entity shows more than it owes. -/
theorem spoiled (h : Faithful s) (hstep : s.step limit = some t) (hnot : ¬ CutAllowed limit s) :
    ∃ chunk, t.chunks = s.chunks ++ [chunk] ∧
      Text.ink s.due < Text.ink (htmlToPlain chunk) + Text.ink t.due := by
  simp only [CutAllowed, not_forall, not_not] at hnot
  obtain ⟨busy, room, long, hcuts⟩ := hnot
  have hlength : s.cut limit ≤ s.rest.length := by
    have hbounds := cut_bounds room
    omega
  cases round_of_step hstep with
  | tag idle => exact absurd idle busy
  | load idle => exact absurd idle busy
  | flush _ full => omega
  | fits _ _ short => omega
  | cut =>
      refine ⟨_, rfl, ?_⟩
      rcases (h.rest.halves (s.cut limit)).split with hboth | ⟨x, e₁, e₂, y, hfront, hback, he, h₁, h₂, hx, hy⟩
      · exact absurd hcuts ((not_cutsEntity_iff h.rest hlength).2 hboth)
      · have hkeep : (s.rest.drop (s.cut limit)).dropWhile (· = '\n') = e₂ ++ y := by
          rw [hback]
          obtain ⟨a, e₂, rfl⟩ := List.exists_cons_of_ne_nil h₂
          have ha := (escaped_of_entity_end he h₁ a (by simp)).2.1
          exact List.dropWhile_cons_of_neg (by simpa using ha)
        have hcurrent := escaped_bare h.current
        have hdue : s.due = unescape (bare s.current) ++ unescape x ++ unescape (e₁ ++ e₂) ++
            unescape (y ++ bare s.tokens) := by
          have hrest : bare s.current ++ s.rest ++ bare s.tokens =
              (bare s.current ++ x) ++ ((e₁ ++ e₂) ++ (y ++ bare s.tokens)) := by
            rw [← List.take_append_drop (s.cut limit) s.rest, hfront, hback]
            simp
          rw [Splitter.due, hrest, unescape_append (hcurrent.append hx), unescape_entity he,
            unescape_append hcurrent]
          simp
        have hne : s.rest.take (s.cut limit) ≠ [] := by simp [hfront, h₁]
        have hlt : '<' ∉ s.rest.take (s.cut limit) := fun hmem =>
          h.rest.not_mem (List.mem_of_mem_take hmem)
        have hplain := h.plain_chunk hne hlt
        have hchunk : unescape (bare s.current ++ s.rest.take (s.cut limit)) =
            unescape (bare s.current) ++ unescape x ++ unescape e₁ := by
          rw [hfront, ← List.append_assoc, unescape_append (hcurrent.append hx),
            unescape_append hcurrent]
        have hopen : bare s.openTags = [] := bare_tags h.openTags
        have hend := fun c hc => (escaped_of_entity_end he h₁ c hc).1
        have hafter : unescape (bare s.openTags ++ (e₂ ++ y) ++ bare s.tokens) =
            e₂ ++ unescape (y ++ bare s.tokens) := by
          rw [hopen, List.nil_append, List.append_assoc, unescape_append (escaped_of_plain hend),
            unescape_of_plain hend]
        have hparts := ink_entity_parts he h₁ h₂
        change Text.ink s.due < Text.ink (htmlToPlain ((s.current ++ [s.rest.take (s.cut limit)]).flatten
          ++ closing s.openTags)) + Text.ink (unescape (bare s.openTags ++
            (s.rest.drop (s.cut limit)).dropWhile (· = '\n') ++ bare s.tokens))
        rw [hdue, hplain, hchunk, hkeep, hafter]
        simp only [Text.ink_append]
        omega

/-- As much is shown and owed as the message shows. -/
def Level (whole : List Char) (s : Splitter) : Prop :=
  Text.ink (s.chunks.map htmlToPlain).flatten + Text.ink s.due = Text.ink whole

/-- No less is shown and owed than the message shows. -/
structure Covered (whole : List Char) (s : Splitter) : Prop where
  faithful : Faithful s
  enough : Text.ink whole ≤ Text.ink (s.chunks.map htmlToPlain).flatten + Text.ink s.due

variable {whole : List Char}

theorem shown_step (h : Faithful s) (hstep : s.step limit = some t) :
    Text.ink (s.chunks.map htmlToPlain).flatten + Text.ink s.due ≤
        Text.ink (t.chunks.map htmlToPlain).flatten + Text.ink t.due ∧
      (Text.ink (s.chunks.map htmlToPlain).flatten + Text.ink s.due =
        Text.ink (t.chunks.map htmlToPlain).flatten + Text.ink t.due ↔ CutAllowed limit s) := by
  by_cases hallowed : CutAllowed limit s
  · rcases delivered h hstep hallowed with ⟨hchunks, hdue⟩ | ⟨chunk, gap, hchunks, hgap, hdue⟩
    · simp [hchunks, hdue, hallowed]
    · have hblank := ink_newlines hgap
      simp only [hchunks, hdue, List.map_append, List.map_singleton, List.flatten_append,
        List.flatten_singleton, Text.ink_append, hblank, hallowed, iff_true]
      omega
  · obtain ⟨chunk, hchunks, hmore⟩ := spoiled h hstep hallowed
    simp only [hchunks, List.map_append, List.map_singleton, List.flatten_append,
      List.flatten_singleton, Text.ink_append, hallowed, iff_false]
    omega

theorem covered_step (h : Covered whole s) (hstep : s.step limit = some t) : Covered whole t :=
  ⟨faithful_step h.faithful hstep, h.enough.trans (shown_step h.faithful hstep).1⟩

theorem level_step_iff (h : Covered whole s) (hlevel : Level whole s) (hstep : s.step limit = some t) :
    Level whole t ↔ CutAllowed limit s := by
  rw [← (shown_step h.faithful hstep).2, Level, ← hlevel, eq_comm]

theorem level_of_step (h : Covered whole s) (hstep : s.step limit = some t) (ht : Level whole t) :
    Level whole s := by
  have hmore := (shown_step h.faithful hstep).1
  have henough := h.enough
  unfold Level at ht ⊢
  omega

/-- Whatever parts the rest of the message is delivered in, with the chunks before them they
are the message. -/
def Rejoins (whole : List Char) (s : Splitter) : Prop :=
  ∀ parts, Rejoined parts s.due → Rejoined (s.chunks.map htmlToPlain ++ parts) whole

theorem rejoins_step (h : Faithful s) (hrejoins : Rejoins whole s) (hstep : s.step limit = some t)
    (hallowed : CutAllowed limit s) : Rejoins whole t := by
  intro parts hparts
  rcases delivered h hstep hallowed with ⟨hchunks, hdue⟩ | ⟨chunk, gap, hchunks, hgap, hdue⟩
  · rw [hchunks]
    exact hrejoins parts (hdue ▸ hparts)
  · have hnext := hrejoins (htmlToPlain chunk :: parts) (hdue ▸ .cons hgap hparts)
    simpa [hchunks] using hnext

theorem blank_due (hend : s.step limit = none)
    (hblank : Text.stripChars s.current.flatten = []) : ∀ c ∈ s.due, Text.isSpace c = true := by
  obtain ⟨hrest, htokens⟩ := idle_of_step_none hend
  have hspaces : ∀ c ∈ bare s.current, Text.isSpace c = true := by
    intro c hc
    obtain ⟨piece, hpiece, hmem⟩ := List.mem_flatMap.1 hc
    refine Text.stripChars_eq_nil_iff.1 hblank c (List.mem_flatten.2 ⟨piece, hpiece, ?_⟩)
    split at hmem
    · cases hmem
    · exact hmem
  have hplain : ∀ c ∈ bare s.current, isPlain c = true := fun c hc =>
    isPlain_of_class (by decide) (by decide) (hspaces c hc)
  have hnone : bare [] = [] := rfl
  have hdue : s.due = bare s.current := by
    simp [Splitter.due, hrest, htokens, hnone, unescape_of_plain hplain]
  rwa [hdue]

/-- At the end the chunks show what is owed as well, if it is not blank. -/
theorem Faithful.result (h : Faithful s) (hend : s.step limit = none) :
    ∃ parts, s.result.map htmlToPlain = s.chunks.map htmlToPlain ++ parts ∧ Rejoined parts s.due := by
  obtain ⟨hrest, htokens⟩ := idle_of_step_none hend
  unfold Splitter.result
  split
  case isTrue hblank => exact ⟨[], by simp, .nil (blank_due hend hblank)⟩
  case isFalse =>
    have hdue : s.due = htmlToPlain s.chunk := by
      simp [h.plain_current, Splitter.due, hrest, htokens, bare]
    exact ⟨[htmlToPlain s.chunk], by simp, hdue ▸ rejoined_singleton _⟩

/-- The first variables, where the tokens are those of a rendered message. -/
theorem start_due {text : List Char} (h : Lexed text) :
    Faithful (.start text) ∧ (Splitter.start text).due = htmlToPlain text := by
  refine ⟨⟨by simp [Splitter.start], .nil, piece_of_mem_tokenize h, by simp [Splitter.start]⟩, ?_⟩
  have hbare := (tidy_tokenize text).sub_tag
  rw [flatten_tokenize] at hbare
  rw [htmlToPlain, hbare]
  rfl

/-- No place at which the texts of these tokens are cut falls into an entity. -/
def CutsSpareEntities (limit : Int) (tokens : List (List Char)) : Prop :=
  Along limit (fun _ _ _ => True) (fun text n => ¬ CutsEntity text n) 0 [] tokens

theorem asked_iff_cutAllowed :
    Asked limit (fun _ _ _ => True) (fun text n => ¬ CutsEntity text n) s ↔ CutAllowed limit s := by
  simp [Asked, CutAllowed]

/-- The plain texts of the chunks of a rendered message are the plain text of the message, but
for newlines at the cuts and white space at the end, exactly if the message fits as a whole or
no cut falls into an entity. -/
theorem rejoined_iff (py : Classes) (text : List Char) {fuel : Nat} {chunks : List (List Char)}
    (h : splitTelegramHtml limit fuel (markdownToTelegramHtml py text) = some chunks) :
    Rejoined (chunks.map htmlToPlain) (htmlToPlain (markdownToTelegramHtml py text)) ↔
      (markdownToTelegramHtml py text).length ≤ limit ∨
        CutsSpareEntities limit (tokenize (markdownToTelegramHtml py text)) := by
  obtain ⟨hfaithful, hdue⟩ := start_due (lexed_markdownToTelegramHtml py text)
  generalize markdownToTelegramHtml py text = message at h hfaithful hdue ⊢
  by_cases hfits : message.length ≤ limit
  · obtain rfl : [message] = chunks := by simpa [splitTelegramHtml, hfits] using h
    simpa [hfits] using rejoined_singleton _
  · obtain ⟨t, hreach, hend, hroomy, rfl⟩ := exists_end_of_returns (Int.not_le.1 hfits) h
    have hcovered : Covered (htmlToPlain message) (.start message) :=
      ⟨hfaithful, by rw [hdue]; exact Nat.le_add_left _ _⟩
    have hlevel : Level (htmlToPlain message) (.start message) := by
      rw [Level, hdue]
      exact Nat.zero_add _
    have hiff := Loop.good_at_end_iff (fun s t => covered_step)
      (fun s t hs (hgood : Level (htmlToPlain message) s) => level_step_iff hs hgood)
      (fun s t hs hnot hstep => mt (level_of_step hs hstep) hnot) hcovered hlevel hreach hend
    have hfinal := Loop.invariant_of_reaches (fun s t => faithful_step) hfaithful hreach
    obtain ⟨parts, hresult, hparts⟩ := hfinal.result hend
    have halong := @asked_iff_along limit t (fun _ _ _ => True)
      (fun text n => ¬ CutsEntity text n) message hroomy hreach hend
    simp only [asked_iff_cutAllowed] at halong
    rw [or_iff_right hfits, CutsSpareEntities, ← halong, hresult]
    constructor
    · intro hrejoined
      refine hiff.1 ?_
      have hink := hrejoined.ink_eq
      rw [List.flatten_append, Text.ink_append, hparts.ink_eq] at hink
      exact hink
    · intro hall
      have hrejoins : (StateTransition.Reaches (Splitter.step limit) (.start message) t ∧
          Faithful t) ∧ Rejoins (htmlToPlain message) t := by
        refine Loop.invariant_of_reaches (I := fun s =>
          (StateTransition.Reaches (Splitter.step limit) (.start message) s ∧ Faithful s) ∧
            Rejoins (htmlToPlain message) s) ?_ ⟨⟨.refl, hfaithful⟩, ?_⟩ hreach
        · rintro s u ⟨⟨hs, hsound⟩, hrejoins⟩ hstep
          exact ⟨⟨hs.tail hstep, faithful_step hsound hstep⟩,
            rejoins_step hsound hrejoins hstep (hall s u hs hstep)⟩
        · intro parts hparts
          simpa [Splitter.start] using hdue ▸ hparts
      exact hrejoins.2 parts hparts

/-- The classes of `re` on ASCII. -/
def asciiClasses : Classes := ⟨fun c => c.isAlphanum || c = '_', Char.isDigit, fun _ _ => rfl⟩

/-- Two lines with an entity, cut at the newline between them. -/
theorem rejoined_lines : Rejoined (["&amp;".toList, "bbbb".toList].map htmlToPlain)
      (htmlToPlain (markdownToTelegramHtml asciiClasses "&\nbbbb".toList)) ∧
    CutsSpareEntities 7 (tokenize (markdownToTelegramHtml asciiClasses "&\nbbbb".toList)) := by
  have hsplit : splitTelegramHtml 7 9 (markdownToTelegramHtml asciiClasses "&\nbbbb".toList) =
      some ["&amp;".toList, "bbbb".toList] := by decide
  have hparts : ["&amp;".toList, "bbbb".toList].map htmlToPlain = [['&'], "bbbb".toList] := by
    decide
  have hwhole : htmlToPlain (markdownToTelegramHtml asciiClasses "&\nbbbb".toList) =
      ['&'] ++ ['\n'] ++ "bbbb".toList := by decide
  have hrejoined : Rejoined (["&amp;".toList, "bbbb".toList].map htmlToPlain)
      (htmlToPlain (markdownToTelegramHtml asciiClasses "&\nbbbb".toList)) := by
    rw [hparts, hwhole]
    exact .cons (by simp) (rejoined_singleton _)
  exact ⟨hrejoined, ((rejoined_iff asciiClasses _ hsplit).1 hrejoined).resolve_left (by decide)⟩

/-- An ampersand at the border of a chunk. -/
theorem entity_is_cut : ¬ ∀ (py : Classes) (text : List Char) (limit : Int) (fuel : Nat)
    (chunks : List (List Char)),
    splitTelegramHtml limit fuel (markdownToTelegramHtml py text) = some chunks →
      Rejoined (chunks.map htmlToPlain) (htmlToPlain (markdownToTelegramHtml py text)) := by
  intro h
  have hrejoined := h asciiClasses "aaaa&".toList 6 9 ["aaaa&a".toList, "mp;".toList] (by decide)
  have hink := hrejoined.ink_eq
  revert hink
  decide

end Chunks

end GraphAgent.Telegram
