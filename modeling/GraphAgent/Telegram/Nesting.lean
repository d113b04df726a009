import GraphAgent.Telegram.Split
import Mathlib.Data.List.Forall2

/-!
# Nested tags across the chunks of a message

Where the tags of a message are nested and closed, those of each of its chunks are as well,
and around each visible character the same tags are open in the chunk as in the message.
-/

namespace GraphAgent.Telegram

open Regex

section Reading

/-- What a tag leaves of the open tags, where a closing tag has to close the innermost one. -/
def enter (openTags : List (List Char)) (tag : List Char) : Option (List (List Char)) :=
  if ['<', '/'].isPrefixOf tag then
    openTags.getLast?.bind fun last =>
      if tagName last = tagName tag then some openTags.dropLast else none
  else some (openTags ++ [tag])

/-- The tags that are open after some scanned text, and its visible characters, each with the
tags that are open around it. -/
def walk : List (List Char) → List Segment →
    Option (List (List Char) × List (Char × List (List Char)))
  | openTags, [] => some (openTags, [])
  | openTags, .plain c :: rest => (walk openTags rest).map fun r => (r.1, (c, openTags) :: r.2)
  | openTags, .found m :: rest => (enter openTags m.text).bind fun inner => walk inner rest

/-- The visible characters of a text with the tags around them, if its tags are nested and
closed. -/
def visible (text : List Char) : Option (List (Char × List (List Char))) :=
  (walk [] (segments tagPattern text)).bind fun r => if r.1 = [] then some r.2 else none

/-- Nothing but white space is missing. -/
def Trimmed (kept whole : List (Char × List (List Char))) : Prop :=
  List.Sublist kept whole ∧
    kept.filter (fun x => !Text.isSpace x.1) = whole.filter (fun x => !Text.isSpace x.1)

variable {openTags inner last : List (List Char)}

theorem walk_append (openTags : List (List Char)) (front back : List Segment) :
    walk openTags (front ++ back) = (walk openTags front).bind fun r =>
      (walk r.1 back).map fun q => (q.1, r.2 ++ q.2) := by
  induction front generalizing openTags with
  | nil => simp [walk]
  | cons segment front ih =>
      cases segment with
      | plain c =>
          simp only [List.cons_append, walk, ih]
          cases walk openTags front with
          | none => rfl
          | some r => cases hback : walk r.1 back <;> simp [hback]
      | found m =>
          simp only [List.cons_append, walk, Option.bind_assoc]
          exact Option.bind_congr fun inner _ => ih inner

theorem walk_append_eq_some {front back : List Segment} {chars : List (Char × List (List Char))} :
    walk openTags (front ++ back) = some (last, chars) ↔ ∃ inner before after,
      walk openTags front = some (inner, before) ∧ walk inner back = some (last, after) ∧
        chars = before ++ after := by
  rw [walk_append, Option.bind_eq_some_iff]
  constructor
  · rintro ⟨⟨inner, before⟩, hfront, hback⟩
    obtain ⟨⟨final, after⟩, hafter, heq⟩ := Option.map_eq_some_iff.1 hback
    obtain ⟨rfl, rfl⟩ := Prod.mk.inj heq
    exact ⟨inner, before, after, hfront, hafter, rfl⟩
  · rintro ⟨inner, before, after, hfront, hback, rfl⟩
    exact ⟨(inner, before), hfront, by simp [hback]⟩

theorem walk_text (openTags : List (List Char)) (text : List Char) :
    walk openTags (text.map .plain) = some (openTags, text.map fun c => (c, openTags)) := by
  induction text with
  | nil => rfl
  | cons c text ih => simp [walk, ih]

theorem walk_tag {tag : List Char} (h : IsTag tag) :
    walk openTags (pieceSegments tag) = (enter openTags tag).map fun inner => (inner, []) := by
  rw [pieceSegments_tag h]
  simp only [walk]
  cases enter openTags tag <;> rfl

/-- An opening tag. -/
def IsOpening (tag : List Char) : Prop := IsTag tag ∧ ['<', '/'].isPrefixOf tag = false

theorem walk_openings (outer : List (List Char)) (h : ∀ tag ∈ openTags, IsOpening tag) :
    walk outer (openTags.flatMap pieceSegments) = some (outer ++ openTags, []) := by
  induction openTags generalizing outer with
  | nil => simp [walk]
  | cons tag rest ih =>
      obtain ⟨htag, hopen⟩ := h tag (by simp)
      rw [List.flatMap_cons, walk_append, walk_tag htag]
      simp [enter, hopen, ih _ fun other hother => h other (by simp [hother])]

/-- `_closing` closes all the open tags, the innermost first. -/
theorem walk_closeTags (h : ∀ tag ∈ openTags, IsOpening tag) :
    walk openTags ((closeTags openTags).flatMap pieceSegments) = some ([], []) := by
  induction openTags using List.reverseRecOn with
  | nil => rfl
  | append_singleton front tag ih =>
      have hfront : ∀ other ∈ front, IsOpening other := fun other hother => h other (by simp [hother])
      obtain ⟨-, -, -, hne, hletters, -, -⟩ := (h tag (by simp)).1.exists_name
      have hsplit : closeTags (front ++ [tag]) = closeTag (tagName tag) :: closeTags front := by
        simp [closeTags]
      have henter : enter (front ++ [tag]) (closeTag (tagName tag)) = some front := by
        have hslash : ['<', '/'].isPrefixOf (closeTag (tagName tag)) = true := by simp [closeTag]
        simp [enter, hslash, tagName_closeTag hne hletters]
      rw [hsplit, List.flatMap_cons, walk_append, walk_tag (isTag_closeTag hne hletters), henter]
      simp [ih hfront]

/-- A walk shows only characters that stand outside of tags. -/
theorem mem_of_mem_walk {segs : List Segment} {chars : List (Char × List (List Char))}
    (h : walk openTags segs = some (last, chars)) : ∀ x ∈ chars, Segment.plain x.1 ∈ segs := by
  induction segs generalizing openTags chars with
  | nil =>
      obtain ⟨-, rfl⟩ := Prod.mk.inj (Option.some.inj h)
      simp
  | cons segment segs ih =>
      cases segment with
      | plain c =>
          obtain ⟨⟨final, rest⟩, hrest, heq⟩ := Option.map_eq_some_iff.1 h
          obtain ⟨rfl, rfl⟩ := Prod.mk.inj heq
          intro x hx
          rcases List.mem_cons.1 hx with rfl | hx
          · simp
          · exact List.mem_cons_of_mem _ (ih hrest x hx)
      | found m =>
          obtain ⟨inner, -, hrest⟩ := Option.bind_eq_some_iff.1 h
          exact fun x hx => List.mem_cons_of_mem _ (ih hrest x hx)

theorem isOpening_of_enter {tag : List Char} (hopen : ∀ other ∈ openTags, IsOpening other)
    (htag : IsTag tag) (h : enter openTags tag = some inner) : ∀ other ∈ inner, IsOpening other := by
  unfold enter at h
  split at h
  case isTrue =>
    obtain ⟨final, -, h⟩ := Option.bind_eq_some_iff.1 h
    split at h
    case isTrue =>
      obtain rfl := Option.some.inj h
      exact fun other hother => hopen other (List.dropLast_subset _ hother)
    case isFalse => cases h
  case isFalse hslash =>
    obtain rfl := Option.some.inj h
    intro other hother
    rcases List.mem_append.1 hother with hold | hnew
    · exact hopen other hold
    · exact List.mem_singleton.1 hnew ▸ ⟨htag, by simpa only [Bool.not_eq_true] using hslash⟩

/-- In nested text a closing tag takes the tag off that `split_telegram_html` takes off. -/
theorem afterTag_of_enter {tag : List Char} (h : enter openTags tag = some inner) :
    afterTag openTags tag = inner := by
  unfold enter at h
  unfold afterTag
  split at h
  case isTrue hslash =>
    obtain ⟨final, hfinal, h⟩ := Option.bind_eq_some_iff.1 h
    split at h
    case isTrue hname =>
      obtain ⟨front, rfl⟩ : ∃ front, openTags = front ++ [final] := by
        exact ⟨_, (List.dropLast_append_getLast? final hfinal).symm⟩
      obtain rfl : front = inner := by simpa using h
      rw [if_pos hslash, closeNamed]
      simp [hname]
    case isFalse => cases h
  case isFalse hslash =>
    rw [if_neg hslash]
    exact Option.some.inj h

end Reading

section Pieces

/-- The text begins like a tag. -/
def OpensTag (text : List Char) : Prop :=
  ∃ slash c rest, (slash = [] ∨ slash = ['/']) ∧ isLetter c = true ∧ text = '<' :: slash ++ c :: rest

/-- No part of the text begins like a tag. -/
def Harmless (text : List Char) : Prop := ∀ part, part <:+ text → ¬ OpensTag part

theorem exists_tag_of_opensTag {part behind : List Char} (h : OpensTag part)
    (hend : '>' ∈ behind) : ∃ tag, IsTag tag ∧ tag <+: part ++ behind := by
  obtain ⟨slash, c, rest, hslash, hc, rfl⟩ := h
  obtain ⟨body, after, hsplit, hnone⟩ :=
    List.eq_append_cons_of_mem (List.mem_append_right rest hend)
  refine ⟨'<' :: slash ++ c :: body ++ ['>'], ⟨slash, c, body, hslash, hc, hnone, rfl⟩, after, ?_⟩
  simp [hsplit]

/-- In front of a tag, or at the end, no tag begins in harmless text. -/
theorem Harmless.clear {text behind : List Char} (h : Harmless text)
    (hbehind : behind = [] ∨ behind.head? = some '<') : Clear text behind := by
  intro part hne hpart tag htag hprefix
  obtain ⟨slash, c, body, hslash, hc, -, rfl⟩ := htag
  obtain ⟨after, hafter⟩ := hprefix
  have hlt : ∀ d, behind.head? = some d → isLetter d = false ∧ d ≠ '/' := by
    intro d hd
    rcases hbehind with rfl | hbehind
    · cases hd
    · obtain rfl := Option.some.inj (hd.symm.trans hbehind)
      decide
  refine h part hpart ?_
  rcases hslash with rfl | rfl
  · rcases part with _ | ⟨a, _ | ⟨b, tail⟩⟩
    · exact absurd rfl hne
    · have hc' : behind.head? = some c := by simpa using (congrArg (·.tail.head?) hafter).symm
      rw [(hlt c hc').1] at hc
      cases hc
    · obtain ⟨rfl, rfl⟩ : '<' = a ∧ c = b := by simpa using congrArg (·.take 2) hafter
      exact ⟨[], c, tail, .inl rfl, hc, rfl⟩
  · rcases part with _ | ⟨a, _ | ⟨b, _ | ⟨d, tail⟩⟩⟩
    · exact absurd rfl hne
    · have hslash : behind.head? = some '/' := by simpa using (congrArg (·.tail.head?) hafter).symm
      exact absurd rfl (hlt '/' hslash).2
    · have hc' : behind.head? = some c := by
        simpa using (congrArg (·.tail.tail.head?) hafter).symm
      rw [(hlt c hc').1] at hc
      cases hc
    · obtain ⟨rfl, rfl, rfl⟩ : '<' = a ∧ '/' = b ∧ c = d := by
        simpa using congrArg (·.take 3) hafter
      exact ⟨['/'], c, tail, .inr rfl, hc, rfl⟩

/-- Text with a tag behind it is harmless where no tag begins in it. -/
theorem Clear.harmless {text behind : List Char} (h : Clear text behind) (hend : '>' ∈ behind) :
    Harmless text := by
  intro part hpart hopens
  obtain ⟨tag, htag, hprefix⟩ := exists_tag_of_opensTag hopens hend
  have hne : part ≠ [] := by
    obtain ⟨slash, c, rest, -, -, rfl⟩ := hopens
    simp
  exact h part hne hpart tag htag hprefix

theorem OpensTag.append {part more : List Char} (h : OpensTag part) : OpensTag (part ++ more) := by
  obtain ⟨slash, c, rest, hslash, hc, rfl⟩ := h
  exact ⟨slash, c, rest ++ more, hslash, hc, by simp⟩

theorem Harmless.of_append {text more : List Char} (h : Harmless (text ++ more)) :
    Harmless text := by
  rintro part ⟨front, rfl⟩ hopens
  exact h (part ++ more) ⟨front, by simp⟩ hopens.append

theorem Clear.of_append {text more behind : List Char} (h : Clear (text ++ more) behind) :
    Clear text [] := by
  rintro part hne ⟨front, rfl⟩ tag htag hpart
  rw [List.append_nil] at hpart
  refine h (part ++ more) (by simp [hne]) ⟨front, by simp⟩ tag htag ?_
  exact (hpart.trans (List.prefix_append _ _)).trans (List.prefix_append _ _)

/-- Pieces that stay what they are when tags follow. -/
def Settled (pieces : List (List Char)) : Prop :=
  ∀ piece ∈ pieces, IsTag piece ∨ piece ≠ [] ∧ Harmless piece

theorem head_of_isTag {tag : List Char} (h : IsTag tag) : tag.head? = some '<' := by
  obtain ⟨slash, c, body, -, -, -, rfl⟩ := h
  rfl

theorem head_flatten {pieces : List (List Char)} (h : ∀ next ∈ pieces.head?, IsTag next) :
    pieces.flatten = [] ∨ pieces.flatten.head? = some '<' := by
  cases pieces with
  | nil => exact .inl rfl
  | cons next more => exact .inr (by simp [List.head?_append, head_of_isTag (h next rfl)])

/-- A scan takes settled pieces as they are, if no two texts are neighbours. -/
theorem Settled.tidy_append {front back : List (List Char)} (h : Settled front)
    (hchain : (front ++ back).IsChain Apart) (hback : Tidy back) : Tidy (front ++ back) := by
  induction front with
  | nil => exact hback
  | cons piece rest ih =>
      rw [List.cons_append, List.isChain_cons] at hchain
      obtain ⟨hnext, hrest⟩ := hchain
      have htidy := ih (fun p hp => h p (by simp [hp])) hrest
      by_cases htag : IsTag piece
      · exact .tag htag htidy
      · obtain ⟨hne, hharmless⟩ := (h piece (by simp)).resolve_left htag
        have hhead := head_flatten fun next hmem => (hnext next hmem).resolve_left htag
        exact .text hne (hharmless.clear hhead) htidy

theorem isChain_tags {tags : List (List Char)} (h : ∀ tag ∈ tags, IsTag tag) :
    tags.IsChain Apart := by
  induction tags with
  | nil => exact .nil
  | cons tag rest ih =>
      exact (ih fun other hother => h other (by simp [hother])).cons fun next _ => .inl (h tag (by simp))

theorem tidy_tags {tags : List (List Char)} (h : ∀ tag ∈ tags, IsTag tag) : Tidy tags := by
  induction tags with
  | nil => exact .nil
  | cons tag rest ih => exact .tag (h tag (by simp)) (ih fun other hother => h other (by simp [hother]))

end Pieces

section Trimmed

variable {kept whole more rest : List (Char × List (List Char))}

theorem Trimmed.refl (whole : List (Char × List (List Char))) : Trimmed whole whole :=
  ⟨List.Sublist.refl _, rfl⟩

theorem Trimmed.trans (h : Trimmed kept whole) (hwhole : Trimmed whole more) : Trimmed kept more :=
  ⟨h.1.trans hwhole.1, h.2.trans hwhole.2⟩

theorem Trimmed.append (h : Trimmed kept whole) (hmore : Trimmed rest more) :
    Trimmed (kept ++ rest) (whole ++ more) :=
  ⟨h.1.append hmore.1, by rw [List.filter_append, List.filter_append, h.2, hmore.2]⟩

theorem trimmed_nil (h : ∀ x ∈ whole, Text.isSpace x.1 = true) : Trimmed [] whole :=
  ⟨List.nil_sublist _, by simpa [List.filter_eq_nil_iff] using h⟩

end Trimmed

section Chunks

/-- The pieces of the text that is still to come. -/
def Splitter.ahead (s : Splitter) : List (List Char) :=
  if s.rest = [] then s.tokens else s.rest :: s.tokens

theorem ahead_busy {s : Splitter} (h : s.rest ≠ []) : s.ahead = s.rest :: s.tokens := if_neg h

theorem ahead_idle {s : Splitter} (h : s.rest = []) : s.ahead = s.tokens := if_pos h

/-- The state of the loops against the visible characters of the text: what the chunks show,
what the current chunk shows, and what is still to come. -/
structure Reading (chars : List (Char × List (List Char))) (s : Splitter)
    (parts : List (List (Char × List (List Char)))) (cur later : List (Char × List (List Char))) :
    Prop where
  parts_eq : List.Forall₂ (fun chunk part => visible chunk = some part) s.chunks parts
  current_eq : walk [] (s.current.flatMap pieceSegments) = some (s.openTags, cur)
  later_eq : walk s.openTags (s.ahead.flatMap pieceSegments) = some ([], later)
  trimmed : Trimmed (parts.flatten ++ cur ++ later) chars
  opening : ∀ tag ∈ s.openTags, IsOpening tag
  clear : Clear s.rest s.tokens.flatten
  tidy : Tidy s.tokens
  apart : (s.current ++ s.ahead).IsChain Apart
  settled : Settled s.current ∨ s.ahead = [] ∧ Tidy s.current

variable {chars : List (Char × List (List Char))} {s t : Splitter} {limit : Int}
  {parts : List (List (Char × List (List Char)))} {cur later : List (Char × List (List Char))}

theorem Reading.isTag_last (h : Reading chars s parts cur later) (hbusy : s.rest ≠ []) :
    ∀ last ∈ s.current.getLast?, IsTag last := by
  intro last hlast
  have hchain := h.apart
  rw [ahead_busy hbusy] at hchain
  exact ((List.isChain_append.1 hchain).2.2 last hlast s.rest rfl).resolve_right
    (h.clear.not_isTag hbusy)

theorem Reading.isTag_next (h : Reading chars s parts cur later) (hbusy : s.rest ≠ []) :
    ∀ next ∈ s.tokens.head?, IsTag next := by
  have hchain := (List.isChain_append.1 h.apart).2.1
  rw [ahead_busy hbusy] at hchain
  exact fun next hnext => ((List.isChain_cons.1 hchain).1 next hnext).resolve_left
    (h.clear.not_isTag hbusy)

theorem Reading.settled_busy (h : Reading chars s parts cur later) (hbusy : s.rest ≠ []) :
    Settled s.current :=
  h.settled.resolve_right fun hend => by simp [ahead_busy hbusy] at hend

theorem Reading.walk_rest (h : Reading chars s parts cur later) (hbusy : s.rest ≠ []) :
    ∃ behind, walk s.openTags (s.tokens.flatMap pieceSegments) = some ([], behind) ∧
      later = s.rest.map (fun c => (c, s.openTags)) ++ behind := by
  have hwalk := h.later_eq
  rw [ahead_busy hbusy, List.flatMap_cons, pieceSegments_text (h.clear.not_isTag hbusy)] at hwalk
  obtain ⟨inner, before, after, hfront, hback, rfl⟩ := walk_append_eq_some.1 hwalk
  rw [walk_text] at hfront
  obtain ⟨rfl, rfl⟩ := Prod.mk.inj (Option.some.inj hfront)
  exact ⟨after, hback, rfl⟩

/-- A part of the text in hand that stands at its beginning is harmless, or it is the last of
the text and no tag is open. -/
theorem Reading.harmless_or (h : Reading chars s parts cur later) {piece more : List Char}
    (hbusy : s.rest ≠ []) (hrest : s.rest = piece ++ more) :
    Harmless piece ∨ Clear piece [] ∧ s.tokens = [] ∧ s.openTags = [] := by
  have hclear := h.clear
  rw [hrest] at hclear
  cases htokens : s.tokens with
  | nil =>
      obtain ⟨behind, hwalk, -⟩ := h.walk_rest hbusy
      rw [htokens] at hwalk
      exact .inr ⟨hclear.of_append, rfl, (Prod.mk.inj (Option.some.inj hwalk)).1⟩
  | cons next tokens =>
      have htag := h.isTag_next hbusy next (by simp [htokens])
      obtain ⟨front, -, hfront⟩ := htag.exists_front
      have hend : '>' ∈ s.tokens.flatten := by simp [htokens, hfront]
      exact .inl (hclear.harmless hend).of_append

/-- The current chunk, with a part of the text in hand and closed, shows what it should. -/
theorem Reading.visible_chunk (h : Reading chars s parts cur later) {piece more : List Char}
    (hbusy : s.rest ≠ []) (hpiece : piece ≠ []) (hrest : s.rest = piece ++ more) :
    visible (s.current.flatten ++ piece ++ closing s.openTags) =
      some (cur ++ piece.map fun c => (c, s.openTags)) := by
  have hclosing := isTag_closeTags fun tag htag => (h.opening tag htag).1
  have hlast := h.isTag_last hbusy
  have hchain : (s.current ++ piece :: closeTags s.openTags).IsChain Apart := by
    refine (List.isChain_append.1 h.apart).1.append ((isChain_tags hclosing).cons ?_) ?_
    · exact fun next hnext => .inr (hclosing next (List.mem_of_mem_head? hnext))
    · exact fun last hmem _ _ => .inl (hlast last hmem)
  have hpieceClear : Clear piece (closeTags s.openTags).flatten := by
    rcases h.harmless_or hbusy hrest with hharmless | ⟨hclear, -, hopen⟩
    · exact hharmless.clear (head_flatten fun next hnext => hclosing next (List.mem_of_mem_head? hnext))
    · rw [hopen]
      exact hclear
  have htidy := (h.settled_busy hbusy).tidy_append hchain
    (.text hpiece hpieceClear (tidy_tags hclosing))
  have htext : s.current.flatten ++ piece ++ closing s.openTags =
      (s.current ++ piece :: closeTags s.openTags).flatten := by
    simp [closing_eq, closeTags]
  have hwalk : walk [] ((s.current ++ piece :: closeTags s.openTags).flatMap pieceSegments) =
      some ([], cur ++ piece.map fun c => (c, s.openTags)) := by
    rw [List.flatMap_append, List.flatMap_cons, pieceSegments_text (hpieceClear.not_isTag hpiece)]
    refine walk_append_eq_some.2 ⟨s.openTags, cur, _, h.current_eq, ?_, rfl⟩
    refine walk_append_eq_some.2 ⟨_, _, [], walk_text _ _, walk_closeTags h.opening, ?_⟩
    simp
  rw [visible, htext, htidy.segments, hwalk]
  rfl

/-- The current chunk, closed as it is, shows what it should. -/
theorem Reading.visible_current (h : Reading chars s parts cur later)
    (hend : s.rest ≠ [] ∨ s.openTags = []) : visible s.chunk = some cur := by
  have hclosing := isTag_closeTags fun tag htag => (h.opening tag htag).1
  have htidy : Tidy (s.current ++ closeTags s.openTags) := by
    rcases h.settled with hsettled | ⟨hahead, htidy⟩
    · refine hsettled.tidy_append ?_ (tidy_tags hclosing)
      refine (List.isChain_append.1 h.apart).1.append (isChain_tags hclosing) ?_
      exact fun _ _ next hnext => .inr (hclosing next (List.mem_of_mem_head? hnext))
    · have hopen : s.openTags = [] := by
        rcases hend with hbusy | hopen
        · simp [ahead_busy hbusy] at hahead
        · exact hopen
      simpa [hopen, closeTags] using htidy
  have htext : s.chunk = (s.current ++ closeTags s.openTags).flatten := by
    simp [Splitter.chunk, closing_eq, closeTags]
  have hwalk : walk [] ((s.current ++ closeTags s.openTags).flatMap pieceSegments) =
      some ([], cur) := by
    rw [List.flatMap_append]
    exact walk_append_eq_some.2 ⟨s.openTags, cur, [], h.current_eq, walk_closeTags h.opening, by simp⟩
  rw [visible, htext, htidy.segments, hwalk]
  rfl

/-- After a flush the current chunk holds the open tags, and what comes next may follow them. -/
theorem Reading.reopened (h : Reading chars s parts cur later) :
    walk [] (s.openTags.flatMap pieceSegments) = some (s.openTags, []) ∧ Settled s.openTags := by
  refine ⟨?_, fun tag htag => .inl (h.opening tag htag).1⟩
  simpa using walk_openings [] h.opening

theorem Reading.isChain_reopened (h : Reading chars s parts cur later) {ahead : List (List Char)}
    (hahead : ahead.IsChain Apart) : (s.openTags ++ ahead).IsChain Apart := by
  have htags : ∀ tag ∈ s.openTags, IsTag tag := fun tag htag => (h.opening tag htag).1
  refine (isChain_tags htags).append hahead fun last hlast _ _ => .inl ?_
  exact htags last (List.mem_of_mem_getLast? hlast)

theorem Reading.takeTag (h : Reading chars s parts cur later) {tag : List Char}
    {tokens : List (List Char)} (idle : s.rest = []) (next : s.tokens = tag :: tokens)
    (htag : IsTag tag) :
    Reading chars (({ s with tokens } : Splitter).takeTag tag) parts cur later := by
  have hchain := h.apart
  have hwalk := h.later_eq
  rw [ahead_idle idle, next] at hchain hwalk
  rw [List.flatMap_cons, walk_append, walk_tag htag] at hwalk
  obtain ⟨r, hr, hwalk⟩ := Option.bind_eq_some_iff.1 hwalk
  obtain ⟨inner, henter, rfl⟩ := Option.map_eq_some_iff.1 hr
  obtain ⟨⟨last, rest⟩, hwalk, heq⟩ := Option.map_eq_some_iff.1 hwalk
  obtain ⟨rfl, rfl⟩ := Prod.mk.inj heq
  have hafter := afterTag_of_enter henter
  have hsettled : Settled s.current := h.settled.resolve_right fun hend => by
    simp [ahead_idle idle, next] at hend
  have htidy := h.tidy
  rw [next] at htidy
  refine
    { parts_eq := h.parts_eq
      current_eq := ?_
      later_eq := ?_
      trimmed := h.trimmed
      opening := ?_
      clear := by simpa [Splitter.takeTag, idle] using clear_nil _
      tidy := htidy.of_cons
      apart := ?_
      settled := .inl ?_ }
  · simp only [Splitter.takeTag, List.flatMap_append, List.flatMap_singleton, hafter]
    refine walk_append_eq_some.2 ⟨s.openTags, cur, [], h.current_eq, ?_, by simp⟩
    rw [walk_tag htag, henter]
    rfl
  · simpa [ahead_idle, Splitter.takeTag, idle, hafter] using hwalk
  · simpa [Splitter.takeTag, hafter] using isOpening_of_enter h.opening htag henter
  · simpa [ahead_idle, Splitter.takeTag, idle] using hchain
  · intro piece hpiece
    rcases List.mem_append.1 hpiece with hpiece | hpiece
    · exact hsettled piece hpiece
    · exact .inl (List.mem_singleton.1 hpiece ▸ htag)

theorem Reading.load (h : Reading chars s parts cur later) {text : List Char}
    {tokens : List (List Char)} (idle : s.rest = []) (next : s.tokens = text :: tokens)
    (hnot : ¬ IsTag text) : Reading chars { s with tokens, rest := text } parts cur later := by
  have htidy := h.tidy
  rw [next] at htidy
  have hne := htidy.ne_nil text (by simp)
  have hahead : ({ s with tokens, rest := text } : Splitter).ahead = s.ahead := by
    rw [ahead_idle idle, next]
    exact if_neg hne
  refine
    { h with
      later_eq := ?_
      clear := ?_
      tidy := htidy.of_cons
      apart := ?_
      settled := ?_ }
  · rw [hahead]
    exact h.later_eq
  · cases htidy with
    | tag htag => exact absurd htag hnot
    | text _ hclear => exact hclear
  · rw [hahead]
    exact h.apart
  · rw [hahead]
    exact h.settled

theorem Reading.flush (h : Reading chars s parts cur later) (busy : s.rest ≠ []) :
    Reading chars s.flush (parts ++ [cur]) [] later := by
  obtain ⟨hwalk, hsettled⟩ := h.reopened
  exact
    { parts_eq := List.rel_append h.parts_eq (.cons (h.visible_current (.inl busy)) .nil)
      current_eq := hwalk
      later_eq := h.later_eq
      trimmed := by simpa using h.trimmed
      opening := h.opening
      clear := h.clear
      tidy := h.tidy
      apart := h.isChain_reopened (List.isChain_append.1 h.apart).2.1
      settled := .inl hsettled }

theorem Reading.fits (h : Reading chars s parts cur later) (busy : s.rest ≠ []) (length : Nat) :
    ∃ cur later, Reading chars { s with current := s.current ++ [s.rest], length, rest := [] }
      parts cur later := by
  obtain ⟨behind, hwalk, rfl⟩ := h.walk_rest busy
  have hchain := h.apart
  rw [ahead_busy busy] at hchain
  refine ⟨cur ++ s.rest.map (fun c => (c, s.openTags)), behind,
    { h with
      current_eq := ?_
      later_eq := hwalk
      trimmed := by simpa using h.trimmed
      clear := clear_nil _
      apart := by simpa [ahead_idle] using hchain
      settled := ?_ }⟩
  · simp only [List.flatMap_append, List.flatMap_singleton]
    rw [pieceSegments_text (h.clear.not_isTag busy)]
    exact walk_append_eq_some.2 ⟨_, _, _, h.current_eq, walk_text _ _, rfl⟩
  · rcases h.harmless_or busy (List.append_nil s.rest).symm with hharmless | ⟨hclear, htokens, -⟩
    · refine .inl fun piece hpiece => ?_
      rcases List.mem_append.1 hpiece with hpiece | hpiece
      · exact h.settled_busy busy piece hpiece
      · exact .inr (List.mem_singleton.1 hpiece ▸ ⟨busy, hharmless⟩)
    · refine .inr ⟨by simp [ahead_idle, htokens], ?_⟩
      rw [htokens] at hchain
      exact (h.settled_busy busy).tidy_append hchain (.text busy hclear .nil)

theorem Reading.cut (h : Reading chars s parts cur later) {n : Nat} (busy : s.rest ≠ [])
    (hn : 0 < n) : ∃ parts cur later, Reading chars
      { ({ s with current := s.current ++ [s.rest.take n] } : Splitter).flush with
        rest := (s.rest.drop n).dropWhile (· = '\n') } parts cur later := by
  obtain ⟨behind, hwalk, rfl⟩ := h.walk_rest busy
  obtain ⟨hopened, hsettled⟩ := h.reopened
  have hpiece : s.rest.take n ≠ [] := by
    simp [busy]
    omega
  generalize hkept : (s.rest.drop n).dropWhile (· = '\n') = kept
  obtain ⟨gap, hgap, hsplit⟩ : ∃ gap, (∀ c ∈ gap, Text.isSpace c = true) ∧
      s.rest = s.rest.take n ++ (gap ++ kept) := by
    refine ⟨(s.rest.drop n).takeWhile (· = '\n'), fun c hc => ?_, ?_⟩
    · obtain rfl : c = '\n' := by simpa using List.mem_takeWhile_imp hc
      decide
    · rw [← hkept, List.takeWhile_append_dropWhile, List.take_append_drop]
  have hclear : Clear kept s.tokens.flatten :=
    h.clear.of_suffix ⟨s.rest.take n ++ gap, by rw [List.append_assoc, ← hsplit]⟩
  have hahead : ∀ u : Splitter, u.rest = kept → u.tokens = s.tokens →
      walk s.openTags (u.ahead.flatMap pieceSegments) =
        some ([], kept.map (fun c => (c, s.openTags)) ++ behind) ∧ u.ahead.IsChain Apart := by
    intro u hrest htokens
    have hchain := (List.isChain_append.1 h.apart).2.1
    rw [ahead_busy busy, List.isChain_cons] at hchain
    by_cases hempty : kept = []
    · rw [ahead_idle (hrest.trans hempty), htokens, hempty]
      exact ⟨hwalk, hchain.2⟩
    · rw [ahead_busy (fun hnil => hempty (hrest.symm.trans hnil)), htokens, hrest, List.flatMap_cons,
        pieceSegments_text (hclear.not_isTag hempty)]
      refine ⟨walk_append_eq_some.2 ⟨_, _, _, walk_text _ _, hwalk, rfl⟩, ?_⟩
      exact hchain.2.cons fun next hnext => .inr (h.isTag_next busy next hnext)
  obtain ⟨hlater, hchain⟩ := hahead { ({ s with current := s.current ++ [s.rest.take n] } :
    Splitter).flush with rest := kept } rfl rfl
  refine ⟨parts ++ [cur ++ (s.rest.take n).map fun c => (c, s.openTags)], [],
    kept.map (fun c => (c, s.openTags)) ++ behind,
    { parts_eq := List.rel_append h.parts_eq (.cons ?_ .nil)
      current_eq := hopened
      later_eq := hlater
      trimmed := ?_
      opening := h.opening
      clear := hclear
      tidy := h.tidy
      apart := h.isChain_reopened hchain
      settled := .inl hsettled }⟩
  · simpa [Splitter.chunk] using h.visible_chunk busy hpiece hsplit
  · refine Trimmed.trans ?_ h.trimmed
    have hgone : Trimmed [] (gap.map fun c => (c, s.openTags)) :=
      trimmed_nil fun x hx => by
        obtain ⟨c, hc, rfl⟩ := List.mem_map.1 hx
        exact hgap c hc
    have hwhole := ((Trimmed.refl (parts.flatten ++ cur ++ (s.rest.take n).map fun c => (c, s.openTags))).append
      hgone).append (Trimmed.refl (kept.map (fun c => (c, s.openTags)) ++ behind))
    have hrest : s.rest.map (fun c => (c, s.openTags)) =
        (s.rest.take n).map (fun c => (c, s.openTags)) ++ (gap.map (fun c => (c, s.openTags)) ++
          kept.map fun c => (c, s.openTags)) := by
      rw [← List.map_append, ← List.map_append, ← hsplit]
    rw [hrest]
    simpa using hwhole

theorem reading_step (h : Reading chars s parts cur later) (hstep : s.step limit = some t) :
    ∃ parts cur later, Reading chars t parts cur later := by
  cases round_of_step hstep with
  | tag idle next isTag => exact ⟨parts, cur, later, h.takeTag idle next isTag⟩
  | load idle next notTag => exact ⟨parts, cur, later, h.load idle next notTag⟩
  | flush busy => exact ⟨_, _, _, h.flush busy⟩
  | fits busy =>
      obtain ⟨cur, later, h⟩ := h.fits busy (s.length + s.rest.length)
      exact ⟨parts, cur, later, h⟩
  | cut busy room => exact h.cut busy (cut_bounds room).1

theorem reading_start {text : List Char} (h : visible text = some chars) :
    Reading chars (.start text) [] [] chars := by
  obtain ⟨⟨last, shown⟩, hwalk, hend⟩ := Option.bind_eq_some_iff.1 h
  split at hend
  case isTrue hclosed =>
    obtain rfl := Option.some.inj hend
    obtain rfl : last = [] := hclosed
    have hsegments := (tidy_tokenize text).segments
    rw [flatten_tokenize] at hsegments
    exact
      { parts_eq := .nil
        current_eq := rfl
        later_eq := by
          rw [ahead_idle rfl]
          change walk [] ((tokenize text).flatMap pieceSegments) = _
          rw [← hsegments, hwalk]
        trimmed := .refl _
        opening := by simp [Splitter.start]
        clear := clear_nil _
        tidy := tidy_tokenize text
        apart := isChain_tokenize text
        settled := .inl (by simp [Settled, Splitter.start]) }
  case isFalse => cases hend

/-- At the end everything has been shown but a current chunk that is blank. -/
theorem Reading.result (h : Reading chars s parts cur later) (hend : s.step limit = none) :
    ∃ parts, List.Forall₂ (fun chunk part => visible chunk = some part) s.result parts ∧
      Trimmed parts.flatten chars := by
  obtain ⟨hrest, htokens⟩ := idle_of_step_none hend
  have hwalk := h.later_eq
  rw [ahead_idle hrest, htokens] at hwalk
  obtain ⟨hopen, rfl⟩ := Prod.mk.inj (Option.some.inj hwalk)
  unfold Splitter.result
  split
  case isTrue hblank =>
    refine ⟨parts, h.parts_eq, ?_⟩
    have hgone : Trimmed [] cur := trimmed_nil fun x hx => by
      have hplain := mem_of_mem_walk h.current_eq x hx
      obtain ⟨piece, hpiece, hmem⟩ := List.mem_flatMap.1 hplain
      unfold pieceSegments at hmem
      split at hmem
      · simp at hmem
      · obtain ⟨c, hc, heq⟩ := List.mem_map.1 hmem
        obtain rfl := Segment.plain.inj heq
        exact Text.stripChars_eq_nil_iff.1 hblank _ (List.mem_flatten.2 ⟨piece, hpiece, hc⟩)
    have hkept := ((Trimmed.refl parts.flatten).append hgone).append (Trimmed.refl [])
    simpa using hkept.trans h.trimmed
  case isFalse =>
    refine ⟨parts ++ [cur], List.rel_append h.parts_eq (.cons (h.visible_current (.inr hopen)) .nil), ?_⟩
    simpa using h.trimmed

/-- Where the tags of a text are nested and closed, those of every chunk are as well, and the
chunks show the characters of the text with the same tags around each of them. -/
theorem visible_chunks {text : List Char} (h : visible text = some chars) {fuel : Nat}
    {chunks : List (List Char)} (hreturn : splitTelegramHtml limit fuel text = some chunks) :
    ∃ parts, List.Forall₂ (fun chunk part => visible chunk = some part) chunks parts ∧
      Trimmed parts.flatten chars := by
  by_cases hfits : text.length ≤ limit
  · obtain rfl : [text] = chunks := by simpa [splitTelegramHtml, hfits] using hreturn
    exact ⟨[chars], .cons h .nil, by simpa using Trimmed.refl chars⟩
  · obtain ⟨t, hreach, hend, -, rfl⟩ := exists_end_of_returns (Int.not_le.1 hfits) hreturn
    have hstep : ∀ s t, (∃ parts cur later, Reading chars s parts cur later) →
        s.step limit = some t → ∃ parts cur later, Reading chars t parts cur later := by
      rintro s t ⟨_, _, _, hs⟩ hstep
      exact reading_step hs hstep
    obtain ⟨parts, cur, later, hreading⟩ :=
      Loop.invariant_of_reaches hstep ⟨_, _, _, reading_start h⟩ hreach
    exact hreading.result hend

/-- Bold text with a letter in italics, cut before the letter. -/
theorem visible_chunks_bold : ∃ parts,
    List.Forall₂ (fun chunk part => visible chunk = some part)
      ["<b>xx\ny<i></i></b>".toList, "<b><i>z</i></b>".toList] parts ∧
      Trimmed parts.flatten [('x', ["<b>".toList]), ('x', ["<b>".toList]), ('\n', ["<b>".toList]),
        ('y', ["<b>".toList]), ('z', ["<b>".toList, "<i>".toList])] :=
  @visible_chunks _ 16 "<b>xx\ny<i>z</i></b>".toList (by decide) 20 _ (by decide)

end Chunks

end GraphAgent.Telegram
