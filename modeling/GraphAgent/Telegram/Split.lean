import GraphAgent.Core.Text
import GraphAgent.Library.Loop
import GraphAgent.Telegram.Tags
import Mathlib.Algebra.Ring.Nat
import Mathlib.Algebra.Order.BigOperators.Group.List

/-!
# Splitting a Telegram message

`split_telegram_html` as a loop over the tokens of a message, and over the text of a token
for as long as some of it is left. The loop ends if it has room for text beside the open tags,
and its chunks keep to the limit if it has room for the tags.
-/

namespace GraphAgent.Telegram

section Split

/-- `text.rfind(c)` -/
def rfind (c : Char) (text : List Char) : Int := text.length - 1 - text.reverse.idxOf c

/-- `open_tags` without the innermost tag of a name. -/
def closeNamed (name : List Char) (openTags : List (List Char)) : List (List Char) :=
  (openTags.reverse.eraseP fun tag => tagName tag = name).reverse

/-- What a tag leaves of `open_tags`. -/
def afterTag (openTags : List (List Char)) (tag : List Char) : List (List Char) :=
  if ['<', '/'].isPrefixOf tag then closeNamed (tagName tag) openTags else openTags ++ [tag]

/-- The variables of `split_telegram_html`, with the tokens that are still to come. -/
structure Splitter where
  tokens : List (List Char)
  rest : List Char
  chunks : List (List Char)
  current : List (List Char)
  length : Nat
  openTags : List (List Char)

namespace Splitter

/-- The variables before the first token. -/
def start (text : List Char) : Splitter := ⟨tokenize text, [], [], [], 0, []⟩

variable (limit : Int) (s : Splitter)

/-- The chunk that `flush` would emit. -/
def chunk : List Char := s.current.flatten ++ closing s.openTags

/-- `flush` -/
def flush : Splitter :=
  { s with
    chunks := s.chunks ++ [s.chunk]
    current := s.openTags
    length := (s.openTags.map List.length).sum }

/-- A tag is taken without a look at the limit. -/
def takeTag (tag : List Char) : Splitter :=
  { s with
    current := s.current ++ [tag]
    length := s.length + tag.length
    openTags := afterTag s.openTags tag }

/-- `available` -/
def available : Int := limit - s.length - (closing s.openTags).length

/-- `cut`, where there is room for some of the text. -/
def cut : Nat :=
  let found := rfind '\n' (s.rest.take (s.available limit + 1).toNat)
  if found ≤ 0 then (s.available limit).toNat else found.toNat

/-- One round of `while rest`. -/
def place : Splitter :=
  if s.available limit ≤ 0 then s.flush
  else if s.rest.length ≤ s.available limit then
    { s with
      current := s.current ++ [s.rest]
      length := s.length + s.rest.length
      rest := [] }
  else
    { ({ s with current := s.current ++ [s.rest.take (s.cut limit)] } : Splitter).flush with
      rest := (s.rest.drop (s.cut limit)).dropWhile (· = '\n') }

/-- The next round of the loops: one of `while rest`, or else the next token. -/
def step : Option Splitter :=
  if s.rest = [] then
    match s.tokens with
    | [] => none
    | token :: tokens =>
        if isTag token then some (({ s with tokens } : Splitter).takeTag token)
        else some { s with tokens, rest := token }
  else some (s.place limit)

/-- The chunks that are returned when the loops have ended. -/
def result : List (List Char) :=
  if Text.stripChars s.current.flatten = [] then s.chunks else s.chunks ++ [s.chunk]

end Splitter

/-- `split_telegram_html`, whose loops may take the given number of rounds. -/
def splitTelegramHtml (limit : Int) (fuel : Nat) (text : List Char) : Option (List (List Char)) :=
  if text.length ≤ limit then some [text]
  else (Loop.run (Splitter.step limit) fuel (.start text)).map Splitter.result

end Split

section Steps

/-- The ways in which a round changes the variables. -/
inductive Round (limit : Int) (s : Splitter) : Splitter → Prop
  | tag {tag : List Char} {tokens : List (List Char)} (idle : s.rest = [])
      (next : s.tokens = tag :: tokens) (isTag : IsTag tag) :
      Round limit s (({ s with tokens } : Splitter).takeTag tag)
  | load {text : List Char} {tokens : List (List Char)} (idle : s.rest = [])
      (next : s.tokens = text :: tokens) (notTag : ¬ IsTag text) :
      Round limit s { s with tokens, rest := text }
  | flush (busy : s.rest ≠ []) (full : s.available limit ≤ 0) : Round limit s s.flush
  | fits (busy : s.rest ≠ []) (room : 0 < s.available limit)
      (short : s.rest.length ≤ s.available limit) :
      Round limit s { s with
        current := s.current ++ [s.rest], length := s.length + s.rest.length, rest := [] }
  | cut (busy : s.rest ≠ []) (room : 0 < s.available limit)
      (long : s.available limit < s.rest.length) :
      Round limit s { ({ s with current := s.current ++ [s.rest.take (s.cut limit)] } :
          Splitter).flush with
        rest := (s.rest.drop (s.cut limit)).dropWhile (· = '\n') }

variable {limit : Int} {s t : Splitter}

theorem round_of_step (h : s.step limit = some t) : Round limit s t := by
  unfold Splitter.step at h
  by_cases hrest : s.rest = []
  · rw [if_pos hrest] at h
    cases htokens : s.tokens with
    | nil => simp [htokens] at h
    | cons token tokens =>
        by_cases htag : isTag token = true
        · obtain rfl : _ = t := by simpa [htokens, htag] using h
          exact .tag hrest htokens (isTag_iff.1 htag)
        · obtain rfl : _ = t := by simpa [htokens, htag] using h
          exact .load hrest htokens fun h => htag (isTag_iff.2 h)
  · rw [if_neg hrest] at h
    obtain rfl := Option.some.inj h
    unfold Splitter.place
    by_cases hfull : s.available limit ≤ 0
    · rw [if_pos hfull]
      exact .flush hrest hfull
    · rw [if_neg hfull]
      have hroom : 0 < s.available limit := by omega
      by_cases hshort : (s.rest.length : Int) ≤ s.available limit
      · rw [if_pos hshort]
        exact .fits hrest hroom hshort
      · rw [if_neg hshort]
        exact .cut hrest hroom (by omega)

theorem idle_of_step_none (h : s.step limit = none) : s.rest = [] ∧ s.tokens = [] := by
  unfold Splitter.step at h
  by_cases hrest : s.rest = []
  · rw [if_pos hrest] at h
    cases htokens : s.tokens with
    | nil => exact ⟨hrest, rfl⟩
    | cons token tokens =>
        rw [htokens] at h
        by_cases htag : isTag token = true <;> simp [htag] at h
  · simp [hrest] at h

theorem rfind_lt (c : Char) (text : List Char) : rfind c text < text.length := by
  unfold rfind
  omega

/-- Where a text is cut for which there is some room. -/
def cutAt (room : Int) (text : List Char) : Nat :=
  let found := rfind '\n' (text.take (room + 1).toNat)
  if found ≤ 0 then room.toNat else found.toNat

/-- A cut takes some text, and no more than there is room for. -/
theorem cutAt_bounds {room : Int} (hroom : 0 < room) (text : List Char) :
    0 < cutAt room text ∧ (cutAt room text : Int) ≤ room := by
  have hfound := rfind_lt '\n' (text.take (room + 1).toNat)
  have hlength : (text.take (room + 1).toNat).length ≤ (room + 1).toNat := List.length_take_le _ _
  unfold cutAt
  dsimp only
  split <;> omega

theorem cut_bounds (hroom : 0 < s.available limit) :
    0 < s.cut limit ∧ (s.cut limit : Int) ≤ s.available limit :=
  cutAt_bounds hroom s.rest

/-- What is left behind a cut is shorter, whatever newlines are dropped. -/
theorem length_behind_lt {text : List Char} {n : Nat} (hn : 0 < n) (htext : text ≠ []) :
    ((text.drop n).dropWhile (· = '\n')).length < text.length := by
  have hlength := List.length_pos_of_ne_nil htext
  have hdrop := (List.dropWhile_suffix (l := text.drop n) (· = '\n')).length_le
  rw [List.length_drop] at hdrop
  omega

end Steps

section Termination

/-- The characters that a chunk spends on tags alone: those it opens again, and those that
close them. -/
def overhead (openTags : List (List Char)) : Nat :=
  (openTags.map List.length).sum + (closing openTags).length

/-- What a token leaves of `open_tags`. -/
def afterToken (openTags : List (List Char)) (token : List Char) : List (List Char) :=
  if isTag token then afterTag openTags token else openTags

/-- Every text among the tokens has room beside the tags that are open at it. -/
def RoomFor (limit : Int) : List (List Char) → List (List Char) → Prop
  | _, [] => True
  | openTags, token :: tokens =>
      (isTag token = false → overhead openTags < limit) ∧
        RoomFor limit (afterToken openTags token) tokens

/-- What holds of every place in a list holds of the first one and of those behind it. -/
theorem forall_place_cons {α : Type} {P : List α → α → Prop} {a : α} {l : List α} :
    (∀ before b after, a :: l = before ++ b :: after → P before b) ↔
      P [] a ∧ ∀ before b after, l = before ++ b :: after → P (a :: before) b := by
  constructor
  · intro h
    exact ⟨h [] a l rfl, fun before b after heq => h (a :: before) b after (by simp [heq])⟩
  · rintro ⟨hhead, htail⟩ before b after heq
    cases before with
    | nil =>
        obtain ⟨rfl, rfl⟩ := List.cons.inj heq
        exact hhead
    | cons first before =>
        obtain ⟨rfl, hrest⟩ := List.cons.inj heq
        exact htail before b after hrest

theorem roomFor_iff {limit : Int} {openTags tokens : List (List Char)} :
    RoomFor limit openTags tokens ↔ ∀ before text after, tokens = before ++ text :: after →
      isTag text = false → overhead (before.foldl afterToken openTags) < limit := by
  induction tokens generalizing openTags with
  | nil => simp [RoomFor]
  | cons token tokens ih => rw [RoomFor, ih, forall_place_cons, List.foldl_nil]; rfl

/-- There is room for the text in hand and for the texts to come. -/
def Roomy (limit : Int) (s : Splitter) : Prop :=
  (s.rest ≠ [] → overhead s.openTags < limit) ∧ RoomFor limit s.openTags s.tokens

/-- The current chunk counts its open tags, and no token to come is empty. -/
structure Counted (s : Splitter) : Prop where
  length_ge : (s.openTags.map List.length).sum ≤ s.length
  tokens_ne : ∀ token ∈ s.tokens, token ≠ []

variable {limit : Int} {s t : Splitter}

theorem sum_closeNamed_le (name : List Char) (openTags : List (List Char)) :
    ((closeNamed name openTags).map List.length).sum ≤ (openTags.map List.length).sum := by
  have hsub : List.Sublist ((closeNamed name openTags).map List.length)
      (openTags.map List.length) := by
    refine List.Sublist.map _ ?_
    simpa [closeNamed] using (List.eraseP_sublist (p := fun tag => decide (tagName tag = name))
      (l := openTags.reverse)).reverse
  exact hsub.sum_le_sum fun _ _ => Nat.zero_le _

theorem sum_afterTag_le (openTags : List (List Char)) (tag : List Char) :
    ((afterTag openTags tag).map List.length).sum ≤
      (openTags.map List.length).sum + tag.length := by
  unfold afterTag
  split
  · exact (sum_closeNamed_le _ _).trans (Nat.le_add_right _ _)
  · simp

theorem counted_step (h : Counted s) (hstep : s.step limit = some t) : Counted t := by
  cases round_of_step hstep with
  | @tag tag tokens _ next _ =>
      refine ⟨(sum_afterTag_le s.openTags tag).trans (Nat.add_le_add_right h.length_ge _), ?_⟩
      exact fun token hmem => h.tokens_ne token (next ▸ List.mem_cons_of_mem _ hmem)
  | load _ next _ =>
      exact ⟨h.length_ge, fun token hmem => h.tokens_ne token (next ▸ List.mem_cons_of_mem _ hmem)⟩
  | flush => exact ⟨le_rfl, h.tokens_ne⟩
  | fits => exact ⟨h.length_ge.trans (Nat.le_add_right _ _), h.tokens_ne⟩
  | cut => exact ⟨le_rfl, h.tokens_ne⟩

/-- Room for some text is room beside the open tags. -/
theorem overhead_lt_of_available (h : Counted s) (hroom : 0 < s.available limit) :
    overhead s.openTags < limit := by
  have hlength := h.length_ge
  unfold Splitter.available at hroom
  unfold overhead
  omega

theorem roomy_step_iff (h : Counted s) (hstep : s.step limit = some t) :
    Roomy limit t ↔ Roomy limit s := by
  cases round_of_step hstep with
  | tag idle next isTag =>
      simp [Roomy, idle, next, RoomFor, afterToken, isTag_iff.2 isTag, Splitter.takeTag]
  | @load text tokens idle next notTag =>
      have htext : text ≠ [] := h.tokens_ne text (by simp [next])
      have hfalse : isTag text = false := by simpa using mt isTag_iff.1 notTag
      simp [Roomy, idle, next, RoomFor, afterToken, hfalse, htext]
  | flush busy => simp [Roomy, busy, Splitter.flush]
  | fits busy room =>
      have hover := overhead_lt_of_available h room
      simp [Roomy, hover]
  | cut busy room =>
      have hover := overhead_lt_of_available h room
      simp [Roomy, hover, Splitter.flush]

/-- How much is left to do. A flush that makes room for text counts as some of it. -/
def work (limit : Int) (s : Splitter) : Nat :=
  (s.tokens.map fun token => 2 * token.length + 2).sum + 2 * s.rest.length +
    if s.rest ≠ [] ∧ s.available limit ≤ 0 then 1 else 0

theorem work_lt (h : Roomy limit s) (hstep : s.step limit = some t) :
    work limit t < work limit s := by
  cases round_of_step hstep with
  | tag idle next isTag => simp [work, idle, next, Splitter.takeTag]
  | load idle next notTag =>
      simp only [work, idle, next, List.map_cons, List.sum_cons, List.length_nil]
      split <;> simp_all <;> omega
  | flush busy full =>
      have hover := h.1 busy
      have hroom : ¬ s.flush.available limit ≤ 0 := by
        simp only [Splitter.available, Splitter.flush]
        unfold overhead at hover
        omega
      have hafter : ¬ (s.flush.rest ≠ [] ∧ s.flush.available limit ≤ 0) := fun hboth => hroom hboth.2
      rw [work, work, if_neg hafter, if_pos ⟨busy, full⟩]
      exact Nat.lt_succ_self _
  | fits busy room short =>
      have hlength := List.length_pos_of_ne_nil busy
      have hbefore : ¬ (s.rest ≠ [] ∧ s.available limit ≤ 0) := by omega
      rw [work, work, if_neg hbefore, if_neg (by simp)]
      simp only [List.length_nil]
      omega
  | cut busy room long =>
      obtain ⟨hpos, hcut⟩ := cut_bounds room
      have hbefore : ¬ (s.rest ≠ [] ∧ s.available limit ≤ 0) := by omega
      have hdrop : ((s.rest.drop (s.cut limit)).dropWhile (· = '\n')).length ≤
          s.rest.length - s.cut limit := by
        rw [← List.length_drop]
        exact (List.dropWhile_suffix _).length_le
      rw [work, work, if_neg hbefore]
      split <;> simp only [Splitter.flush] <;> omega

/-- Where the text does not fit, the loops end exactly if there is room for all of it. -/
theorem ends_iff_roomy (limit : Int) (text : List Char) :
    (∃ fuel t, Loop.run (Splitter.step limit) fuel (.start text) = some t) ↔
      Roomy limit (.start text) := by
  refine Loop.ends_iff (I := Counted) (work limit) (fun s t => counted_step) (fun s t => roomy_step_iff)
    (fun s _ hnone => ?_) (fun s t _ => work_lt) ⟨le_rfl, (tidy_tokenize text).ne_nil⟩
  obtain ⟨hrest, htokens⟩ := idle_of_step_none hnone
  simp [Roomy, RoomFor, hrest, htokens]

theorem returns_iff_roomy {limit : Int} {text : List Char} (hlong : limit < text.length) :
    (∃ fuel chunks, splitTelegramHtml limit fuel text = some chunks) ↔
      Roomy limit (.start text) := by
  rw [← ends_iff_roomy]
  simp [splitTelegramHtml, Int.not_le.2 hlong, Option.map_eq_some_iff]

/-- The split returns exactly if the text fits as a whole or, at every text between tags, the
open tags and the tags that close them are shorter than the limit. -/
theorem splitTelegramHtml_returns_iff (limit : Int) (text : List Char) :
    (∃ fuel chunks, splitTelegramHtml limit fuel text = some chunks) ↔
      text.length ≤ limit ∨ ∀ before token after, tokenize text = before ++ token :: after →
        isTag token = false → overhead (before.foldl afterToken []) < limit := by
  by_cases hfits : text.length ≤ limit
  · simp [splitTelegramHtml, hfits]
  · rw [returns_iff_roomy (Int.not_le.1 hfits), ← roomFor_iff]
    simp [Roomy, Splitter.start, hfits]

/-- A link that is longer than the limit, with text in it. -/
theorem long_link_never_returns : ¬ ∀ (limit : Int) (text : List Char), 1 ≤ limit →
    ∃ fuel chunks, splitTelegramHtml limit fuel text = some chunks := by
  intro h
  have hroomy := (returns_iff_roomy (by decide)).1
    (h 20 "<a href=\"http://a/bc\">x</a>".toList (by decide))
  have hshort := roomFor_iff.1 hroomy.2 ["<a href=\"http://a/bc\">".toList] ['x'] ["</a>".toList]
    (by decide) (by decide)
  revert hshort
  decide

end Termination

section Places

/-- How a text is laid out behind so many characters of the current chunk, in so many rounds:
the length of the chunk that is current then, and the texts that have been cut, with the places. -/
def layOut (limit : Int) (openTags : List (List Char)) :
    Nat → Nat → List Char → Nat × List (List Char × Nat)
  | 0, length, _ => (length, [])
  | rounds + 1, length, text =>
      let room := limit - length - (closing openTags).length
      let reopened := (openTags.map List.length).sum
      if text = [] then (length, [])
      else if room ≤ 0 then layOut limit openTags rounds reopened text
      else if text.length ≤ room then (length + text.length, [])
      else
        let behind := layOut limit openTags rounds reopened
          ((text.drop (cutAt room text)).dropWhile (· = '\n'))
        (behind.1, (text, cutAt room text) :: behind.2)

/-- What is asked of every tag, given the length of the current chunk and the tags that are open
at it, and of every place at which a text is cut. -/
def Along (limit : Int) (tagOk : Nat → List (List Char) → List Char → Prop)
    (cutOk : List Char → Nat → Prop) : Nat → List (List Char) → List (List Char) → Prop
  | _, _, [] => True
  | length, openTags, token :: tokens =>
      if isTag token then
        tagOk length openTags token ∧
          Along limit tagOk cutOk (length + token.length) (afterTag openTags token) tokens
      else
        let laid := layOut limit openTags (token.length + 1) length token
        (∀ cut ∈ laid.2, cutOk cut.1 cut.2) ∧ Along limit tagOk cutOk laid.1 openTags tokens

variable {limit : Int} {s t : Splitter} {tagOk : Nat → List (List Char) → List Char → Prop}
  {cutOk : List Char → Nat → Prop} {openTags : List (List Char)}

theorem layOut_nil (limit : Int) (openTags : List (List Char)) (rounds length : Nat) :
    layOut limit openTags rounds length [] = (length, []) := by
  cases rounds <;> simp [layOut]

/-- Behind the open tags alone every round takes some of the text. -/
theorem layOut_reopened (hroom : overhead openTags < limit) {rounds : Nat} {text : List Char}
    (hrounds : text.length ≤ rounds) :
    layOut limit openTags rounds (openTags.map List.length).sum text =
      layOut limit openTags text.length (openTags.map List.length).sum text := by
  induction hlength : text.length using Nat.strong_induction_on generalizing rounds text with
  | h n ih =>
      by_cases hnil : text = []
      · rw [hnil, layOut_nil, layOut_nil]
      have hpos := List.length_pos_of_ne_nil hnil
      obtain ⟨rounds, rfl⟩ := Nat.exists_eq_succ_of_ne_zero (show rounds ≠ 0 by omega)
      obtain ⟨n, rfl⟩ := Nat.exists_eq_succ_of_ne_zero (show n ≠ 0 by omega)
      unfold overhead at hroom
      have hsome : ¬ limit - (openTags.map List.length).sum - (closing openTags).length ≤ 0 := by
        omega
      simp only [layOut, if_neg hnil, if_neg hsome]
      split
      · rfl
      · next hlong =>
          have hbehind := length_behind_lt (cutAt_bounds (Int.not_le.1 hsome) text).1 hnil
          have hfewer : ∀ k, n ≤ k → layOut limit openTags k _ _ = layOut limit openTags _ _ _ :=
            fun k hk => ih _ (hlength ▸ hbehind) ((Nat.le_of_lt_succ (hlength ▸ hbehind)).trans hk) rfl
          rw [hfewer rounds (by omega), hfewer n le_rfl]

/-- What is asked of the round to come: of the tag that it takes, or of the place at which it
cuts. -/
def Asked (limit : Int) (tagOk : Nat → List (List Char) → List Char → Prop)
    (cutOk : List Char → Nat → Prop) (s : Splitter) : Prop :=
  (∀ tag tokens, s.rest = [] → s.tokens = tag :: tokens → IsTag tag →
    tagOk s.length s.openTags tag) ∧
  (s.rest ≠ [] → 0 < s.available limit → s.available limit < s.rest.length →
    cutOk s.rest (s.cut limit))

/-- What is asked of the text in hand and of the tokens to come. -/
def AskedAhead (limit : Int) (tagOk : Nat → List (List Char) → List Char → Prop)
    (cutOk : List Char → Nat → Prop) (s : Splitter) : Prop :=
  let laid := layOut limit s.openTags (s.rest.length + 1) s.length s.rest
  (∀ cut ∈ laid.2, cutOk cut.1 cut.2) ∧ Along limit tagOk cutOk laid.1 s.openTags s.tokens

theorem askedAhead_idle (hidle : s.rest = []) :
    AskedAhead limit tagOk cutOk s ↔ Along limit tagOk cutOk s.length s.openTags s.tokens := by
  unfold AskedAhead
  rw [hidle, layOut_nil]
  simp

theorem asked_busy (hbusy : s.rest ≠ []) : Asked limit tagOk cutOk s ↔
    (0 < s.available limit → s.available limit < s.rest.length → cutOk s.rest (s.cut limit)) := by
  unfold Asked
  simp [hbusy]

/-- The round to come, and then the rest. -/
theorem askedAhead_step (hroomy : Roomy limit s) (hstep : s.step limit = some t) :
    AskedAhead limit tagOk cutOk s ↔ Asked limit tagOk cutOk s ∧ AskedAhead limit tagOk cutOk t := by
  cases round_of_step hstep with
  | @tag tag tokens idle next isTag =>
      have hasked : Asked limit tagOk cutOk s ↔ tagOk s.length s.openTags tag := by
        simp [Asked, idle, next, isTag]
      rw [askedAhead_idle idle, askedAhead_idle (by exact idle), hasked, next, Along,
        if_pos (isTag_iff.2 isTag)]
      rfl
  | @load text tokens idle next notTag =>
      have hasked : Asked limit tagOk cutOk s := by simp [Asked, idle, next, notTag]
      rw [askedAhead_idle idle, next, Along, if_neg (mt isTag_iff.1 notTag), and_iff_right hasked]
      rfl
  | flush busy full =>
      have hover := hroomy.1 busy
      have hasked : Asked limit tagOk cutOk s :=
        (asked_busy busy).2 fun hroom => absurd full (Int.not_le.2 hroom)
      have hlaid : layOut limit s.openTags (s.rest.length + 1) s.length s.rest =
          layOut limit s.openTags s.rest.length (s.openTags.map List.length).sum s.rest := by
        have hfull : limit - s.length - (closing s.openTags).length ≤ 0 := full
        simp only [layOut, if_neg busy, if_pos hfull]
      rw [and_iff_right hasked, AskedAhead, hlaid, ← layOut_reopened hover (Nat.le_succ _)]
      rfl
  | fits busy room short =>
      have hasked : Asked limit tagOk cutOk s :=
        (asked_busy busy).2 fun _ hlong => absurd short (Int.not_le.2 hlong)
      have hlaid : layOut limit s.openTags (s.rest.length + 1) s.length s.rest =
          (s.length + s.rest.length, []) := by
        have hroom : ¬ limit - s.length - (closing s.openTags).length ≤ 0 := Int.not_le.2 room
        have hshort : (s.rest.length : Int) ≤ limit - s.length - (closing s.openTags).length := short
        simp only [layOut, if_neg busy, if_neg hroom, if_pos hshort]
      rw [and_iff_right hasked, AskedAhead, hlaid, askedAhead_idle rfl]
      simp
  | cut busy room long =>
      have hover := hroomy.1 busy
      have hasked : Asked limit tagOk cutOk s ↔ cutOk s.rest (s.cut limit) := by
        rw [asked_busy busy]
        exact ⟨fun h => h room long, fun h _ _ => h⟩
      have hbehind := length_behind_lt (cut_bounds room).1 busy
      have hlaid : layOut limit s.openTags (s.rest.length + 1) s.length s.rest =
          let behind := layOut limit s.openTags
            (((s.rest.drop (s.cut limit)).dropWhile (· = '\n')).length + 1)
            (s.openTags.map List.length).sum ((s.rest.drop (s.cut limit)).dropWhile (· = '\n'))
          (behind.1, (s.rest, s.cut limit) :: behind.2) := by
        have hroom : ¬ limit - s.length - (closing s.openTags).length ≤ 0 := Int.not_le.2 room
        have hlong : ¬ (s.rest.length : Int) ≤ limit - s.length - (closing s.openTags).length :=
          Int.not_le.2 long
        dsimp only
        rw [layOut_reopened hover (Nat.le_succ _), ← layOut_reopened hover hbehind.le]
        simp only [layOut, if_neg busy, if_neg hroom, if_neg hlong]
        rfl
      rw [hasked, AskedAhead, hlaid]
      dsimp only
      rw [List.forall_mem_cons, and_assoc]
      rfl

theorem asked_iff_along {text : List Char} (hroomy : Roomy limit (.start text))
    (hreach : StateTransition.Reaches (Splitter.step limit) (.start text) t)
    (hend : t.step limit = none) :
    (∀ s t, StateTransition.Reaches (Splitter.step limit) (.start text) s →
        s.step limit = some t → Asked limit tagOk cutOk s) ↔
      Along limit tagOk cutOk 0 [] (tokenize text) := by
  have hcounted : Counted (.start text) := ⟨le_rfl, (tidy_tokenize text).ne_nil⟩
  have hstart : AskedAhead limit tagOk cutOk (.start text) ↔
      Along limit tagOk cutOk 0 [] (tokenize text) := askedAhead_idle rfl
  rw [← hstart]
  refine Loop.allowed_iff (I := fun s => Counted s ∧ Roomy limit s) ?_ ?_ ?_ ⟨hcounted, hroomy⟩
    hreach hend
  · exact fun s t hs hstep => ⟨counted_step hs.1 hstep, (roomy_step_iff hs.1 hstep).2 hs.2⟩
  · exact fun s t hs hstep => askedAhead_step hs.2 hstep
  · intro s _ hnone
    obtain ⟨hrest, htokens⟩ := idle_of_step_none hnone
    rw [askedAhead_idle hrest, htokens]
    trivial

end Places

section Limit

/-- The length of the chunk that a flush would emit. -/
def Splitter.size (s : Splitter) : Nat := s.length + (closing s.openTags).length

variable {limit : Int} {s t : Splitter}

theorem length_flatMap_eraseP_le {α β : Type} {p : α → Bool} {f : α → List β} {k : Nat}
    (hk : ∀ a, p a = true → (f a).length ≤ k) (l : List α) :
    (l.flatMap f).length ≤ ((l.eraseP p).flatMap f).length + k := by
  induction l with
  | nil => simp
  | cons a l ih =>
      by_cases ha : p a = true
      · have hfirst := hk a ha
        simp only [List.eraseP_cons_of_pos ha, List.flatMap_cons, List.length_append]
        omega
      · simp only [List.eraseP_cons_of_neg ha, List.flatMap_cons, List.length_append]
        omega

/-- A tag makes the chunk no shorter: it takes at least the place of the tag that would have
closed the one it closes. -/
theorem length_closing_le {tag : List Char} (htag : IsTag tag) (openTags : List (List Char)) :
    (closing openTags).length ≤ tag.length + (closing (afterTag openTags tag)).length := by
  unfold afterTag
  split
  case isTrue hslash =>
    have hlong : (tagName tag).length + 3 ≤ tag.length := by
      obtain ⟨slash, tail, hform, hne, hletters, htail, heq⟩ := htag.exists_name
      have hpos := List.length_pos_of_ne_nil htail
      rcases hform with rfl | rfl
      · obtain ⟨c, rest, hname⟩ := List.exists_cons_of_ne_nil hne
        have hc : isLetter c = true := hletters c (by simp [hname])
        rw [heq, hname] at hslash
        have hc' : '/' = c := by simpa using hslash
        subst hc'
        cases hc
      · have hlength := congrArg List.length heq
        simp only [List.length_cons, List.length_append, List.length_nil] at hlength
        omega
    have herase := length_flatMap_eraseP_le (p := fun other => decide (tagName other = tagName tag))
      (f := fun other => ['<', '/'] ++ tagName other ++ ['>']) (k := (tagName tag).length + 3)
      (fun other hother => by simp [of_decide_eq_true hother]) openTags.reverse
    rw [closing, closing, closeNamed, List.reverse_reverse]
    omega
  case isFalse =>
    simp only [closing, List.reverse_append, List.flatMap_append, List.length_append]
    omega

/-- What the chunks' lengths are read from: `length` counts the current chunk, the open tags
are tags, and blank text alone keeps to the limit. -/
structure Measured (limit : Int) (s : Splitter) : Prop where
  counted : Counted s
  roomy : Roomy limit s
  length_eq : s.length = s.current.flatten.length
  openTags_isTag : ∀ tag ∈ s.openTags, IsTag tag
  blank : Text.stripChars s.current.flatten = [] → s.size ≤ limit ∨ s.size = 0

theorem Measured.length_chunk (h : Measured limit s) : s.chunk.length = s.size := by
  simp [Splitter.chunk, Splitter.size, h.length_eq]

theorem not_blank_of_isTag {tag : List Char} (h : IsTag tag) {current : List (List Char)}
    (hmem : tag ∈ current) : Text.stripChars current.flatten ≠ [] := by
  obtain ⟨slash, c, body, -, -, -, rfl⟩ := h
  intro hblank
  have hspace := Text.stripChars_eq_nil_iff.1 hblank '<' (List.mem_flatten.2 ⟨_, hmem, by simp⟩)
  exact absurd hspace (by decide)

theorem mem_afterTag {tag other : List Char} {openTags : List (List Char)}
    (h : other ∈ afterTag openTags tag) : other ∈ openTags ∨ other = tag := by
  unfold afterTag at h
  split at h
  · exact .inl (List.mem_reverse.1 (List.mem_of_mem_eraseP (List.mem_reverse.1 h)))
  · simpa using h

/-- After a flush a blank chunk has no tags at all. -/
theorem size_flush_of_blank {openTags : List (List Char)} (htags : ∀ tag ∈ openTags, IsTag tag)
    (hblank : Text.stripChars openTags.flatten = []) : overhead openTags = 0 := by
  cases openTags with
  | nil => rfl
  | cons tag rest => exact absurd hblank (not_blank_of_isTag (htags tag (by simp)) (by simp))

theorem measured_step (h : Measured limit s) (hstep : s.step limit = some t) : Measured limit t := by
  have hcounted := counted_step h.counted hstep
  have hroomy := (roomy_step_iff h.counted hstep).2 h.roomy
  cases round_of_step hstep with
  | @tag tag tokens idle next isTag =>
      refine ⟨hcounted, hroomy, by simp [Splitter.takeTag, h.length_eq], ?_, ?_⟩
      · intro other hother
        rcases mem_afterTag hother with hold | rfl
        · exact h.openTags_isTag other hold
        · exact isTag
      · intro hblank
        exact absurd hblank (not_blank_of_isTag isTag (by simp [Splitter.takeTag]))
  | load => exact ⟨hcounted, hroomy, h.length_eq, h.openTags_isTag, h.blank⟩
  | flush =>
      refine ⟨hcounted, hroomy, by simp [Splitter.flush], h.openTags_isTag, fun hblank => ?_⟩
      exact .inr (size_flush_of_blank h.openTags_isTag hblank)
  | fits busy room short =>
      refine ⟨hcounted, hroomy, by simp [h.length_eq], h.openTags_isTag, fun _ => .inl ?_⟩
      unfold Splitter.available at short
      simp only [Splitter.size]
      omega
  | cut =>
      refine ⟨hcounted, hroomy, by simp [Splitter.flush], h.openTags_isTag, fun hblank => ?_⟩
      exact .inr (size_flush_of_blank h.openTags_isTag hblank)

/-- What has been emitted, and what would be if the loops ended here, keeps to the limit. -/
def Within (limit : Int) (s : Splitter) : Prop := ∀ chunk ∈ s.result, chunk.length ≤ limit

theorem within_iff (h : Measured limit s) : Within limit s ↔
    (∀ chunk ∈ s.chunks, chunk.length ≤ limit) ∧
      (Text.stripChars s.current.flatten ≠ [] → s.size ≤ limit) := by
  unfold Within Splitter.result
  split
  case isTrue hblank => simp [hblank]
  case isFalse hblank => simp [hblank, or_imp, forall_and, h.length_chunk]

theorem available_eq : s.available limit = limit - s.size := by
  simp only [Splitter.available, Splitter.size]
  omega

/-- The next tag, if it is taken now, fits with all the tags that close what is open then. -/
def TagFits (limit : Int) (s : Splitter) : Prop :=
  ∀ tag tokens, s.rest = [] → s.tokens = tag :: tokens → IsTag tag →
    s.length + tag.length + (closing (afterTag s.openTags tag)).length ≤ limit

theorem within_step_iff (h : Measured limit s) (hgood : Within limit s)
    (hstep : s.step limit = some t) : Within limit t ↔ TagFits limit s := by
  have hmeasured := measured_step h hstep
  obtain ⟨hchunks, hsize⟩ := (within_iff h).1 hgood
  rw [within_iff hmeasured]
  cases round_of_step hstep with
  | @tag tag tokens idle next isTag =>
      have hink : Text.stripChars (({ s with tokens } : Splitter).takeTag tag).current.flatten ≠ [] :=
        not_blank_of_isTag isTag (by simp [Splitter.takeTag])
      constructor
      · rintro ⟨-, hnext⟩ other tokens' - hother -
        rw [next] at hother
        obtain ⟨rfl, -⟩ := List.cons.inj hother
        exact_mod_cast hnext hink
      · intro hfits
        exact ⟨hchunks, fun _ => by exact_mod_cast hfits tag tokens idle next isTag⟩
  | @load text tokens idle next notTag =>
      refine ⟨fun _ tag tokens' _ htag hisTag => ?_, fun _ => ⟨hchunks, hsize⟩⟩
      rw [next] at htag
      exact absurd ((List.cons.inj htag).1 ▸ hisTag) notTag
  | flush busy full =>
      refine ⟨fun _ _ _ idle => absurd idle busy, fun _ => ⟨?_, fun _ => ?_⟩⟩
      · have hover := h.roomy.1 busy
        have hchunk : (s.chunk.length : Int) ≤ limit := by
          rw [h.length_chunk]
          by_cases hblank : Text.stripChars s.current.flatten = []
          · rcases h.blank hblank with hle | hzero <;> omega
          · exact hsize hblank
        simpa [Splitter.flush, or_imp, forall_and, hchunk] using hchunks
      · exact (h.roomy.1 busy).le
  | fits busy room short =>
      refine ⟨fun _ _ _ idle => absurd idle busy, fun _ => ⟨hchunks, fun _ => ?_⟩⟩
      rw [available_eq] at short
      simp only [Splitter.size] at short ⊢
      omega
  | cut busy room long =>
      refine ⟨fun _ _ _ idle => absurd idle busy, fun _ => ⟨?_, fun _ => (h.roomy.1 busy).le⟩⟩
      have hcut := (cut_bounds room).2
      rw [available_eq] at hcut
      have hchunk : (({ s with current := s.current ++ [s.rest.take (s.cut limit)] } :
          Splitter).chunk.length : Int) ≤ limit := by
        have htake := List.length_take_le (s.cut limit) s.rest
        simp only [Splitter.chunk, List.flatten_append, List.flatten_singleton, List.length_append,
          ← h.length_eq]
        simp only [Splitter.size] at hcut
        omega
      simpa [Splitter.flush, or_imp, forall_and, hchunk] using hchunks

/-- A chunk that is too long stays so, and a current chunk that is too long is emitted. -/
theorem within_of_step (h : Measured limit s) (hstep : s.step limit = some t)
    (hgood : Within limit t) : Within limit s := by
  obtain ⟨hchunks, hsize⟩ := (within_iff (measured_step h hstep)).1 hgood
  rw [within_iff h]
  cases round_of_step hstep with
  | @tag tag tokens idle next isTag =>
      refine ⟨hchunks, fun _ => ?_⟩
      have hnext := hsize (not_blank_of_isTag isTag (by simp [Splitter.takeTag]))
      have hclosing := length_closing_le isTag s.openTags
      simp only [Splitter.size, Splitter.takeTag] at hnext ⊢
      omega
  | load => exact ⟨hchunks, hsize⟩
  | flush =>
      refine ⟨fun chunk hmem => hchunks chunk (by simp [Splitter.flush, hmem]), fun _ => ?_⟩
      rw [← h.length_chunk]
      exact hchunks s.chunk (by simp [Splitter.flush])
  | fits busy room =>
      refine ⟨hchunks, fun _ => ?_⟩
      rw [available_eq] at room
      omega
  | cut busy room =>
      refine ⟨fun chunk hmem => hchunks chunk (by simp [Splitter.flush, hmem]), fun _ => ?_⟩
      rw [available_eq] at room
      omega

theorem measured_start {text : List Char} (h : Roomy limit (.start text)) :
    Measured limit (.start text) :=
  ⟨⟨le_rfl, (tidy_tokenize text).ne_nil⟩, h, rfl, by simp [Splitter.start], fun _ => .inr rfl⟩

/-- What a split that returns has gone through. -/
theorem exists_end_of_returns {fuel : Nat} {text : List Char} {chunks : List (List Char)}
    (hlong : limit < text.length) (h : splitTelegramHtml limit fuel text = some chunks) :
    ∃ t, StateTransition.Reaches (Splitter.step limit) (.start text) t ∧ t.step limit = none ∧
      Roomy limit (.start text) ∧ chunks = t.result := by
  have hroomy := (returns_iff_roomy hlong).1 ⟨fuel, chunks, h⟩
  rw [splitTelegramHtml, if_neg (Int.not_le.2 hlong)] at h
  obtain ⟨t, hrun, rfl⟩ := Option.map_eq_some_iff.1 h
  obtain ⟨hreach, hend⟩ := Loop.exists_run_iff.1 ⟨fuel, hrun⟩
  exact ⟨t, hreach, hend, hroomy, rfl⟩

/-- A tag fits behind so many characters of a chunk with all the tags that close what is open
then. -/
def Closable (limit : Int) (length : Nat) (openTags : List (List Char)) (tag : List Char) : Prop :=
  length + tag.length + (closing (afterTag openTags tag)).length ≤ limit

/-- Every tag of these tokens fits where the texts before it, laid out, leave it. -/
def TagsFit (limit : Int) (tokens : List (List Char)) : Prop :=
  Along limit (Closable limit) (fun _ _ => True) 0 [] tokens

theorem asked_iff_tagFits :
    Asked limit (Closable limit) (fun _ _ => True) s ↔ TagFits limit s := by
  simp [Asked, TagFits, Closable]

/-- The chunks of a split that returns keep to the limit exactly if the text fits as a whole or
every tag, where it is taken, fits into the current chunk with the tags that close it. -/
theorem chunks_within_iff {fuel : Nat} {text : List Char} {chunks : List (List Char)}
    (h : splitTelegramHtml limit fuel text = some chunks) :
    (∀ chunk ∈ chunks, chunk.length ≤ limit) ↔
      text.length ≤ limit ∨ TagsFit limit (tokenize text) := by
  by_cases hfits : text.length ≤ limit
  · obtain rfl : [text] = chunks := by simpa [splitTelegramHtml, hfits] using h
    simp [hfits]
  · obtain ⟨t, hreach, hend, hroomy, rfl⟩ := exists_end_of_returns (Int.not_le.1 hfits) h
    have hstart := measured_start hroomy
    have hgood : Within limit (.start text) := by
      simp [Within, Splitter.result, Splitter.start, Text.stripChars]
    have hiff := Loop.good_at_end_iff (fun s t => measured_step)
      (fun s t hs (hgood : Within limit s) => within_step_iff hs hgood)
      (fun s t hs hnot hstep => mt (within_of_step hs hstep) hnot) hstart hgood hreach hend
    have halong := @asked_iff_along limit t (Closable limit) (fun _ _ => True) text hroomy hreach
      hend
    simp only [asked_iff_tagFits] at halong
    rw [or_iff_right hfits]
    exact hiff.trans halong

/-- Bold text that is cut once: both chunks are as long as the limit allows, and both tags fit. -/
theorem chunks_within_bold : (∀ chunk ∈ ["<b>xxxxx</b>".toList, "<b>xxxxx</b>".toList],
    (chunk.length : Int) ≤ 12) ∧ TagsFit 12 (tokenize "<b>xxxxxxxxxx</b>".toList) := by
  have hsplit : splitTelegramHtml 12 9 "<b>xxxxxxxxxx</b>".toList =
      some ["<b>xxxxx</b>".toList, "<b>xxxxx</b>".toList] := by decide
  have hshort : ∀ chunk ∈ ["<b>xxxxx</b>".toList, "<b>xxxxx</b>".toList],
      (chunk.length : Int) ≤ 12 := by decide
  exact ⟨hshort, ((chunks_within_iff hsplit).1 hshort).resolve_left (by decide)⟩

/-- At every tag of the text the open tags, the tag and the tags that close all of them are
shorter than the limit. -/
def Spacious (limit : Int) (text : List Char) : Prop :=
  ∀ before tag after, tokenize text = before ++ tag :: after → isTag tag = true →
    ((before.foldl afterToken []).map List.length).sum + tag.length +
      (closing (before.foldl afterToken [] ++ [tag])).length < limit

/-- A tag is put behind text that has used up the limit. -/
theorem tag_exceeds_limit : ¬ ∀ (limit : Int) (text : List Char), Spacious limit text →
    ∀ fuel chunks, splitTelegramHtml limit fuel text = some chunks →
      ∀ chunk ∈ chunks, (chunk.length : Int) ≤ limit := by
  intro h
  have hspacious : Spacious 16 "aaaaaaaaaaaaaaaa<b>b</b>".toList := by
    have htokens : tokenize "aaaaaaaaaaaaaaaa<b>b</b>".toList =
        ["aaaaaaaaaaaaaaaa".toList, "<b>".toList, ['b'], "</b>".toList] := by decide
    unfold Spacious
    simp only [htokens, forall_place_cons]
    exact ⟨by decide, by decide, by decide, by decide, by simp⟩
  have hchunk := h 16 _ hspacious 9 ["aaaaaaaaaaaaaaaa<b></b>".toList, "<b>b</b>".toList]
    (by decide) "aaaaaaaaaaaaaaaa<b></b>".toList (by simp)
  revert hchunk
  decide

end Limit

end GraphAgent.Telegram
