import GraphAgent.Library.Regex
import Mathlib.Data.List.TakeWhile
import Mathlib.Data.List.Chain

/-!
# Tags of Telegram messages

The tags that `_TAG` finds in the HTML of a message, their names, the tokens of a message,
and the plain text that is left when the tags are taken out.
-/

namespace GraphAgent.Telegram

open Regex Regex.Pattern

section Patterns

/-- `[a-zA-Z]` -/
def isLetter (c : Char) : Bool := c.isAlpha

/-- `_TAG` -/
def tagPattern : Pattern :=
  all [literal ['<'], opt (literal ['/']), .char isLetter, .star true (.char fun c => c ≠ '>'),
    literal ['>']]

/-- `_TAG_NAME` -/
def tagNamePattern : Pattern :=
  all [literal ['<'], opt (literal ['/']), .group 1 (plus true (.char isLetter))]

/-- `_TAG.fullmatch(token)` -/
def isTag (token : List Char) : Bool := fullmatch tagPattern token

/-- `_tag_name` -/
def tagName (tag : List Char) : List Char :=
  match matchAt tagNamePattern none tag with
  | some m => (m.group? 1).getD []
  | none => []

/-- `_closing` -/
def closing (openTags : List (List Char)) : List Char :=
  openTags.reverse.flatMap fun tag => ['<', '/'] ++ tagName tag ++ ['>']

/-- The tokens of scanned text, where some text stands before it that belongs to no token
yet. -/
def tokensFrom : List Char → List Segment → List (List Char)
  | gap, [] => if gap.isEmpty then [] else [gap]
  | gap, .plain c :: rest => tokensFrom (gap ++ [c]) rest
  | gap, .found m :: rest =>
      (if gap.isEmpty then [] else [gap]) ++ m.text :: tokensFrom [] rest

/-- `_tokenize` -/
def tokenize (text : List Char) : List (List Char) := tokensFrom [] (segments tagPattern text)

end Patterns

section Shape

/-- The form of a tag: an opening or a closing one, and no other `>` than its last
character. -/
def IsTag (tag : List Char) : Prop :=
  ∃ slash c body, (slash = [] ∨ slash = ['/']) ∧ isLetter c = true ∧ '>' ∉ body ∧
    tag = '<' :: slash ++ c :: body ++ ['>']

theorem IsTag.ne_nil {tag : List Char} (h : IsTag tag) : tag ≠ [] := by
  obtain ⟨slash, c, body, -, -, -, rfl⟩ := h
  simp

theorem isLetter_ne {c d : Char} (h : isLetter c = true) (hd : isLetter d = false := by decide) :
    c ≠ d := by
  rintro rfl
  rw [h] at hd
  cases hd

/-- A tag ends at its first `>`. -/
theorem IsTag.exists_front {tag : List Char} (h : IsTag tag) :
    ∃ front, '>' ∉ front ∧ tag = front ++ ['>'] := by
  obtain ⟨slash, c, body, hslash, hc, hbody, rfl⟩ := h
  refine ⟨'<' :: slash ++ c :: body, ?_, rfl⟩
  have hgt : '>' ≠ c := (isLetter_ne hc).symm
  rcases hslash with rfl | rfl <;> simp [hgt, hbody]

/-- Two tags at the beginning of one text are the same. -/
theorem IsTag.unique {tag other rest more : List Char} (h : IsTag tag) (hother : IsTag other)
    (heq : tag ++ rest = other ++ more) : tag = other := by
  have hfront : ∀ {front : List Char}, '>' ∉ front → ∀ tail,
      (front ++ ['>'] ++ tail).takeWhile (· ≠ '>') = front := by
    intro front hnone tail
    rw [List.append_assoc, List.takeWhile_append_of_pos fun a ha => by
      simpa using fun heq : a = '>' => hnone (heq ▸ ha)]
    simp
  obtain ⟨front, hnone, rfl⟩ := h.exists_front
  obtain ⟨front', hnone', rfl⟩ := hother.exists_front
  have htake := congrArg (List.takeWhile (· ≠ '>')) heq
  rw [hfront hnone, hfront hnone'] at htake
  rw [htake]

theorem mem_results_tag {c d : Cursor} :
    d ∈ results tagPattern c ↔ ∃ tag rest, IsTag tag ∧ c.rest = tag ++ rest ∧ d = c.past tag rest := by
  simp only [tagPattern, all, opt, mem_results_seq, mem_results_alt, mem_results_literal,
    mem_results_empty, mem_results_char, mem_results_star_char]
  constructor
  · rintro ⟨-, ⟨r₁, h₁, rfl⟩, e₂, he₂, -, ⟨a, r₃, ha, h₃, rfl⟩, -, ⟨w, r₄, hw, h₄, rfl⟩, r₅, h₅, rfl⟩
    obtain ⟨slash, r₂, hslash, hrest, rfl⟩ : ∃ slash r₂, (slash = [] ∨ slash = ['/']) ∧
        r₁ = slash ++ r₂ ∧ e₂ = (c.past ['<'] r₁).past slash r₂ := by
      rcases he₂ with ⟨r₂, h₂, rfl⟩ | rfl
      · exact ⟨['/'], r₂, .inr rfl, h₂, rfl⟩
      · exact ⟨[], r₁, .inl rfl, rfl, rfl⟩
    simp only [Cursor.past_rest] at h₃ h₄ h₅
    refine ⟨'<' :: slash ++ a :: w ++ ['>'], r₅, ⟨slash, a, w, hslash, ha, ?_, rfl⟩, ?_, ?_⟩
    · exact fun hmem => by simpa using hw _ hmem
    · rw [h₁, hrest, h₃, h₄, h₅]
      simp
    · simp only [Cursor.past_past]
      simp
  · rintro ⟨tag, rest, ⟨slash, a, w, hslash, ha, hw, rfl⟩, hrest, rfl⟩
    refine ⟨c.past ['<'] (slash ++ a :: w ++ '>' :: rest), ⟨_, ?_, rfl⟩,
      c.past ('<' :: slash) (a :: w ++ '>' :: rest), ?_,
      c.past ('<' :: slash ++ [a]) (w ++ '>' :: rest), ⟨a, _, ha, rfl, ?_⟩,
      c.past ('<' :: slash ++ a :: w) ('>' :: rest), ⟨w, _, ?_, rfl, ?_⟩, rest, rfl, ?_⟩
    · rw [hrest]
      simp
    · rcases hslash with rfl | rfl
      · exact .inr rfl
      · exact .inl ⟨_, rfl, by rw [Cursor.past_past]; rfl⟩
    · rw [Cursor.past_past]
      rfl
    · exact fun b hb => by simpa using fun heq : b = '>' => hw (heq ▸ hb)
    · rw [Cursor.past_past]
      simp
    · rw [Cursor.past_past]

theorem isTag_iff {token : List Char} : isTag token = true ↔ IsTag token := by
  unfold isTag fullmatch
  rw [List.any_eq_true]
  constructor
  · rintro ⟨d, hd, hend⟩
    obtain ⟨tag, rest, htag, hrest, rfl⟩ := mem_results_tag.1 hd
    obtain rfl : rest = [] := by simpa using hend
    obtain rfl : token = tag := by simpa using hrest
    exact htag
  · intro htag
    exact ⟨_, mem_results_tag.2 ⟨token, [], htag, by simp, rfl⟩, rfl⟩

instance (token : List Char) : Decidable (IsTag token) := decidable_of_iff _ isTag_iff

/-- `_TAG` matches at a place exactly if a tag stands there, and takes that tag. -/
theorem matchAt_tag {last : Option Char} {tag rest : List Char} (h : IsTag tag) :
    matchAt tagPattern last (tag ++ rest) = some ⟨tag, []⟩ := by
  have hmem : (⟨last, tag ++ rest, []⟩ : Cursor).past tag rest ∈
      results tagPattern ⟨last, tag ++ rest, []⟩ := mem_results_tag.2 ⟨tag, rest, h, rfl, rfl⟩
  obtain ⟨d, hd⟩ := List.isSome_head?.2 (List.ne_nil_of_mem hmem) |> Option.isSome_iff_exists.1
  obtain ⟨other, more, hother, heq, rfl⟩ := mem_results_tag.1 (List.mem_of_mem_head? hd)
  obtain rfl := h.unique hother heq
  obtain rfl := List.append_cancel_left heq
  simp [matchAt, hd]

theorem isTag_of_matchAt {last : Option Char} {text : List Char} {m : Match}
    (h : matchAt tagPattern last text = some m) : IsTag m.text ∧ m.groups = [] := by
  obtain ⟨d, hd, htext, hgroups⟩ := matchAt_text h
  obtain ⟨tag, rest, htag, hrest, rfl⟩ := mem_results_tag.1 hd
  obtain rfl : m.text = tag := by simpa using htext.symm.trans hrest
  exact ⟨htag, hgroups.symm⟩

end Shape

section Names

/-- The name of a tag is all the letters that stand behind its `<` or `</`. -/
theorem tagName_eq {slash name tail : List Char} (hslash : slash = [] ∨ slash = ['/'])
    (hne : name ≠ []) (hname : ∀ a ∈ name, isLetter a = true)
    (htail : ∀ a ∈ tail.head?, isLetter a = false) :
    tagName ('<' :: slash ++ name ++ tail) = name := by
  have hopen : (results (literal ['<']) ⟨none, '<' :: slash ++ name ++ tail, []⟩).head? =
      some ((⟨none, '<' :: slash ++ name ++ tail, []⟩ : Cursor).past ['<'] (slash ++ name ++ tail)) :=
    head?_results_literal (by simp)
  have hslashed : (results (opt (literal ['/'])) ((⟨none, '<' :: slash ++ name ++ tail, []⟩ :
      Cursor).past ['<'] (slash ++ name ++ tail))).head? =
      some ((⟨none, '<' :: slash ++ name ++ tail, []⟩ : Cursor).past ('<' :: slash) (name ++ tail)) := by
    rcases hslash with rfl | rfl
    · obtain ⟨a, name, rfl⟩ := List.exists_cons_of_ne_nil hne
      refine head?_results_opt_of_none ?_
      have ha : '/' ≠ a := (isLetter_ne (hname a (by simp))).symm
      simp [literal, results, Ne.symm ha]
    · refine head?_results_opt ((head?_results_literal rfl).trans ?_)
      rw [Cursor.past_past]
      rfl
  have hletters := head?_results_plus_char
    (c := (⟨none, '<' :: slash ++ name ++ tail, []⟩ : Cursor).past ('<' :: slash) (name ++ tail))
    hne hname htail rfl
  have hfirst := head?_results_seq hopen
    (head?_results_seq hslashed (head?_results_group (n := 1) hletters rfl))
  unfold tagName matchAt
  rw [show tagNamePattern = Pattern.seq (literal ['<']) (.seq (opt (literal ['/']))
    (.group 1 (plus true (.char isLetter)))) from rfl, hfirst]
  rfl

/-- A tag that closes a name. -/
def closeTag (name : List Char) : List Char := ['<', '/'] ++ name ++ ['>']

/-- The tags that `_closing` writes. -/
def closeTags (openTags : List (List Char)) : List (List Char) :=
  openTags.reverse.map fun tag => closeTag (tagName tag)

theorem closing_eq (openTags : List (List Char)) : closing openTags = (closeTags openTags).flatten := by
  rw [closing, List.flatMap_def]
  rfl

theorem IsTag.exists_name {tag : List Char} (h : IsTag tag) :
    ∃ slash tail, (slash = [] ∨ slash = ['/']) ∧ tagName tag ≠ [] ∧
      (∀ a ∈ tagName tag, isLetter a = true) ∧ tail ≠ [] ∧
      tag = '<' :: slash ++ tagName tag ++ tail := by
  obtain ⟨slash, c, body, hslash, hc, hbody, rfl⟩ := h
  have hsplit : c :: body ++ ['>'] = c :: body.takeWhile isLetter ++
      (body.dropWhile isLetter ++ ['>']) := by
    rw [List.cons_append, List.cons_append, ← List.append_assoc, List.takeWhile_append_dropWhile]
  have hletters : ∀ a ∈ c :: body.takeWhile isLetter, isLetter a = true := by
    intro a ha
    rcases List.mem_cons.1 ha with rfl | ha
    · exact hc
    · exact List.mem_takeWhile_imp ha
  have hstop : ∀ a ∈ (body.dropWhile isLetter ++ ['>']).head?, isLetter a = false := by
    intro a ha
    cases hdrop : body.dropWhile isLetter with
    | nil =>
        obtain rfl : '>' = a := by simpa [hdrop] using ha
        decide
    | cons b rest =>
        obtain rfl : b = a := by simpa [hdrop] using ha
        have hb := List.head_dropWhile_not isLetter (l := body) (by simp [hdrop])
        simpa [hdrop] using hb
  have htag : '<' :: slash ++ c :: body ++ ['>'] = '<' :: slash ++ (c :: body.takeWhile isLetter) ++
      (body.dropWhile isLetter ++ ['>']) := by
    rw [List.append_assoc, hsplit]
    simp
  have hname : tagName ('<' :: slash ++ c :: body ++ ['>']) = c :: body.takeWhile isLetter := by
    rw [htag]
    exact tagName_eq hslash (by simp) hletters hstop
  rw [hname]
  exact ⟨slash, body.dropWhile isLetter ++ ['>'], hslash, by simp, hletters, by simp, htag⟩

section Close

variable {name : List Char} (hne : name ≠ []) (hname : ∀ a ∈ name, isLetter a = true)
include hne hname

theorem isTag_closeTag : IsTag (closeTag name) := by
  obtain ⟨c, rest, rfl⟩ := List.exists_cons_of_ne_nil hne
  refine ⟨['/'], c, rest, .inr rfl, hname c (by simp), ?_, rfl⟩
  exact fun hmem => isLetter_ne (hname '>' (by simp [hmem])) (by decide) rfl

theorem tagName_closeTag : tagName (closeTag name) = name := by
  have hstop : ∀ a ∈ ['>'].head?, isLetter a = false := by
    intro a ha
    obtain rfl : '>' = a := by simpa using ha
    decide
  exact @tagName_eq ['/'] name ['>'] (.inr rfl) hne hname hstop

end Close

theorem isTag_closeTags {openTags : List (List Char)} (h : ∀ tag ∈ openTags, IsTag tag) :
    ∀ tag ∈ closeTags openTags, IsTag tag := by
  intro tag hmem
  obtain ⟨other, hother, rfl⟩ := List.mem_map.1 hmem
  obtain ⟨-, -, -, hne, hletters, -, -⟩ := (h other (List.mem_reverse.1 hother)).exists_name
  exact isTag_closeTag hne hletters

end Names

section Scan

/-- What a scan for tags finds does not depend on the text before. -/
theorem scan_tag (last : Option Char) (text : List Char) :
    scan tagPattern last 0 text = segments tagPattern text := by
  have hfound : ∀ {last other : Option Char} {text : List Char} {m : Match},
      matchAt tagPattern last text = some m → matchAt tagPattern other text = some m := by
    intro last other text m h
    obtain ⟨htag, hgroups⟩ := isTag_of_matchAt h
    obtain ⟨d, -, htext, -⟩ := matchAt_text h
    rw [htext, matchAt_tag htag, ← hgroups]
  unfold segments
  generalize (none : Option Char) = other
  induction last, text using scan_induction tagPattern generalizing other with
  | nil => simp
  | plain last c text h ih =>
      rw [scan_plain h, scan_plain fun m hm => h m (hfound hm), ih (some c)]
  | found last m rest h hne ih =>
      rw [scan_found h hne rfl, scan_found (hfound h) hne rfl, ih]

theorem segments_tag {tag rest : List Char} (h : IsTag tag) :
    segments tagPattern (tag ++ rest) = .found ⟨tag, []⟩ :: segments tagPattern rest := by
  unfold segments
  rw [scan_found (matchAt_tag h) h.ne_nil rfl, scan_tag]
  rfl

theorem segments_char {c : Char} {text : List Char} (h : ∀ tag, IsTag tag → ¬ tag <+: c :: text) :
    segments tagPattern (c :: text) = .plain c :: segments tagPattern text := by
  have hnone : ∀ m, matchAt tagPattern none (c :: text) = some m → m.text = [] := by
    intro m hm
    obtain ⟨d, -, htext, -⟩ := matchAt_text hm
    exact absurd ⟨d.rest, htext.symm⟩ (h m.text (isTag_of_matchAt hm).1)
  unfold segments
  rw [scan_plain hnone, scan_tag]
  rfl

/-- Induction along a text: a tag stands at its beginning, or none does. -/
theorem tag_induction {motive : List Char → Prop} (nil : motive [])
    (char : ∀ c text, (∀ tag, IsTag tag → ¬ tag <+: c :: text) → motive text → motive (c :: text))
    (tag : ∀ tag rest, IsTag tag → motive rest → motive (tag ++ rest)) (text : List Char) :
    motive text := by
  induction (none : Option Char), text using scan_induction tagPattern with
  | nil => exact nil
  | plain last c text h ih =>
      refine char c text (fun t ht hprefix => ?_) ih
      obtain ⟨rest, hrest⟩ := hprefix
      rw [← hrest] at h
      exact ht.ne_nil (h _ (matchAt_tag ht))
  | found last m rest h hne ih => exact tag m.text rest (isTag_of_matchAt h).1 ih

end Scan

section Tokens

/-- No tag begins in the text, whatever of the text behind it belongs to the tag. -/
def Clear (text behind : List Char) : Prop :=
  ∀ part, part ≠ [] → part <:+ text → ∀ tag, IsTag tag → ¬ tag <+: part ++ behind

/-- Pieces of text that a scan takes as they are: tags, and text in which no tag begins. -/
inductive Tidy : List (List Char) → Prop
  | nil : Tidy []
  | tag {tag : List Char} {rest : List (List Char)} (isTag : IsTag tag) (tidy : Tidy rest) :
      Tidy (tag :: rest)
  | text {text : List Char} {rest : List (List Char)} (ne_nil : text ≠ [])
      (clear : Clear text rest.flatten) (tidy : Tidy rest) : Tidy (text :: rest)

theorem Clear.not_isTag {text behind : List Char} (h : Clear text behind) (hne : text ≠ []) :
    ¬ IsTag text := fun htag =>
  h text hne List.suffix_rfl text htag (List.prefix_append text behind)

theorem clear_nil (behind : List Char) : Clear [] behind := fun _ hne hpart =>
  absurd (List.suffix_nil.1 hpart) hne

theorem Clear.of_suffix {text part behind : List Char} (h : Clear text behind)
    (hpart : part <:+ text) : Clear part behind :=
  fun s hne hs => h s hne (hs.trans hpart)

/-- What a scan finds in a piece. -/
def pieceSegments (piece : List Char) : List Segment :=
  if isTag piece then [.found ⟨piece, []⟩] else piece.map .plain

theorem pieceSegments_tag {tag : List Char} (h : IsTag tag) :
    pieceSegments tag = [.found ⟨tag, []⟩] := if_pos (isTag_iff.2 h)

theorem pieceSegments_text {text : List Char} (h : ¬ IsTag text) :
    pieceSegments text = text.map .plain := if_neg fun htag => h (isTag_iff.1 htag)

theorem segments_clear {text behind : List Char} (h : Clear text behind) :
    segments tagPattern (text ++ behind) = text.map .plain ++ segments tagPattern behind := by
  induction text with
  | nil => rfl
  | cons c text ih =>
      have hc := segments_char fun tag => h (c :: text) (by simp) List.suffix_rfl tag
      simpa [ih (h.of_suffix (List.suffix_cons c text))] using hc

theorem Tidy.segments {pieces : List (List Char)} (h : Tidy pieces) :
    segments tagPattern pieces.flatten = pieces.flatMap pieceSegments := by
  induction h with
  | nil => rfl
  | tag htag _ ih => simp [segments_tag htag, ih, pieceSegments_tag htag]
  | text hne hclear _ ih =>
      simp [segments_clear hclear, ih, pieceSegments_text (hclear.not_isTag hne)]

theorem Tidy.ne_nil {pieces : List (List Char)} (h : Tidy pieces) : ∀ piece ∈ pieces, piece ≠ [] := by
  induction h with
  | nil => simp
  | tag htag _ ih => exact List.forall_mem_cons.2 ⟨htag.ne_nil, ih⟩
  | text hne _ _ ih => exact List.forall_mem_cons.2 ⟨hne, ih⟩

theorem Tidy.of_cons {piece : List Char} {pieces : List (List Char)} (h : Tidy (piece :: pieces)) :
    Tidy pieces := by
  cases h with
  | tag _ tidy => exact tidy
  | text _ _ tidy => exact tidy

/-- One of two neighbours is a tag. -/
def Apart (piece next : List Char) : Prop := IsTag piece ∨ IsTag next

/-- Tokens taken from a text after a gap in which no tag begins: they are the gap and the text,
they are tidy, and no two texts are neighbours. -/
theorem tokensFrom_spec (text : List Char) : ∀ gap, Clear gap text →
    (tokensFrom gap (segments tagPattern text)).flatten = gap ++ text ∧
      Tidy (tokensFrom gap (segments tagPattern text)) ∧
      (tokensFrom gap (segments tagPattern text)).IsChain Apart := by
  induction text using tag_induction with
  | nil =>
      intro gap hgap
      cases gap with
      | nil => exact ⟨rfl, .nil, .nil⟩
      | cons c gap => exact ⟨by simp [tokensFrom, segments], .text (by simp) hgap .nil, .singleton _⟩
  | char c text hnone ih =>
      intro gap hgap
      rw [segments_char hnone]
      have hlonger : Clear (gap ++ [c]) text := by
        intro part hne hpart tag htag hprefix
        obtain rfl | ⟨front, rfl, hfront⟩ := List.suffix_concat_iff.1 hpart
        · exact hne rfl
        · rw [List.append_assoc] at hprefix
          by_cases hempty : front = []
          · exact hnone tag htag (by simpa [hempty] using hprefix)
          · exact hgap front hempty hfront tag htag hprefix
      have hnext := ih (gap ++ [c]) hlonger
      simpa [tokensFrom] using hnext
  | tag tag rest htag ih =>
      intro gap hgap
      rw [segments_tag htag]
      obtain ⟨hflat, htidy, hchain⟩ := ih [] (clear_nil rest)
      have htag' : (tag :: tokensFrom [] (segments tagPattern rest)).IsChain Apart := by
        refine List.isChain_cons.2 ⟨fun next _ => .inl htag, hchain⟩
      cases gap with
      | nil => exact ⟨by simp [tokensFrom, hflat], .tag htag htidy, htag'⟩
      | cons c gap =>
          refine ⟨by simp [tokensFrom, hflat], .text (by simp) ?_ (.tag htag htidy), ?_⟩
          · simpa [hflat] using hgap
          · exact List.isChain_cons_cons.2 ⟨.inr htag, htag'⟩

theorem flatten_tokenize (text : List Char) : (tokenize text).flatten = text :=
  (tokensFrom_spec text [] (clear_nil text)).1

theorem tidy_tokenize (text : List Char) : Tidy (tokenize text) :=
  (tokensFrom_spec text [] (clear_nil text)).2.1

theorem isChain_tokenize (text : List Char) : (tokenize text).IsChain Apart :=
  (tokensFrom_spec text [] (clear_nil text)).2.2

end Tokens

end GraphAgent.Telegram
