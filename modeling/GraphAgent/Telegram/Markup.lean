import GraphAgent.Telegram.Lexing
import GraphAgent.Telegram.Split

/-!
# The markup of rendered messages

A reader of markup refuses a `<` or `>` that belongs to no tag, a tag inside of a tag, and a
closing tag that does not close the innermost open one. What `markdown_to_telegram_html`
writes passes it exactly if every emphasis that a pass replaces begins outside of the tags of
the passes before it and stands around whole ones, and no code stands in the URL of a link.
-/

namespace GraphAgent.Telegram

open Regex Automaton

section Reader

/-- In text, or in a tag of which some characters have been seen. -/
inductive Mode where
  | text
  | tag (seen : List Char)
  deriving DecidableEq

/-- What a reader of markup knows: where it stands, the names of the open tags with the
innermost first, and the `href` of every link so far. -/
structure Reader where
  mode : Mode
  openNames : List (List Char)
  hrefs : List (List Char)
  deriving DecidableEq

/-- The `href` of an opening tag of a link, by the characters of the tag. -/
def hrefOf (seen : List Char) : List (List Char) :=
  if "a href=\"".toList.isPrefixOf seen then [(seen.drop 8).takeWhile (· ≠ '"')] else []

/-- The end of a tag: a closing tag has to close the innermost open one. -/
def Reader.endTag (r : Reader) (seen : List Char) : Option Reader :=
  if seen.head? = some '/' then
    if r.openNames.head? = some seen.tail then some ⟨.text, r.openNames.tail, r.hrefs⟩ else none
  else if seen.takeWhile isLetter = [] then none
  else some ⟨.text, seen.takeWhile isLetter :: r.openNames, r.hrefs ++ hrefOf seen⟩

/-- One character. A NUL in a tag is what is left of a placeholder. -/
def readStep (r : Reader) (c : Char) : Option Reader :=
  match r.mode with
  | .text =>
      if c = '<' then some { r with mode := .tag [] } else if c = '>' then none else some r
  | .tag seen =>
      if c = '<' ∨ c = '\x00' then none
      else if c = '>' then r.endTag seen
      else some { r with mode := .tag (seen ++ [c]) }

/-- The text is well-formed markup, and its links have these URLs. -/
def WellFormed (text : List Char) (hrefs : List (List Char)) : Prop :=
  run readStep ⟨.text, [], []⟩ text = some ⟨.text, [], hrefs⟩

instance (text : List Char) (hrefs : List (List Char)) : Decidable (WellFormed text hrefs) :=
  inferInstanceAs (Decidable (_ = _))

/-- The text is well-formed by itself. -/
def Balanced (text : List Char) : Prop := ∃ hrefs, WellFormed text hrefs

theorem balanced_iff {text : List Char} : Balanced text ↔
    (run readStep ⟨.text, [], []⟩ text).any (fun r => r.mode = .text ∧ r.openNames = []) = true := by
  rw [Option.any_eq_true]
  constructor
  · rintro ⟨hrefs, h⟩
    exact ⟨_, h, by simp⟩
  · rintro ⟨⟨mode, names, hrefs⟩, hread, hend⟩
    obtain ⟨rfl, rfl⟩ : mode = .text ∧ names = [] := by simpa using hend
    exact ⟨hrefs, hread⟩

instance (text : List Char) : Decidable (Balanced text) := decidable_of_iff _ balanced_iff.symm

variable {r s : Reader} {names : List (List Char)} {hrefs : List (List Char)}

theorem endTag_cases {seen : List Char} (h : r.endTag seen = some s) :
    (∃ names, seen.head? = some '/' ∧ r.openNames = seen.tail :: names ∧
      s = ⟨.text, names, r.hrefs⟩) ∨
    (seen.head? ≠ some '/' ∧ seen.takeWhile isLetter ≠ [] ∧
      s = ⟨.text, seen.takeWhile isLetter :: r.openNames, r.hrefs ++ hrefOf seen⟩) := by
  unfold Reader.endTag at h
  split at h
  case isTrue hslash =>
    split at h
    case isTrue htop =>
      obtain ⟨names, hnames⟩ := List.head?_eq_some_iff.1 htop
      refine .inl ⟨names, hslash, hnames, ?_⟩
      simpa [hnames] using h.symm
    case isFalse => cases h
  case isFalse hslash =>
    split at h
    case isTrue => cases h
    case isFalse hname => exact .inr ⟨hslash, hname, (Option.some.inj h).symm⟩

/-- What one character can do: begin a tag, stand in text, stand in a tag, or end it. -/
theorem readStep_cases {c : Char} (h : readStep r c = some s) :
    (r.mode = .text ∧ c = '<' ∧ s = { r with mode := .tag [] }) ∨
    (r.mode = .text ∧ c ≠ '<' ∧ c ≠ '>' ∧ s = r) ∨
    (∃ seen, r.mode = .tag seen ∧ ¬ (c = '<' ∨ c = '\x00') ∧ c ≠ '>' ∧
      s = { r with mode := .tag (seen ++ [c]) }) ∨
    (∃ seen, r.mode = .tag seen ∧ c = '>' ∧ r.endTag seen = some s) := by
  unfold readStep at h
  split at h
  case h_1 hmode =>
    split at h
    case isTrue hlt => exact .inl ⟨hmode, hlt, (Option.some.inj h).symm⟩
    case isFalse hlt =>
      split at h
      case isTrue => cases h
      case isFalse hgt => exact .inr (.inl ⟨hmode, hlt, hgt, (Option.some.inj h).symm⟩)
  case h_2 seen hmode =>
    split at h
    case isTrue => cases h
    case isFalse hrefused =>
      split at h
      case isTrue hgt => exact .inr (.inr (.inr ⟨seen, hmode, hgt, h⟩))
      case isFalse hgt =>
        exact .inr (.inr (.inl ⟨seen, hmode, hrefused, hgt, (Option.some.inj h).symm⟩))

/-- Text without angle brackets is read as it is. -/
theorem run_bare {text : List Char} (hlt : '<' ∉ text) (hgt : '>' ∉ text) :
    run readStep ⟨.text, names, hrefs⟩ text = some ⟨.text, names, hrefs⟩ := by
  apply run_eq_self
  intro c hc
  have hc₁ : c ≠ '<' := fun heq => hlt (heq ▸ hc)
  have hc₂ : c ≠ '>' := fun heq => hgt (heq ▸ hc)
  simp [readStep, hc₁, hc₂]

theorem run_inTag {seen text : List Char} (hlt : '<' ∉ text) (hgt : '>' ∉ text)
    (hnul : '\x00' ∉ text) : run readStep ⟨.tag seen, names, hrefs⟩ text =
      some ⟨.tag (seen ++ text), names, hrefs⟩ := by
  induction text generalizing seen with
  | nil => simp
  | cons c rest ih =>
      simp only [List.mem_cons, not_or] at hlt hgt hnul
      have hstep : readStep ⟨.tag seen, names, hrefs⟩ c = some ⟨.tag (seen ++ [c]), names, hrefs⟩ := by
        simp [readStep, Ne.symm hlt.1, Ne.symm hgt.1, Ne.symm hnul.1]
      simp [hstep, ih hlt.2 hgt.2 hnul.2]

theorem run_inTag_nul {seen text : List Char} (hgt : '>' ∉ text) (hnul : '\x00' ∈ text) :
    run readStep ⟨.tag seen, names, hrefs⟩ text = none := by
  induction text generalizing seen with
  | nil => cases hnul
  | cons c rest ih =>
      simp only [List.mem_cons, not_or] at hgt
      by_cases hc : c = '<' ∨ c = '\x00'
      · simp [readStep, hc]
      · have hstep : readStep ⟨.tag seen, names, hrefs⟩ c =
            some ⟨.tag (seen ++ [c]), names, hrefs⟩ := by
          simp [readStep, hc, Ne.symm hgt.1]
        have hrest : '\x00' ∈ rest :=
          (List.mem_cons.1 hnul).resolve_left fun heq => hc (.inr heq.symm)
        simp [hstep, ih hgt.2 hrest]

/-- In a tag nothing may begin with a `<` or with a placeholder. -/
theorem run_inTag_refused {seen text : List Char} {c : Char} (hc : c = '<' ∨ c = '\x00') :
    run readStep ⟨.tag seen, names, hrefs⟩ (c :: text) = none := by
  simp [readStep, hc]

/-- A name of letters, as in the tags that the passes write. -/
def IsName (name : List Char) : Prop := name ≠ [] ∧ name.all isLetter = true

instance (name : List Char) : Decidable (IsName name) := inferInstanceAs (Decidable (_ ∧ _))

theorem IsName.not_mem {name : List Char} (h : IsName name) {c : Char}
    (hc : isLetter c = false) : c ∉ name := not_mem_of_forall hc (List.all_eq_true.1 h.2)

/-- What a tag does shows at its end. -/
theorem run_tag {seen : List Char} (hlt : '<' ∉ seen) (hgt : '>' ∉ seen) (hnul : '\x00' ∉ seen) :
    run readStep ⟨.text, names, hrefs⟩ ('<' :: seen ++ ['>']) =
      Reader.endTag ⟨.tag seen, names, hrefs⟩ seen := by
  have hseen : run readStep ⟨.tag [], names, hrefs⟩ seen = some ⟨.tag seen, names, hrefs⟩ :=
    run_inTag hlt hgt hnul
  rw [List.cons_append, run_cons, show readStep ⟨.text, names, hrefs⟩ '<' =
    some ⟨.tag [], names, hrefs⟩ from rfl, Option.bind_some, run_append, hseen, Option.bind_some]
  simp [readStep]

theorem run_openTag {name attrs : List Char} (h : IsName name)
    (hattrs : ∀ a ∈ attrs.head?, isLetter a = false) (hlt : '<' ∉ attrs) (hgt : '>' ∉ attrs)
    (hnul : '\x00' ∉ attrs) : run readStep ⟨.text, names, hrefs⟩ (['<'] ++ name ++ attrs ++ ['>']) =
      some ⟨.text, name :: names, hrefs ++ hrefOf (name ++ attrs)⟩ := by
  have htake : (name ++ attrs).takeWhile isLetter = name := by
    rw [List.takeWhile_append_of_pos (List.all_eq_true.1 h.2)]
    cases attrs with
    | nil => simp
    | cons a attrs => simp [hattrs a rfl]
  have hslash : (name ++ attrs).head? ≠ some '/' := by
    obtain ⟨a, rest, rfl⟩ := List.exists_cons_of_ne_nil h.1
    have ha := h.not_mem (c := '/') (by decide)
    simp only [List.mem_cons, not_or] at ha
    simpa using Ne.symm ha.1
  have hsplit : ['<'] ++ name ++ attrs ++ ['>'] = '<' :: (name ++ attrs) ++ ['>'] := by simp
  rw [hsplit, run_tag, Reader.endTag, if_neg hslash, htake, if_neg h.1]
  · simp [h.not_mem (c := '<') (by decide), hlt]
  · simp [h.not_mem (c := '>') (by decide), hgt]
  · simp [h.not_mem (c := '\x00') (by decide), hnul]

/-- A tag in which a placeholder stands is refused. -/
theorem run_openTag_nul {name attrs : List Char} (h : IsName name) (hgt : '>' ∉ attrs)
    (hnul : '\x00' ∈ attrs) (rest : List Char) :
    run readStep ⟨.text, names, hrefs⟩ (['<'] ++ name ++ attrs ++ rest) = none := by
  have hseen : run readStep ⟨.tag [], names, hrefs⟩ (name ++ attrs) = none :=
    run_inTag_nul (by simp [h.not_mem (c := '>') (by decide), hgt]) (by simp [hnul])
  have hsplit : ['<'] ++ name ++ attrs ++ rest = '<' :: ((name ++ attrs) ++ rest) := by simp
  rw [hsplit, run_cons, show readStep ⟨.text, names, hrefs⟩ '<' = some ⟨.tag [], names, hrefs⟩ from rfl,
    Option.bind_some, run_append, hseen, Option.bind_none]

/-- A closing tag closes the innermost open one, if that has its name. -/
theorem run_closeTag_eq {name : List Char} (h : IsName name) :
    run readStep ⟨.text, names, hrefs⟩ (closeTag name) =
      if names.head? = some name then some ⟨.text, names.tail, hrefs⟩ else none := by
  have hsplit : closeTag name = '<' :: ('/' :: name) ++ ['>'] := by simp [closeTag]
  rw [hsplit, run_tag]
  · rfl
  · simp [h.not_mem (c := '<') (by decide)]
  · simp [h.not_mem (c := '>') (by decide)]
  · simp [h.not_mem (c := '\x00') (by decide)]

theorem run_closeTag {name : List Char} (h : IsName name) :
    run readStep ⟨.text, name :: names, hrefs⟩ (closeTag name) = some ⟨.text, names, hrefs⟩ := by
  rw [run_closeTag_eq h, List.head?_cons, if_pos rfl, List.tail_cons]

/-- What closes a name closes it where it is the innermost open one, and nowhere else. -/
theorem closed_of_run_closeTag {name : List Char} (h : IsName name)
    (hrun : run readStep r (closeTag name) = some s) : ∃ names, r.mode = .text ∧
      r.openNames = name :: names ∧ s = ⟨.text, names, r.hrefs⟩ := by
  obtain ⟨mode, names, hrefs⟩ := r
  cases mode with
  | tag seen =>
      rw [closeTag, List.append_assoc, List.cons_append, run_inTag_refused (.inl rfl)] at hrun
      cases hrun
  | text =>
      rw [run_closeTag_eq h] at hrun
      split at hrun
      case isTrue htop =>
        obtain ⟨below, rfl⟩ := List.head?_eq_some_iff.1 htop
        exact ⟨below, rfl, rfl, (Option.some.inj hrun).symm⟩
      case isFalse => cases hrun

/-- What is read above some open names reads the same above more of them. -/
theorem readStep_frame {m m' : Mode} {upper upper' more more' base before : List (List Char)} {c : Char}
    (h : readStep ⟨m, upper, more⟩ c = some ⟨m', upper', more'⟩) :
    readStep ⟨m, upper ++ base, before ++ more⟩ c = some ⟨m', upper' ++ base, before ++ more'⟩ := by
  rcases readStep_cases h with ⟨hm, rfl, hs⟩ | ⟨hm, hlt, hgt, hs⟩ | ⟨seen, hm, hrefused, hgt, hs⟩ |
    ⟨seen, hm, rfl, hend⟩
  · obtain rfl : m = .text := hm
    obtain ⟨rfl, rfl, rfl⟩ := Reader.mk.inj hs
    simp [readStep]
  · obtain rfl : m = .text := hm
    obtain ⟨rfl, rfl, rfl⟩ := Reader.mk.inj hs
    simp [readStep, hlt, hgt]
  · obtain rfl : m = .tag seen := hm
    obtain ⟨rfl, rfl, rfl⟩ := Reader.mk.inj hs
    simp [readStep, hrefused, hgt]
  · obtain rfl : m = .tag seen := hm
    rcases endTag_cases hend with ⟨names, hslash, hupper, hs⟩ | ⟨hslash, hname, hs⟩
    · obtain rfl : upper = seen.tail :: names := hupper
      obtain ⟨rfl, rfl, rfl⟩ := Reader.mk.inj hs
      simp [readStep, Reader.endTag, hslash]
    · obtain ⟨rfl, rfl, rfl⟩ := Reader.mk.inj hs
      simp [readStep, Reader.endTag, hslash, hname]

theorem run_frame {m m' : Mode} {upper upper' more more' base before : List (List Char)}
    {text : List Char} (h : run readStep ⟨m, upper, more⟩ text = some ⟨m', upper', more'⟩) :
    run readStep ⟨m, upper ++ base, before ++ more⟩ text =
      some ⟨m', upper' ++ base, before ++ more'⟩ := by
  induction text generalizing m upper more with
  | nil =>
      obtain ⟨rfl, rfl, rfl⟩ := Reader.mk.inj (Option.some.inj h)
      rfl
  | cons c rest ih =>
      obtain ⟨⟨m₁, upper₁, more₁⟩, hstep, hrest⟩ := Option.bind_eq_some_iff.1 h
      rw [run_cons, readStep_frame hstep]
      exact ih hrest

/-- Well-formed markup is well-formed wherever text may stand. -/
theorem WellFormed.run_eq {text : List Char} {urls : List (List Char)} (h : WellFormed text urls)
    (names hrefs : List (List Char)) :
    run readStep ⟨.text, names, hrefs⟩ text = some ⟨.text, names, hrefs ++ urls⟩ := by
  have hframe : run readStep ⟨.text, [] ++ names, hrefs ++ []⟩ text =
      some ⟨.text, [] ++ names, hrefs ++ urls⟩ := run_frame h
  simpa using hframe

end Reader

section Wrapped

variable {name : List Char} {names : List (List Char)} {hrefs : List (List Char)}

theorem wellFormed_escapeHtml (text : List Char) : WellFormed (escapeHtml text) [] :=
  run_bare (not_mem_escapeHtml text).1 (not_mem_escapeHtml text).2

theorem not_mem_attr {key value : List Char} {c : Char} (hkey : c ∉ key) (hvalue : c ∉ value)
    (hquot : c ≠ '"') : c ∉ key ++ value ++ ['"'] := by
  simp only [List.mem_append, List.mem_singleton, not_or]
  exact ⟨⟨hkey, hvalue⟩, hquot⟩

/-- Text between the tags of a name, of which the first has attributes. -/
theorem run_attrTag (h : IsName name) {attrs body : List Char} (hspace : attrs.head? = some ' ')
    (hlt : '<' ∉ attrs) (hgt : '>' ∉ attrs) (hnul : '\x00' ∉ attrs) (hbody : WellFormed body []) :
    run readStep ⟨.text, names, hrefs⟩ (['<'] ++ name ++ attrs ++ ['>'] ++ body ++ closeTag name) =
      some ⟨.text, names, hrefs ++ hrefOf (name ++ attrs)⟩ := by
  have hhead : ∀ a ∈ attrs.head?, isLetter a = false := by
    intro a ha
    obtain rfl : ' ' = a := Option.some.inj (hspace.symm.trans ha)
    decide
  rw [run_append, run_append, run_openTag h hhead hlt hgt hnul, Option.bind_some, hbody.run_eq,
    Option.bind_some, run_closeTag h, List.append_nil]

theorem hrefOf_of_isName (h : IsName name) : hrefOf name = [] := by
  unfold hrefOf
  rw [if_neg]
  intro hstart
  obtain ⟨rest, rfl⟩ := List.isPrefixOf_iff_prefix.1 hstart
  exact h.not_mem (show isLetter ' ' = false by decide) (by simp)

theorem run_openName (h : IsName name) :
    run readStep ⟨.text, names, hrefs⟩ (['<'] ++ name ++ ['>']) = some ⟨.text, name :: names, hrefs⟩ := by
  have hopen : run readStep ⟨.text, names, hrefs⟩ (['<'] ++ name ++ [] ++ ['>']) =
      some ⟨.text, name :: names, hrefs ++ hrefOf (name ++ [])⟩ :=
    run_openTag h (by simp) (by simp) (by simp) (by simp)
  simpa [hrefOf_of_isName h] using hopen

/-- A text between tags is read as the text, where that leaves the tags as they are. -/
theorem run_wrap (h : IsName name) (body : List Char) :
    run readStep ⟨.text, names, hrefs⟩ (wrap name body) =
      (run readStep ⟨.text, name :: names, hrefs⟩ body).bind fun r =>
        run readStep r (closeTag name) := by
  rw [wrap, run_append, run_append, run_openName h, Option.bind_some]

theorem WellFormed.run_wrap (hname : IsName name) {body : List Char} {urls : List (List Char)}
    (h : WellFormed body urls) :
    run readStep ⟨.text, names, hrefs⟩ (wrap name body) = some ⟨.text, names, hrefs ++ urls⟩ := by
  have hbody := h.run_eq (name :: names) hrefs
  calc run readStep ⟨.text, names, hrefs⟩ (wrap name body)
      = run readStep ⟨.text, name :: names, hrefs ++ urls⟩ (closeTag name) := by
        rw [Telegram.run_wrap hname, hbody, Option.bind_some]
    _ = some ⟨.text, names, hrefs ++ urls⟩ := run_closeTag hname

end Wrapped

section Reads

/-- Wherever text may stand, the text is read to its end and shows these URLs if the condition
holds, and is refused if not. -/
structure Reads (cond : Prop) (urls : List (List Char)) (text : List Char) : Prop where
  ok : cond → ∀ names hrefs,
    run readStep ⟨.text, names, hrefs⟩ text = some ⟨.text, names, hrefs ++ urls⟩
  bad : ¬ cond → ∀ names hrefs, run readStep ⟨.text, names, hrefs⟩ text = none

variable {p q : Prop} {urls more : List (List Char)} {text front back : List Char}

theorem Reads.accepted_iff (h : Reads p urls text) : WellFormed text urls ↔ p := by
  constructor
  · intro hwell
    by_contra hnot
    rw [WellFormed, h.bad hnot] at hwell
    cases hwell
  · exact fun hp => h.ok hp [] []

theorem Reads.congr (h : Reads p urls text) (hiff : p ↔ q) : Reads q urls text :=
  ⟨fun hq => h.ok (hiff.2 hq), fun hq => h.bad fun hp => hq (hiff.1 hp)⟩

theorem reads_bare (hlt : '<' ∉ text) (hgt : '>' ∉ text) : Reads True [] text :=
  ⟨fun _ names hrefs => by rw [run_bare hlt hgt, List.append_nil], fun h => absurd trivial h⟩

theorem Reads.append (h : Reads p urls front) (hback : Reads q more back) :
    Reads (p ∧ q) (urls ++ more) (front ++ back) := by
  constructor
  · rintro ⟨hp, hq⟩ names hrefs
    rw [run_append, h.ok hp, Option.bind_some, hback.ok hq, List.append_assoc]
  · intro hnot names hrefs
    rw [run_append]
    by_cases hp : p
    · rw [h.ok hp, Option.bind_some, hback.bad fun hq => hnot ⟨hp, hq⟩]
    · rw [h.bad hp]
      rfl

theorem reads_flatMap {α : Type} {cond : α → Prop} {shown : α → List (List Char)}
    {f : α → List Char} {l : List α} (h : ∀ a ∈ l, Reads (cond a) (shown a) (f a)) :
    Reads (∀ a ∈ l, cond a) (l.flatMap shown) (l.flatMap f) := by
  induction l with
  | nil => exact (reads_bare (by simp) (by simp)).congr (by simp)
  | cons a rest ih =>
      rw [List.flatMap_cons, List.flatMap_cons]
      refine ((h a (by simp)).append (ih fun b hb => h b (by simp [hb]))).congr ?_
      rw [List.forall_mem_cons]

theorem Reads.wrap {name : List Char} (hname : IsName name) (h : Reads p urls text) :
    Reads p urls (wrap name text) := by
  constructor
  · intro hp names hrefs
    exact WellFormed.run_wrap hname (h.accepted_iff.2 hp)
  · intro hnot names hrefs
    rw [run_wrap hname, h.bad hnot]
    rfl

/-- What is read in place of a text like the text itself is read under the same condition. -/
theorem Reads.of_run_eq {new : List Char} (h : Reads p urls text)
    (heq : ∀ r, run readStep r new = run readStep r text) : Reads p urls new :=
  ⟨fun hp names hrefs => by rw [heq, h.ok hp], fun hp names hrefs => by rw [heq, h.bad hp]⟩

end Reads

end GraphAgent.Telegram
