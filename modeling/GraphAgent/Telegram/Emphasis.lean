import GraphAgent.Telegram.Markup

/-!
# Emphasis in markup

A pass replaces the markers around a text by the tags of a name that is new to the markup. It
leaves the markup well-formed exactly if every match begins outside of the tags and the text
between its markers is well-formed by itself.
-/

namespace GraphAgent.Telegram

open Regex Automaton

section Agreement

/-- The reader of the letters stands behind a `<` or a `</`. -/
def Lex.behind : Lex → Bool
  | .head => true
  | .slash => true
  | _ => false

/-- The characters of a tag whose name begins with one of the heads. -/
def Named (heads : Char → Bool) (seen : List Char) : Prop :=
  ∃ c rest, heads c = true ∧ (seen = c :: rest ∨ seen = '/' :: c :: rest)

/-- The reader of the letters knows the tag that the reader of the markup is in. -/
def Agrees (heads : Char → Bool) (l : Lex) : Mode → Prop
  | .text => l.behind = false
  | .tag seen => l = .head ∧ seen = [] ∨ l = .slash ∧ seen = ['/'] ∨
      l.behind = false ∧ Named heads seen

variable {heads : Char → Bool} {l l' : Lex} {c : Char}

theorem behind_of_lexStep (hl : l.behind = false) (hc : c ≠ '<') (h : lexStep heads l c = some l') :
    l'.behind = false := by
  cases l with
  | head => cases hl
  | slash => cases hl
  | free =>
      obtain rfl := Option.some.inj h
      rw [if_neg hc]
      split <;> rfl
  | entity seen =>
      simp only [lexStep] at h
      split at h
      case isTrue =>
        obtain rfl := Option.some.inj h
        rfl
      case isFalse =>
        split at h
        case isTrue =>
          obtain rfl := Option.some.inj h
          rfl
        case isFalse => cases h

variable (hheads : ∀ c, heads c = true → isLetter c = true)
include hheads

theorem Agrees.step {r s : Reader} (h : Agrees heads l r.mode) (hlex : lexStep heads l c = some l')
    (hread : readStep r c = some s) : Agrees heads l' s.mode := by
  have hnot : ∀ a, isLetter a = false → heads a ≠ true := fun a ha hhead => by
    rw [hheads a hhead] at ha
    cases ha
  rcases readStep_cases hread with ⟨hm, rfl, rfl⟩ | ⟨hm, hlt, -, rfl⟩ | ⟨seen, hm, hrefused, -, rfl⟩ |
    ⟨seen, hm, rfl, hend⟩
  · obtain rfl := eq_free_of_lexStep hheads (by decide) (by decide) (by decide) hlex
    obtain rfl := Option.some.inj hlex
    exact .inl ⟨rfl, rfl⟩
  · rw [hm] at h ⊢
    exact behind_of_lexStep h hlt hlex
  · rw [hm] at h
    have hlt : c ≠ '<' := fun heq => hrefused (.inl heq)
    rcases h with ⟨rfl, rfl⟩ | ⟨rfl, rfl⟩ | ⟨hl, a, rest, ha, hseen⟩
    · simp only [lexStep] at hlex
      split at hlex
      case isTrue hslash =>
        obtain rfl := Option.some.inj hlex
        exact .inr (.inl ⟨rfl, by simp [hslash]⟩)
      case isFalse =>
        split at hlex
        case isTrue hhead =>
          obtain rfl := Option.some.inj hlex
          exact .inr (.inr ⟨rfl, c, [], hhead, .inl rfl⟩)
        case isFalse => cases hlex
    · simp only [lexStep] at hlex
      split at hlex
      case isTrue hhead =>
        obtain rfl := Option.some.inj hlex
        exact .inr (.inr ⟨rfl, c, [], hhead, .inr rfl⟩)
      case isFalse => cases hlex
    · refine .inr (.inr ⟨behind_of_lexStep hl hlt hlex, a, rest ++ [c], ha, ?_⟩)
      rcases hseen with rfl | rfl
      · exact .inl rfl
      · exact .inr rfl
  · have htext : s.mode = .text := by
      rcases endTag_cases hend with ⟨names, -, -, rfl⟩ | ⟨-, -, rfl⟩
      · rfl
      · rfl
    rw [hm] at h
    rw [htext]
    rcases h with ⟨rfl, -⟩ | ⟨rfl, -⟩ | ⟨hl, -⟩
    · simp [lexStep, hnot '>' (by decide)] at hlex
    · simp [lexStep, hnot '>' (by decide)] at hlex
    · exact behind_of_lexStep hl (by decide) hlex

end Agreement

section Unframed

/-- Every open name begins with one of the heads. -/
def Headed (heads : Char → Bool) (names : List (List Char)) : Prop :=
  ∀ name ∈ names, ∃ c rest, heads c = true ∧ name = c :: rest

variable {heads : Char → Bool} (hheads : ∀ c, heads c = true → isLetter c = true)
  {base : Char} (hbase : heads base = false)
include hheads hbase

/-- Tags whose names begin with the heads leave an open name of another kind, and what is under
it, as it is. -/
theorem readStep_unframed {l l' : Lex} {m : Mode} {upper more below before : List (List Char)}
    {c : Char} {s : Reader} (hagree : Agrees heads l m) (hlex : lexStep heads l c = some l')
    (hupper : Headed heads upper)
    (h : readStep ⟨m, upper ++ [base] :: below, before ++ more⟩ c = some s) :
    ∃ m' upper' more', s = ⟨m', upper' ++ [base] :: below, before ++ more'⟩ ∧
      Headed heads upper' ∧ readStep ⟨m, upper, more⟩ c = some ⟨m', upper', more'⟩ := by
  rcases readStep_cases h with ⟨hm, rfl, rfl⟩ | ⟨hm, hlt, hgt, rfl⟩ | ⟨seen, hm, hrefused, hgt, rfl⟩ |
    ⟨seen, hm, rfl, hend⟩
  · obtain rfl : m = .text := hm
    exact ⟨_, upper, more, rfl, hupper, by simp [readStep]⟩
  · obtain rfl : m = .text := hm
    exact ⟨_, upper, more, rfl, hupper, by simp [readStep, hlt, hgt]⟩
  · obtain rfl : m = .tag seen := hm
    exact ⟨_, upper, more, rfl, hupper, by simp [readStep, hrefused, hgt]⟩
  · obtain rfl : m = .tag seen := hm
    -- what ends here has a name, since `>` is no head
    have hnamed : Named heads seen := by
      have hgt : heads '>' ≠ true := fun hhead => absurd (hheads _ hhead) (by decide)
      rcases hagree with ⟨rfl, -⟩ | ⟨rfl, -⟩ | ⟨-, hnamed⟩
      · simp [lexStep, hgt] at hlex
      · simp [lexStep, hgt] at hlex
      · exact hnamed
    obtain ⟨a, rest, ha, hseen⟩ := hnamed
    rcases endTag_cases hend with ⟨names, hslash, hopen, rfl⟩ | ⟨hslash, hname, rfl⟩
    · have htail : seen.tail = a :: rest := by
        rcases hseen with rfl | rfl
        · obtain rfl : a = '/' := by simpa using hslash
          exact absurd (hheads _ ha) (by decide)
        · rfl
      cases upper with
      | nil =>
          obtain ⟨htop, -⟩ := List.cons.inj hopen
          rw [htail] at htop
          obtain ⟨rfl, -⟩ := List.cons.inj htop
          rw [hbase] at ha
          cases ha
      | cons top upper =>
          obtain ⟨rfl, rfl⟩ := List.cons.inj hopen
          refine ⟨_, upper, more, rfl, fun name hname => hupper name (by simp [hname]), ?_⟩
          simp [readStep, Reader.endTag, hslash]
    · refine ⟨.text, seen.takeWhile isLetter :: upper, more ++ hrefOf seen, by simp, ?_, ?_⟩
      · refine List.forall_mem_cons.2 ⟨?_, hupper⟩
        rcases hseen with rfl | rfl
        · exact ⟨a, rest.takeWhile isLetter, ha, by simp [hheads a ha]⟩
        · exact absurd rfl hslash
      · simp [readStep, Reader.endTag, hslash, hname]

theorem run_unframed {l l' : Lex} {m : Mode} {upper more below before : List (List Char)}
    {text : List Char} {s : Reader} (hagree : Agrees heads l m)
    (hlex : run (lexStep heads) l text = some l') (hupper : Headed heads upper)
    (h : run readStep ⟨m, upper ++ [base] :: below, before ++ more⟩ text = some s) :
    ∃ m' upper' more', s = ⟨m', upper' ++ [base] :: below, before ++ more'⟩ ∧
      Headed heads upper' ∧ run readStep ⟨m, upper, more⟩ text = some ⟨m', upper', more'⟩ := by
  induction text generalizing l m upper more with
  | nil => exact ⟨m, upper, more, (Option.some.inj h).symm, hupper, rfl⟩
  | cons c rest ih =>
      obtain ⟨l₁, hlex₁, hlexRest⟩ := Option.bind_eq_some_iff.1 hlex
      obtain ⟨s₁, hstep, hrest⟩ := Option.bind_eq_some_iff.1 h
      obtain ⟨m₁, upper₁, more₁, rfl, hupper₁, hread⟩ :=
        readStep_unframed hheads hbase hagree hlex₁ hupper hstep
      obtain ⟨m', upper', more', rfl, hupper', hrun⟩ :=
        ih (hagree.step hheads hlex₁ hread) hlexRest hupper₁ hrest
      exact ⟨m', upper', more', rfl, hupper', by rw [run_cons, hread]; exact hrun⟩

/-- A text that is read between the tags of a name that is new to it is well-formed by itself. -/
theorem wellFormed_of_run_wrap (hletter : isLetter base = true) {body : List Char}
    (hbody : Sound heads body) {names hrefs : List (List Char)} {s : Reader}
    (h : run readStep ⟨.text, names, hrefs⟩ (wrap [base] body) = some s) :
    ∃ urls, WellFormed body urls := by
  have hname : IsName [base] := ⟨by simp, by simp [hletter]⟩
  rw [run_wrap hname] at h
  obtain ⟨r, hread, hclose⟩ := Option.bind_eq_some_iff.1 h
  have hstart : run readStep ⟨.text, [] ++ [base] :: names, hrefs ++ []⟩ body = some r := by
    simpa using hread
  obtain ⟨m, upper, urls, rfl, hupper, hrun⟩ :=
    run_unframed hheads hbase (show Agrees heads .free .text from rfl) hbody (by simp [Headed]) hstart
  obtain ⟨below, hm, hopen, -⟩ := closed_of_run_closeTag hname hclose
  obtain rfl : m = .text := hm
  cases upper with
  | nil => exact ⟨urls, hrun⟩
  | cons top upper =>
      obtain ⟨c, rest, hc, htop⟩ := hupper top (by simp)
      obtain ⟨hsame, -⟩ := List.cons.inj hopen
      rw [htop] at hsame
      obtain ⟨rfl, -⟩ := List.cons.inj hsame
      rw [hbase] at hc
      cases hc

end Unframed

section Fits

/-- Whether a tag stands open behind the text, if one does before it. -/
def tagAfter (inTag : Bool) (text : List Char) : Bool :=
  text.foldl (fun inside c => if c = '<' then true else if c = '>' then false else inside) inTag

/-- Every match begins outside of the tags, and what stands between its markers is well-formed
by itself. -/
def Fits (body : Match → List Char) : Bool → List Segment → Prop
  | _, [] => True
  | inTag, .plain c :: rest => Fits body (tagAfter inTag [c]) rest
  | inTag, .found m :: rest =>
      inTag = false ∧ Balanced (body m) ∧ Fits body (tagAfter inTag m.text) rest

instance decidableFits (body : Match → List Char) :
    (inTag : Bool) → (segs : List Segment) → Decidable (Fits body inTag segs)
  | _, [] => isTrue trivial
  | inTag, .plain c :: rest => decidableFits body (tagAfter inTag [c]) rest
  | inTag, .found m :: rest =>
      @instDecidableAnd _ _ inferInstance
        (@instDecidableAnd _ _ inferInstance (decidableFits body (tagAfter inTag m.text) rest))

def Mode.inTag : Mode → Bool
  | .text => false
  | .tag _ => true

theorem inTag_eq_tagAfter {r s : Reader} {text : List Char} (h : run readStep r text = some s) :
    s.mode.inTag = tagAfter r.mode.inTag text := by
  induction text generalizing r with
  | nil =>
      obtain rfl := Option.some.inj h
      rfl
  | cons c rest ih =>
      obtain ⟨t, hstep, hrest⟩ := Option.bind_eq_some_iff.1 h
      rw [ih hrest]
      change tagAfter _ rest = tagAfter (if c = '<' then true else if c = '>' then false else _) rest
      congr 1
      rcases readStep_cases hstep with ⟨hm, rfl, rfl⟩ | ⟨hm, hlt, hgt, rfl⟩ |
        ⟨seen, hm, hrefused, hgt, rfl⟩ | ⟨seen, hm, rfl, hend⟩
      · rfl
      · simp [hlt, hgt]
      · have hlt : c ≠ '<' := fun heq => hrefused (.inl heq)
        simp [hlt, hgt, hm, Mode.inTag]
      · rcases endTag_cases hend with ⟨names, -, -, rfl⟩ | ⟨-, -, rfl⟩
        · rfl
        · rfl

theorem bare_markers : ∀ marker ∈ markers, '<' ∉ marker ∧ '>' ∉ marker := by decide

variable {body : Match → List Char} {segs : List Segment} {name : Char}

/-- Markers say nothing to a reader of markup. -/
theorem run_between {m : Match} {inner marker : List Char} (hmarker : marker ∈ markers)
    (h : Between marker inner m) {urls : List (List Char)} (hinner : WellFormed inner urls)
    (names hrefs : List (List Char)) :
    run readStep ⟨.text, names, hrefs⟩ m.text = some ⟨.text, names, hrefs ++ urls⟩ := by
  obtain ⟨hlt, hgt⟩ := bare_markers marker hmarker
  have hfirst : run readStep ⟨.text, names, hrefs⟩ (marker ++ inner) =
      some ⟨.text, names, hrefs ++ urls⟩ := by
    rw [run_append, run_bare hlt hgt, Option.bind_some, hinner.run_eq]
  rw [h.2, run_append, hfirst, Option.bind_some, run_bare hlt hgt]

/-- The matches are text between markers. -/
def AllBetween (body : Match → List Char) (segs : List Segment) : Prop :=
  ∀ m, Segment.found m ∈ segs → ∃ marker ∈ markers, Between marker (body m) m

/-- Where every match fits, tags in place of the markers change nothing for a reader. -/
theorem run_render_of_fits (hname : IsName [name]) (hbetween : AllBetween body segs) {r : Reader}
    (hfits : Fits body r.mode.inTag segs) :
    run readStep r (segs.flatMap (Segment.render fun m => wrap [name] (body m))) =
      run readStep r (segs.flatMap Segment.text) := by
  induction segs generalizing r with
  | nil => rfl
  | cons segment rest ih =>
      have hrest : AllBetween body rest := fun m hm => hbetween m (List.mem_cons_of_mem _ hm)
      rw [List.flatMap_cons, List.flatMap_cons, run_append, run_append]
      cases segment with
      | plain c =>
          refine Option.bind_congr fun s hs => ih hrest ?_
          rw [inTag_eq_tagAfter hs]
          exact hfits
      | found m =>
          obtain ⟨hout, ⟨urls, hbody⟩, hmore⟩ := hfits
          obtain ⟨mode, names, hrefs⟩ := r
          cases mode with
          | tag seen => cases hout
          | text =>
              obtain ⟨marker, hmarker, hm⟩ := hbetween m (List.mem_cons_self ..)
              have htext := run_between hmarker hm hbody names hrefs
              have hnew : run readStep ⟨.text, names, hrefs⟩
                  (Segment.render (fun m => wrap [name] (body m)) (.found m)) =
                    some ⟨.text, names, hrefs ++ urls⟩ := hbody.run_wrap hname
              have hnext := inTag_eq_tagAfter htext
              rw [Segment.text_found, htext, hnew]
              refine ih hrest ?_
              rw [hnext]
              exact hmore

variable {heads : Char → Bool} (hheads : ∀ c, heads c = true → isLetter c = true)
  (hname : isLetter name = true) (hnew : heads name = false)
include hheads hname hnew

/-- What can be read with the tags in place of the markers is text in which every match fits. -/
theorem fits_of_run {l l' : Lex} (hbetween : AllBetween body segs)
    (hlex : run (lexStep heads) l (segs.flatMap Segment.text) = some l') {r s : Reader}
    (h : run readStep r (segs.flatMap (Segment.render fun m => wrap [name] (body m))) = some s) :
    Fits body r.mode.inTag segs := by
  induction segs generalizing l r with
  | nil => trivial
  | cons segment rest ih =>
      have hrest : AllBetween body rest := fun m hm => hbetween m (List.mem_cons_of_mem _ hm)
      rw [List.flatMap_cons, run_append_eq_some] at h hlex
      obtain ⟨l₁, hlex₁, hlexRest⟩ := hlex
      obtain ⟨r₁, hread, hreadRest⟩ := h
      have hmore := ih hrest hlexRest hreadRest
      cases segment with
      | plain c =>
          rw [inTag_eq_tagAfter hread] at hmore
          exact hmore
      | found m =>
          obtain ⟨marker, hmarker, hm⟩ := hbetween m (List.mem_cons_self ..)
          rw [Segment.text_found, hm.2] at hlex₁
          obtain ⟨rfl, rfl, hsound⟩ := run_wrapped hheads (isFence_markers marker hmarker) hlex₁
          obtain ⟨mode, names, hrefs⟩ := r
          change run readStep _ (wrap [name] (body m)) = some r₁ at hread
          cases mode with
          | tag seen =>
              rw [wrap, List.append_assoc, List.append_assoc, List.append_assoc, List.cons_append,
                run_inTag_refused (.inl rfl)] at hread
              cases hread
          | text =>
              obtain ⟨urls, hbody⟩ := wellFormed_of_run_wrap hheads hnew hname hsound hread
              rw [hbody.run_wrap ⟨by simp, by simp [hname]⟩] at hread
              obtain rfl := Option.some.inj hread
              refine ⟨rfl, ⟨urls, hbody⟩, ?_⟩
              have hnext := inTag_eq_tagAfter (run_between hmarker hm hbody names hrefs)
              rw [hnext] at hmore
              exact hmore

/-- A pass adds to the condition on its text that every match fits. -/
theorem reads_pass {p : Prop} {urls : List (List Char)} {r : Pattern} {text : List Char}
    (h : Reads p urls text) (hr : Emphasis r body) (hsound : Sound heads text) :
    Reads (p ∧ Fits body false (segments r text)) urls
      (sub r (fun m => wrap [name] (body m)) text) := by
  have hbetween : AllBetween body (segments r text) := fun m hm => hr m (accepts_of_mem_segments hm)
  have hsame : ∀ names hrefs, Fits body false (segments r text) →
      run readStep ⟨.text, names, hrefs⟩ (sub r (fun m => wrap [name] (body m)) text) =
        run readStep ⟨.text, names, hrefs⟩ text := by
    intro names hrefs hfits
    have hrender := run_render_of_fits (show IsName [name] from ⟨by simp, by simp [hname]⟩) hbetween
      (show Fits body (Reader.mk .text names hrefs).mode.inTag (segments r text) from hfits)
    rw [flatMap_text_segments] at hrender
    exact hrender
  constructor
  · rintro ⟨hp, hfits⟩ names hrefs
    calc run readStep ⟨.text, names, hrefs⟩ (sub r (fun m => wrap [name] (body m)) text)
        = run readStep ⟨.text, names, hrefs⟩ text := hsame names hrefs hfits
      _ = some ⟨.text, names, hrefs ++ urls⟩ := h.ok hp names hrefs
  · intro hnot names hrefs
    by_contra hread
    obtain ⟨s, hs⟩ := Option.ne_none_iff_exists'.1 hread
    have hlex : run (lexStep heads) .free ((segments r text).flatMap Segment.text) = some .free := by
      rw [flatMap_text_segments]
      exact hsound
    have hfits : Fits body false (segments r text) := fits_of_run hheads hname hnew hbetween hlex hs
    rw [hsame names hrefs hfits, h.bad fun hp => hnot ⟨hp, hfits⟩] at hs
    cases hs

end Fits

end GraphAgent.Telegram
