import Mathlib.Data.List.Basic

/-!
# Backtracking regular expressions

Patterns with groups, greedy and lazy repetition, back references and lookaround of one
character. `results` lists the ways in which a backtracking matcher can match, the preferred
one first. A text is scanned from left to right for matches that do not overlap.
-/

namespace Regex

/-- A pattern. `notAhead` and `notBehind` refuse a next or a last character. -/
inductive Pattern where
  | empty
  | char (p : Char → Bool)
  | seq (a b : Pattern)
  | alt (a b : Pattern)
  | star (greedy : Bool) (a : Pattern)
  | group (n : Nat) (a : Pattern)
  | backref (n : Nat)
  | notAhead (p : Char → Bool)
  | notBehind (p : Char → Bool)
  | start
  | finish

/-- Where a matcher stands: the last character before it, the text in front of it, and the
groups it has set, the latest first. -/
structure Cursor where
  last : Option Char
  rest : List Char
  groups : List (Nat × List Char)

namespace Cursor

/-- The cursor after the given text, which stands in front of it. -/
def past (c : Cursor) (w : List Char) (rest : List Char) : Cursor :=
  ⟨w.getLast?.or c.last, rest, c.groups⟩

@[simp] theorem past_rest (c : Cursor) (w rest : List Char) : (c.past w rest).rest = rest := rfl

@[simp] theorem past_groups (c : Cursor) (w rest : List Char) :
    (c.past w rest).groups = c.groups := rfl

theorem past_past (c : Cursor) (v w mid rest : List Char) :
    (c.past v mid).past w rest = c.past (v ++ w) rest := by
  simp [past, List.getLast?_append, Option.or_assoc]

end Cursor

namespace Pattern

/-- Repeat a step that moves forward, at most the given number of times. -/
def closure (step : Cursor → List Cursor) (greedy : Bool) : Nat → Cursor → List Cursor
  | 0, c => [c]
  | n + 1, c =>
      let more := ((step c).filter fun d => d.rest.length < c.rest.length).flatMap
        (closure step greedy n)
      if greedy then more ++ [c] else c :: more

/-- The cursors behind the matches at a cursor, the preferred match first. -/
def results : Pattern → Cursor → List Cursor
  | .empty, c => [c]
  | .char p, c =>
      match c.rest with
      | [] => []
      | a :: rest => if p a then [c.past [a] rest] else []
  | .seq a b, c => (results a c).flatMap (results b)
  | .alt a b, c => results a c ++ results b c
  | .star greedy a, c => closure (results a) greedy c.rest.length c
  | .group n a, c =>
      (results a c).map fun d =>
        { d with groups := (n, c.rest.take (c.rest.length - d.rest.length)) :: d.groups }
  | .backref n, c =>
      match c.groups.lookup n with
      | none => []
      | some w => if w.isPrefixOf c.rest then [c.past w (c.rest.drop w.length)] else []
  | .notAhead p, c => if c.rest.head?.any p then [] else [c]
  | .notBehind p, c => if c.last.any p then [] else [c]
  | .start, c => if c.last.isNone then [c] else []
  | .finish, c => if c.rest = [] ∨ c.rest = ['\n'] then [c] else []

/-- The given characters one after the other. -/
def literal (w : List Char) : Pattern := w.foldr (fun a r => .seq (.char fun b => b = a) r) .empty

/-- `a?` -/
def opt (a : Pattern) : Pattern := .alt a .empty

/-- `a+`, or `a+?` where it is not greedy. -/
def plus (greedy : Bool) (a : Pattern) : Pattern := .seq a (.star greedy a)

/-- `a{0,n}` -/
def atMost : Nat → Pattern → Pattern
  | 0, _ => .empty
  | n + 1, a => .alt (.seq a (atMost n a)) .empty

/-- The patterns one after the other. -/
def all : List Pattern → Pattern
  | [] => .empty
  | [a] => a
  | a :: rest => .seq a (all rest)

section Results

variable {c d : Cursor}

@[simp] theorem mem_results_empty : d ∈ results .empty c ↔ d = c := List.mem_singleton

theorem mem_results_char {p : Char → Bool} :
    d ∈ results (.char p) c ↔ ∃ a rest, p a = true ∧ c.rest = a :: rest ∧ d = c.past [a] rest := by
  change d ∈ (match c.rest with
    | [] => []
    | a :: rest => if p a then [c.past [a] rest] else []) ↔ _
  cases hrest : c.rest with
  | nil => simp
  | cons a rest =>
      by_cases hp : p a = true
      · simp [hp]
      · have hnone : ¬ ∃ b tail, p b = true ∧ a :: rest = b :: tail ∧ d = c.past [b] tail := by
          rintro ⟨b, tail, hb, heq, -⟩
          exact hp ((List.cons.inj heq).1 ▸ hb)
        simp only [hp, hnone, Bool.false_eq_true, if_false, List.not_mem_nil]

@[simp] theorem mem_results_seq {a b : Pattern} :
    d ∈ results (.seq a b) c ↔ ∃ e ∈ results a c, d ∈ results b e := List.mem_flatMap

@[simp] theorem mem_results_alt {a b : Pattern} :
    d ∈ results (.alt a b) c ↔ d ∈ results a c ∨ d ∈ results b c := List.mem_append

@[simp] theorem mem_results_group {n : Nat} {a : Pattern} :
    d ∈ results (.group n a) c ↔ ∃ e ∈ results a c,
      d = { e with groups := (n, c.rest.take (c.rest.length - e.rest.length)) :: e.groups } := by
  change d ∈ (results a c).map (fun e =>
    { e with groups := (n, c.rest.take (c.rest.length - e.rest.length)) :: e.groups }) ↔ _
  simp only [List.mem_map, eq_comm]

theorem mem_results_notAhead {p : Char → Bool} : d ∈ results (.notAhead p) c → d = c := by
  change d ∈ (if c.rest.head?.any p then [] else [c]) → d = c
  split <;> simp

theorem mem_results_notBehind {p : Char → Bool} : d ∈ results (.notBehind p) c → d = c := by
  change d ∈ (if c.last.any p then [] else [c]) → d = c
  split <;> simp

theorem mem_results_start : d ∈ results .start c → d = c := by
  change d ∈ (if c.last.isNone then [c] else []) → d = c
  split <;> simp

theorem mem_results_finish : d ∈ results .finish c → d = c := by
  change d ∈ (if c.rest = [] ∨ c.rest = ['\n'] then [c] else []) → d = c
  split <;> simp

theorem mem_closure_succ {step : Cursor → List Cursor} {greedy : Bool} {n : Nat} :
    d ∈ closure step greedy (n + 1) c ↔ d = c ∨
      ∃ e ∈ step c, e.rest.length < c.rest.length ∧ d ∈ closure step greedy n e := by
  rw [closure]
  cases greedy <;> simp [and_assoc, or_comm]

/-- Characters of a class, as many as a repetition may take. -/
theorem mem_closure_char {p : Char → Bool} {greedy : Bool} {n : Nat} :
    d ∈ closure (results (.char p)) greedy n c ↔
      ∃ w rest, w.length ≤ n ∧ (∀ a ∈ w, p a = true) ∧ c.rest = w ++ rest ∧ d = c.past w rest := by
  induction n generalizing c with
  | zero =>
      simp only [closure, List.mem_singleton]
      constructor
      · rintro rfl
        exact ⟨[], d.rest, by simp [Cursor.past]⟩
      · rintro ⟨w, rest, hw, -, hrest, rfl⟩
        obtain rfl := List.eq_nil_of_length_eq_zero (Nat.le_zero.1 hw)
        simp [Cursor.past, show rest = c.rest by simpa using hrest.symm]
  | succ n ih =>
      rw [mem_closure_succ]
      constructor
      · rintro (rfl | ⟨e, he, -, hd⟩)
        · exact ⟨[], d.rest, by simp [Cursor.past]⟩
        · obtain ⟨a, rest, ha, hrest, rfl⟩ := mem_results_char.1 he
          obtain ⟨w, tail, hlength, hw, htail, rfl⟩ := ih.1 hd
          refine ⟨a :: w, tail, by simpa using hlength, ?_, ?_, ?_⟩
          · simpa [ha] using hw
          · rw [hrest]
            simpa using htail
          · rw [Cursor.past_past]
            rfl
      · rintro ⟨w, rest, hlength, hw, hrest, rfl⟩
        cases w with
        | nil => exact .inl (by simp [Cursor.past, show rest = c.rest by simpa using hrest.symm])
        | cons a w =>
            refine .inr ⟨c.past [a] (w ++ rest), ?_, by simp [hrest], ?_⟩
            · exact mem_results_char.2 ⟨a, w ++ rest, hw a (by simp), hrest, rfl⟩
            · refine ih.2 ⟨w, rest, by simpa using hlength, ?_, rfl, ?_⟩
              · exact fun b hb => hw b (by simp [hb])
              · rw [Cursor.past_past]
                rfl

theorem mem_results_star_char {p : Char → Bool} {greedy : Bool} :
    d ∈ results (.star greedy (.char p)) c ↔
      ∃ w rest, (∀ a ∈ w, p a = true) ∧ c.rest = w ++ rest ∧ d = c.past w rest := by
  change d ∈ closure (results (.char p)) greedy c.rest.length c ↔ _
  rw [mem_closure_char]
  constructor
  · rintro ⟨w, rest, -, h⟩
    exact ⟨w, rest, h⟩
  · rintro ⟨w, rest, hw, hrest, rfl⟩
    exact ⟨w, rest, by simp [hrest], hw, hrest, rfl⟩

theorem mem_results_plus_char {p : Char → Bool} {greedy : Bool} :
    d ∈ results (plus greedy (.char p)) c ↔
      ∃ w rest, w ≠ [] ∧ (∀ a ∈ w, p a = true) ∧ c.rest = w ++ rest ∧ d = c.past w rest := by
  unfold plus
  simp only [mem_results_seq, mem_results_char, mem_results_star_char]
  constructor
  · rintro ⟨e, ⟨a, mid, ha, hmid, rfl⟩, w, rest, hw, hrest, rfl⟩
    refine ⟨a :: w, rest, by simp, by simpa [ha] using hw, ?_, ?_⟩
    · rw [hmid]
      simpa using hrest
    · rw [Cursor.past_past]
      rfl
  · rintro ⟨w, rest, hne, hw, hrest, rfl⟩
    obtain ⟨a, w, rfl⟩ := List.exists_cons_of_ne_nil hne
    refine ⟨c.past [a] (w ++ rest), ⟨a, w ++ rest, hw a (by simp), hrest, rfl⟩, w, rest, ?_, rfl, ?_⟩
    · exact fun b hb => hw b (by simp [hb])
    · rw [Cursor.past_past]
      rfl

theorem mem_results_literal {w : List Char} :
    d ∈ results (literal w) c ↔ ∃ rest, c.rest = w ++ rest ∧ d = c.past w rest := by
  induction w generalizing c with
  | nil =>
      simp only [literal, List.foldr_nil, mem_results_empty, List.nil_append]
      constructor
      · rintro rfl
        exact ⟨d.rest, rfl, rfl⟩
      · rintro ⟨rest, rfl, rfl⟩
        rfl
  | cons a w ih =>
      have hunfold : literal (a :: w) = .seq (.char fun b => b = a) (literal w) := rfl
      rw [hunfold, mem_results_seq]
      constructor
      · rintro ⟨e, he, hd⟩
        obtain ⟨b, mid, hb, hmid, rfl⟩ := mem_results_char.1 he
        obtain ⟨rest, hrest, rfl⟩ := ih.1 hd
        obtain rfl : b = a := by simpa using hb
        refine ⟨rest, ?_, ?_⟩
        · rw [hmid]
          simpa using hrest
        · rw [Cursor.past_past]
          rfl
      · rintro ⟨rest, hrest, rfl⟩
        refine ⟨c.past [a] (w ++ rest), ?_, ?_⟩
        · exact mem_results_char.2 ⟨a, w ++ rest, by simp, hrest, rfl⟩
        · refine ih.2 ⟨rest, rfl, ?_⟩
          rw [Cursor.past_past]
          rfl

theorem closure_suffix {step : Cursor → List Cursor}
    (hstep : ∀ c, ∀ d ∈ step c, d.rest <:+ c.rest) {greedy : Bool} {n : Nat}
    (h : d ∈ closure step greedy n c) : d.rest <:+ c.rest := by
  induction n generalizing c with
  | zero =>
      obtain rfl : d = c := by simpa [closure] using h
      exact List.suffix_rfl
  | succ n ih =>
      rcases mem_closure_succ.1 h with rfl | ⟨e, he, -, hd⟩
      · exact List.suffix_rfl
      · exact (ih hd).trans (hstep c e he)

/-- A match takes the text in front of the cursor from its beginning. -/
theorem results_suffix {r : Pattern} (h : d ∈ results r c) : d.rest <:+ c.rest := by
  induction r generalizing c d with
  | empty =>
      obtain rfl := mem_results_empty.1 h
      exact List.suffix_rfl
  | char p =>
      obtain ⟨a, rest, -, hrest, rfl⟩ := mem_results_char.1 h
      exact ⟨[a], by simp [hrest]⟩
  | seq a b iha ihb =>
      obtain ⟨e, he, hd⟩ := mem_results_seq.1 h
      exact (ihb hd).trans (iha he)
  | alt a b iha ihb => exact (mem_results_alt.1 h).elim iha ihb
  | star greedy a ih => exact closure_suffix (fun c d hd => ih hd) h
  | group n a ih =>
      obtain ⟨e, he, rfl⟩ := mem_results_group.1 h
      have hrest : e.rest <:+ c.rest := ih he
      exact hrest
  | backref n =>
      unfold results at h
      split at h
      case h_1 => cases h
      case h_2 w _ =>
        split at h
        case isTrue =>
          obtain rfl := List.mem_singleton.1 h
          exact List.drop_suffix _ _
        case isFalse => cases h
  | notAhead p => exact mem_results_notAhead h ▸ List.suffix_rfl
  | notBehind p => exact mem_results_notBehind h ▸ List.suffix_rfl
  | start => exact mem_results_start h ▸ List.suffix_rfl
  | finish => exact mem_results_finish h ▸ List.suffix_rfl

end Results

section Preferred

variable {c d e : Cursor}

theorem head?_results_char {p : Char → Bool} {a : Char} {rest : List Char} (hp : p a = true)
    (hrest : c.rest = a :: rest) : (results (.char p) c).head? = some (c.past [a] rest) := by
  simp [results, hrest, hp]

/-- The preferred match of a sequence, where the preferred match of its first part goes on. -/
theorem head?_results_seq {a b : Pattern} (ha : (results a c).head? = some e)
    (hb : (results b e).head? = some d) : (results (.seq a b) c).head? = some d := by
  obtain ⟨more, hmore⟩ := List.head?_eq_some_iff.1 ha
  simp [results, hmore, List.head?_append, hb]

theorem head?_results_literal {w rest : List Char} (hrest : c.rest = w ++ rest) :
    (results (literal w) c).head? = some (c.past w rest) := by
  induction w generalizing c with
  | nil =>
      obtain ⟨last, front, groups⟩ := c
      obtain rfl : front = rest := hrest
      rfl
  | cons a w ih =>
      have htail := ih (c := c.past [a] (w ++ rest)) rfl
      rw [Cursor.past_past] at htail
      exact head?_results_seq (head?_results_char (by simp) (by simpa using hrest)) htail

theorem head?_results_opt {a : Pattern} (ha : (results a c).head? = some d) :
    (results (opt a) c).head? = some d := by
  simp [opt, results, List.head?_append, ha]

theorem head?_results_opt_of_none {a : Pattern} (ha : results a c = []) :
    (results (opt a) c).head? = some c := by
  simp [opt, results, ha]

theorem head?_results_group {n : Nat} {a : Pattern} {w rest : List Char}
    (ha : (results a c).head? = some (c.past w rest)) (hrest : c.rest = w ++ rest) :
    (results (.group n a) c).head? =
      some { c.past w rest with groups := (n, w) :: c.groups } := by
  simp [results, ha, hrest]

/-- A greedy repetition of a class prefers to take all the characters that it can. -/
theorem head?_closure_char {p : Char → Bool} {n : Nat} {w rest : List Char}
    (hw : ∀ a ∈ w, p a = true) (hstop : ∀ a ∈ rest.head?, p a = false)
    (hrest : c.rest = w ++ rest) (hn : w.length ≤ n) :
    (closure (results (.char p)) true n c).head? = some (c.past w rest) := by
  induction n generalizing c w with
  | zero =>
      obtain rfl := List.eq_nil_of_length_eq_zero (Nat.le_zero.1 hn)
      obtain ⟨last, front, groups⟩ := c
      obtain rfl : front = rest := hrest
      rfl
  | succ n ih =>
      cases w with
      | nil =>
          have hnone : results (.char p) c = [] := by
            cases rest with
            | nil => simp [results, show c.rest = [] from hrest]
            | cons b rest => simp [results, show c.rest = b :: rest from hrest, hstop b (by simp)]
          obtain ⟨last, front, groups⟩ := c
          obtain rfl : front = rest := hrest
          simp [closure, hnone, Cursor.past]
      | cons a w =>
          have hstep : results (.char p) c = [c.past [a] (w ++ rest)] := by
            simp [results, show c.rest = a :: (w ++ rest) from hrest, hw a (by simp)]
          have htail := ih (c := c.past [a] (w ++ rest)) (w := w)
            (fun b hb => hw b (by simp [hb])) rfl (by simpa using hn)
          rw [Cursor.past_past] at htail
          simp [closure, hstep, hrest, List.head?_append, htail]

theorem head?_results_plus_char {p : Char → Bool} {w rest : List Char} (hne : w ≠ [])
    (hw : ∀ a ∈ w, p a = true) (hstop : ∀ a ∈ rest.head?, p a = false)
    (hrest : c.rest = w ++ rest) :
    (results (plus true (.char p)) c).head? = some (c.past w rest) := by
  obtain ⟨a, w, rfl⟩ := List.exists_cons_of_ne_nil hne
  have htail : (results (.star true (.char p)) (c.past [a] (w ++ rest))).head? =
      some ((c.past [a] (w ++ rest)).past w rest) :=
    head?_closure_char (fun b hb => hw b (by simp [hb])) hstop rfl (by simp)
  rw [Cursor.past_past] at htail
  exact head?_results_seq (head?_results_char (hw a (by simp)) hrest) htail

end Preferred

end Pattern

/-- The text of a match and its groups. -/
structure Match where
  text : List Char
  groups : List (Nat × List Char)
  deriving DecidableEq

/-- The text of a group, `none` where the match has not set it. -/
def Match.group? (m : Match) (n : Nat) : Option (List Char) := m.groups.lookup n

/-- The preferred match at the beginning of a text, which the given character precedes. -/
def matchAt (r : Pattern) (last : Option Char) (text : List Char) : Option Match :=
  (r.results ⟨last, text, []⟩).head?.map fun d =>
    ⟨text.take (text.length - d.rest.length), d.groups⟩

/-- Some match takes the whole text. -/
def fullmatch (r : Pattern) (text : List Char) : Bool :=
  (r.results ⟨none, text, []⟩).any fun d => d.rest.isEmpty

/-- The pattern can match with this text and these groups, in some surroundings. -/
def Accepts (r : Pattern) (m : Match) : Prop :=
  ∃ last rest, ∃ d ∈ r.results ⟨last, m.text ++ rest, []⟩, d.rest = rest ∧ d.groups = m.groups

theorem matchAt_text {r : Pattern} {last : Option Char} {text : List Char} {m : Match}
    (h : matchAt r last text = some m) :
    ∃ d ∈ r.results ⟨last, text, []⟩, text = m.text ++ d.rest ∧ d.groups = m.groups := by
  obtain ⟨d, hd, rfl⟩ := Option.map_eq_some_iff.1 h
  have hmem := List.mem_of_mem_head? hd
  obtain ⟨w, hw⟩ := Pattern.results_suffix hmem
  obtain rfl : w ++ d.rest = text := hw
  exact ⟨d, hmem, by simp, rfl⟩

theorem accepts_of_matchAt {r : Pattern} {last : Option Char} {text : List Char} {m : Match}
    (h : matchAt r last text = some m) : Accepts r m := by
  obtain ⟨d, hd, htext, hgroups⟩ := matchAt_text h
  exact ⟨last, d.rest, d, htext ▸ hd, rfl, hgroups⟩

section Scan

/-- What a scan finds: a character outside of every match, or a match. -/
inductive Segment where
  | plain (c : Char)
  | found (m : Match)
  deriving DecidableEq

/-- The characters of a segment, with something else for those of a match. -/
def Segment.render (f : Match → List Char) : Segment → List Char
  | .plain c => [c]
  | .found m => f m

/-- The characters of a segment. -/
def Segment.text : Segment → List Char := Segment.render Match.text

@[simp] theorem Segment.text_plain (c : Char) : (Segment.plain c).text = [c] := rfl

@[simp] theorem Segment.text_found (m : Match) : (Segment.found m).text = m.text := rfl

variable (r : Pattern)

/-- Scan for matches, where the given number of characters still belongs to the match before.
A pattern that matches nothing at a place counts as no match there. -/
def scan : Option Char → Nat → List Char → List Segment
  | _, _, [] => []
  | _, skip + 1, c :: text => scan (some c) skip text
  | last, 0, c :: text =>
      match (matchAt r last (c :: text)).filter fun m => !m.text.isEmpty with
      | some m => .found m :: scan (some c) (m.text.length - 1) text
      | none => .plain c :: scan (some c) 0 text

/-- `re.finditer`: the matches, with the characters between them. -/
def segments (text : List Char) : List Segment := scan r none 0 text

/-- `re.sub` with a function of the match. -/
def sub (f : Match → List Char) (text : List Char) : List Char :=
  (segments r text).flatMap (Segment.render f)

variable {r}

@[simp] theorem scan_nil (last : Option Char) (skip : Nat) : scan r last skip [] = [] := by
  cases skip <;> rfl

theorem scan_skip (last : Option Char) (w rest : List Char) :
    scan r last w.length (w ++ rest) = scan r (w.getLast?.or last) 0 rest := by
  induction w generalizing last with
  | nil => rfl
  | cons c w ih =>
      rw [List.length_cons, List.cons_append, scan, ih, List.getLast?_cons]
      cases w.getLast? <;> rfl

/-- Where a match stands the scan finds it and goes on behind it. -/
theorem scan_found {last : Option Char} {text rest : List Char} {m : Match}
    (h : matchAt r last text = some m) (hm : m.text ≠ []) (htext : text = m.text ++ rest) :
    scan r last 0 text = .found m :: scan r (m.text.getLast?.or last) 0 rest := by
  obtain ⟨c, w, hw⟩ := List.exists_cons_of_ne_nil hm
  have hkeep : (matchAt r last text).filter (fun m => !m.text.isEmpty) = some m := by
    simp [h, hw]
  rw [hw, List.cons_append] at htext
  subst htext
  rw [scan, hkeep]
  simp only [hw, List.length_cons, Nat.add_sub_cancel, scan_skip, List.getLast?_cons]
  cases w.getLast? <;> rfl

/-- Where no match stands the scan passes one character. -/
theorem scan_plain {last : Option Char} {c : Char} {text : List Char}
    (h : ∀ m, matchAt r last (c :: text) = some m → m.text = []) :
    scan r last 0 (c :: text) = .plain c :: scan r (some c) 0 text := by
  have hnone : (matchAt r last (c :: text)).filter (fun m => !m.text.isEmpty) = none := by
    rw [Option.filter_eq_none_iff]
    intro m hm
    simp [h m hm]
  rw [scan, hnone]

/-- Induction along a scan: the next character is outside of every match, or a match stands
there. -/
theorem scan_induction {motive : Option Char → List Char → Prop} (r : Pattern)
    (nil : ∀ last, motive last [])
    (plain : ∀ last c text, (∀ m, matchAt r last (c :: text) = some m → m.text = []) →
      motive (some c) text → motive last (c :: text))
    (found : ∀ last m rest, matchAt r last (m.text ++ rest) = some m → m.text ≠ [] →
      motive (m.text.getLast?.or last) rest → motive last (m.text ++ rest))
    (last : Option Char) (text : List Char) : motive last text := by
  induction hn : text.length using Nat.strongRecOn generalizing last text with
  | ind n ih =>
      subst hn
      cases text with
      | nil => exact nil last
      | cons c text =>
          by_cases hempty : ∀ m, matchAt r last (c :: text) = some m → m.text = []
          · exact plain last c text hempty (ih text.length (by simp) _ text rfl)
          · push Not at hempty
            obtain ⟨m, hm, hne⟩ := hempty
            obtain ⟨d, -, htext, -⟩ := matchAt_text hm
            have hpos : 0 < m.text.length := List.length_pos_of_ne_nil hne
            rw [htext] at hm ⊢
            refine found last m d.rest hm hne (ih d.rest.length ?_ _ _ rfl)
            rw [htext, List.length_append]
            omega

theorem flatMap_text_scan (last : Option Char) (text : List Char) :
    (scan r last 0 text).flatMap Segment.text = text := by
  induction last, text using scan_induction r with
  | nil => simp
  | plain last c text h ih => simp [scan_plain h, ih]
  | found last m rest h hne ih => simp [scan_found h hne rfl, ih]

/-- The segments of a text are all of its characters, in their order. -/
theorem flatMap_text_segments (text : List Char) :
    (segments r text).flatMap Segment.text = text := flatMap_text_scan none text

theorem accepts_of_mem_scan {last : Option Char} {text : List Char} {m : Match}
    (h : Segment.found m ∈ scan r last 0 text) : Accepts r m := by
  induction last, text using scan_induction r with
  | nil => simp at h
  | plain last c text hnone ih =>
      rw [scan_plain hnone, List.mem_cons] at h
      exact ih (h.resolve_left (by simp))
  | found last n rest hn hne ih =>
      rw [scan_found hn hne rfl, List.mem_cons] at h
      rcases h with heq | h
      · obtain rfl := Segment.found.inj heq
        exact accepts_of_matchAt hn
      · exact ih h

/-- Every match of a scan is one of the pattern's. -/
theorem accepts_of_mem_segments {text : List Char} {m : Match}
    (h : Segment.found m ∈ segments r text) : Accepts r m := accepts_of_mem_scan h

end Scan

end Regex
