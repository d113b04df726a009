import Mathlib.Data.List.Infix
import Mathlib.Data.String.Basic

/-!
# Splitting at a separator

`breakOn` cuts a text at the leftmost place at which the separator stands, and `pieces`
cuts it at every one, from left to right. `String.splitOn` does the same with positions in
the text and in the separator.
-/

namespace GraphAgent.Splitting

section Lists

variable {α : Type*} [DecidableEq α] (sep : List α)

/-- What stands before and behind the leftmost occurrence of the separator. -/
def breakOn : List α → Option (List α × List α)
  | [] => none
  | c :: rest =>
      if sep <+: c :: rest then some ([], (c :: rest).drop sep.length)
      else (breakOn rest).map (Prod.map (c :: ·) id)

variable {sep} {text front back : List α}

theorem breakOn_eq_some (h : breakOn sep text = some (front, back)) :
    text = front ++ sep ++ back := by
  induction text generalizing front with
  | nil => exact nomatch h
  | cons c rest ih =>
      rw [breakOn] at h
      split at h
      case isTrue hbegins =>
        obtain ⟨rfl, rfl⟩ := Prod.mk.inj (Option.some.inj h)
        exact (List.prefix_iff_eq_append.mp hbegins).symm
      case isFalse =>
        obtain ⟨⟨front, back⟩, hrest, heq⟩ := Option.map_eq_some_iff.mp h
        obtain ⟨rfl, rfl⟩ := Prod.mk.inj heq
        exact congrArg (c :: ·) (ih hrest)

/-- There is an occurrence exactly if there is a leftmost one. -/
theorem breakOn_eq_none_iff (hsep : sep ≠ []) : breakOn sep text = none ↔ ¬ sep <:+: text := by
  induction text with
  | nil => simpa [breakOn, List.infix_nil] using hsep
  | cons c rest ih =>
      rw [breakOn, List.infix_cons_iff, not_or]
      split
      case isTrue hbegins => exact ⟨nofun, fun h => absurd hbegins h.1⟩
      case isFalse hbegins =>
        rw [Option.map_eq_none_iff, ih]
        exact ⟨fun h => ⟨hbegins, h⟩, And.right⟩

/-- An occurrence stays the leftmost one whatever comes behind it. -/
theorem breakOn_append (h : breakOn sep text = some (front, back)) (more : List α) :
    breakOn sep (text ++ more) = some (front, back ++ more) := by
  induction text generalizing front with
  | nil => exact nomatch h
  | cons c rest ih =>
      rw [breakOn] at h
      rw [List.cons_append, breakOn]
      split at h
      case isTrue hbegins =>
        obtain ⟨rfl, rfl⟩ := Prod.mk.inj (Option.some.inj h)
        rw [← List.cons_append, if_pos (hbegins.trans (List.prefix_append (c :: rest) more)),
          List.drop_append_of_le_length hbegins.length_le]
      case isFalse hbegins =>
        obtain ⟨⟨front, back⟩, hrest, heq⟩ := Option.map_eq_some_iff.mp h
        obtain ⟨rfl, rfl⟩ := Prod.mk.inj heq
        have hlength : sep.length ≤ (c :: rest).length := by
          rw [breakOn_eq_some hrest]
          simp only [List.length_cons, List.length_append]
          omega
        rw [if_neg fun hmore => hbegins ?_, ih hrest]
        · rfl
        · exact List.prefix_of_prefix_length_le hmore (List.prefix_append (c :: rest) more) hlength

omit [DecidableEq α] in
/-- What starts in a line without running over its end starts the line. -/
theorem prefix_line {line rest : List α} {c : α} (hc : c ∉ sep) (h : sep <+: line ++ c :: rest) :
    sep <+: line := by
  rcases List.prefix_or_prefix_of_prefix h (List.prefix_append line (c :: rest)) with
    hin | ⟨tail, rfl⟩
  · exact hin
  · cases tail with
    | nil => exact (List.append_nil line).symm ▸ List.prefix_rfl
    | cons d tail =>
        obtain ⟨_, heq⟩ := (List.prefix_append_right_inj line).mp h
        have hd : d = c := (List.cons.inj heq).1
        exact absurd (List.mem_append_right line (hd ▸ List.mem_cons_self)) hc

/-- The separator is looked for behind a line that does not contain it, where the line ends
with something that the separator does not contain. -/
theorem breakOn_line {line : List α} {c : α} (hsep : sep ≠ []) (hline : ¬ sep <:+: line)
    (hc : c ∉ sep) (rest : List α) :
    breakOn sep (line ++ c :: rest) =
      (breakOn sep rest).map (Prod.map ((line ++ [c]) ++ ·) id) := by
  induction line with
  | nil =>
      have hfirst : ¬ sep <+: c :: rest := by
        intro h
        have hnil : sep <+: [] := prefix_line hc h
        exact hsep (List.prefix_nil.mp hnil)
      rw [List.nil_append, breakOn, if_neg hfirst]
      rfl
  | cons d line ih =>
      rw [List.infix_cons_iff, not_or] at hline
      have hfirst : ¬ sep <+: d :: (line ++ c :: rest) := fun h =>
        hline.1 (prefix_line hc h)
      rw [List.cons_append, breakOn, if_neg hfirst, ih hline.2, Option.map_map]
      rfl

theorem breakOn_self (hsep : sep ≠ []) (rest : List α) :
    breakOn sep (sep ++ rest) = some ([], rest) := by
  cases hcut : sep ++ rest with
  | nil => exact absurd (List.append_eq_nil_iff.mp hcut).1 hsep
  | cons c tail =>
      rw [breakOn, ← hcut, if_pos (List.prefix_append sep rest), List.drop_left]

theorem length_lt_of_breakOn (hsep : sep ≠ []) (h : breakOn sep text = some (front, back)) :
    back.length < text.length := by
  have hpos := List.length_pos_iff.mpr hsep
  rw [breakOn_eq_some h, List.length_append, List.length_append]
  omega

/-- Behind lines that do not contain it, the separator is found where it stands next. -/
theorem breakOn_lines {lines : List (List α)} {c : α} (hsep : sep ≠ [])
    (hlines : ∀ line ∈ lines, ¬ sep <:+: line) (hc : c ∉ sep) (rest : List α) :
    breakOn sep (lines.flatMap (· ++ [c]) ++ (sep ++ rest)) =
      some (lines.flatMap (· ++ [c]), rest) := by
  induction lines with
  | nil => exact breakOn_self hsep rest
  | cons line lines ih =>
      obtain ⟨hline, hlines⟩ := List.forall_mem_cons.mp hlines
      rw [List.flatMap_cons, List.append_assoc, ← List.append_cons,
        breakOn_line hsep hline hc, ih hlines]
      simp

/-- In lines of which one contains the separator, it is found before the lines end. -/
theorem breakOn_lines_of_infix {lines : List (List α)} {c : α} (hsep : sep ≠ [])
    (hlines : ∃ line ∈ lines, sep <:+: line) (hc : c ∉ sep) (rest : List α) :
    ∃ front back, breakOn sep (lines.flatMap (· ++ [c]) ++ rest) = some (front, back) ∧
      front ++ sep <+: lines.flatMap (· ++ [c]) := by
  induction lines with
  | nil =>
      obtain ⟨_, hmem, -⟩ := hlines
      exact nomatch hmem
  | cons line lines ih =>
      rw [List.flatMap_cons, List.append_assoc, ← List.append_cons]
      by_cases hline : sep <:+: line
      · cases hcut : breakOn sep line with
        | none => exact absurd hline ((breakOn_eq_none_iff hsep).mp hcut)
        | some cut =>
            obtain ⟨front, back⟩ := cut
            refine ⟨front, _, breakOn_append hcut _, ?_⟩
            have hbegins : front ++ sep <+: line := ⟨back, (breakOn_eq_some hcut).symm⟩
            rw [List.append_assoc]
            exact hbegins.trans (List.prefix_append line _)
      · have hrest : ∃ line ∈ lines, sep <:+: line := by
          obtain ⟨other, hmem, hinfix⟩ := hlines
          rcases List.mem_cons.mp hmem with rfl | hmem
          · exact absurd hinfix hline
          · exact ⟨other, hmem, hinfix⟩
        obtain ⟨front, back, hcut, hbegins⟩ := ih hrest
        rw [breakOn_line hsep hline hc, hcut]
        refine ⟨_, _, rfl, ?_⟩
        dsimp only
        rw [List.append_assoc (line ++ [c])]
        exact (List.prefix_append_right_inj (line ++ [c])).mpr hbegins

/-- What stands between the occurrences of the separator, none of which overlap. -/
def pieces {sep : List α} (hsep : sep ≠ []) (text : List α) : List (List α) :=
  match _h : breakOn sep text with
  | none => [text]
  | some (front, back) => front :: pieces hsep back
termination_by text.length
decreasing_by exact length_lt_of_breakOn hsep _h

/-- The pieces of a text behind something that belongs to the first of them. -/
def piecesAfter {sep : List α} (hsep : sep ≠ []) (start text : List α) : List (List α) :=
  match breakOn sep text with
  | none => [start ++ text]
  | some (front, back) => (start ++ front) :: pieces hsep back

theorem pieces_of_none (hsep : sep ≠ []) (h : breakOn sep text = none) :
    pieces hsep text = [text] := by
  rw [pieces]
  split
  case h_1 => rfl
  case h_2 hcut => exact nomatch hcut.symm.trans h

theorem pieces_of_some (hsep : sep ≠ []) (h : breakOn sep text = some (front, back)) :
    pieces hsep text = front :: pieces hsep back := by
  rw [pieces]
  split
  case h_1 hcut => exact nomatch hcut.symm.trans h
  case h_2 hcut =>
    obtain ⟨rfl, rfl⟩ := Prod.mk.inj (Option.some.inj (hcut.symm.trans h))
    rfl

theorem pieces_ne_nil (hsep : sep ≠ []) (text : List α) : pieces hsep text ≠ [] := by
  cases h : breakOn sep text with
  | none => exact pieces_of_none hsep h ▸ List.cons_ne_nil _ _
  | some cut => exact pieces_of_some hsep h ▸ List.cons_ne_nil _ _

theorem piecesAfter_nil (hsep : sep ≠ []) (text : List α) :
    piecesAfter hsep [] text = pieces hsep text := by
  unfold piecesAfter
  cases h : breakOn sep text with
  | none => exact (pieces_of_none hsep h).symm
  | some cut => exact (pieces_of_some hsep h).symm

/-- A character at which no separator starts belongs to the piece. -/
theorem piecesAfter_cons (hsep : sep ≠ []) {c : α} {rest : List α} (h : ¬ sep <+: c :: rest)
    (start : List α) :
    piecesAfter hsep start (c :: rest) = piecesAfter hsep (start ++ [c]) rest := by
  unfold piecesAfter
  rw [breakOn, if_neg h]
  cases breakOn sep rest with
  | none => exact congrArg (fun piece => [piece]) (List.append_cons start c rest)
  | some cut => exact congrArg (· :: pieces hsep cut.2) (List.append_cons start c cut.1)

end Lists

section Strings

open String

/-- The loop of `splitOn`: behind `before`, the current piece has got the characters of
`start`, and `found` is what has been found of the separator behind them. -/
theorem splitOnAux_eq {sep : List Char} (hsep : sep ≠ [])
    (before start found missing rest : List Char) (acc : List String) (hmissing : missing ≠ [])
    (hfound : found ++ missing = sep) :
    splitOnAux (ofList (before ++ start ++ found ++ rest)) (ofList sep) ⟨utf8Len before⟩
        ⟨utf8Len (before ++ start ++ found)⟩ ⟨utf8Len found⟩ acc =
      acc.reverse ++ (piecesAfter hsep start (found ++ rest)).map ofList := by
  obtain ⟨d, missing, rfl⟩ := List.exists_cons_of_ne_nil hmissing
  rw [splitOnAux]
  cases rest with
  | nil =>
      have hend : Pos.Raw.atEnd (ofList (before ++ start ++ found ++ []))
          ⟨utf8Len (before ++ start ++ found)⟩ = true := (atEnd_of_valid _ []).mpr rfl
      have hpiece : Pos.Raw.extract (ofList (before ++ start ++ found ++ [])) ⟨utf8Len before⟩
          ⟨utf8Len (before ++ start ++ found)⟩ = ofList (start ++ found) := by
        have hextract := extract_of_valid before (start ++ found) []
        rwa [← utf8Len_append, ← List.append_assoc] at hextract
      have hnone : breakOn sep (found ++ []) = none := by
        rw [breakOn_eq_none_iff hsep]
        intro hin
        have hlength := hin.length_le
        rw [← hfound] at hlength
        simp at hlength
      rw [if_pos hend, hpiece, piecesAfter, hnone, List.append_nil]
      exact List.reverse_cons
  | cons c rest =>
      have hend : ¬ Pos.Raw.atEnd (ofList (before ++ start ++ found ++ c :: rest))
          ⟨utf8Len (before ++ start ++ found)⟩ = true := fun h =>
        nomatch (atEnd_of_valid _ (c :: rest)).mp h
      have hc : Pos.Raw.get (ofList (before ++ start ++ found ++ c :: rest))
          ⟨utf8Len (before ++ start ++ found)⟩ = c := get_of_valid _ (c :: rest)
      have hd : Pos.Raw.get (ofList sep) ⟨utf8Len found⟩ = d :=
        hfound ▸ get_of_valid found (d :: missing)
      rw [if_neg hend, hc, hd]
      by_cases hcd : c = d
      · subst hcd
        have hnext : Pos.Raw.next (ofList (before ++ start ++ found ++ c :: rest))
            ⟨utf8Len (before ++ start ++ found)⟩ =
              ⟨utf8Len (before ++ start ++ (found ++ [c]))⟩ := by
          rw [next_of_valid]
          simp [Nat.add_assoc]
        have hnext' : Pos.Raw.next (ofList sep) ⟨utf8Len found⟩ = ⟨utf8Len (found ++ [c])⟩ := by
          rw [← hfound, next_of_valid]
          simp
        have hat : Pos.Raw.atEnd (ofList sep) ⟨utf8Len (found ++ [c])⟩ = true ↔ missing = [] := by
          have hvalid := atEnd_of_valid (found ++ [c]) missing
          rwa [← List.append_cons, hfound] at hvalid
        rw [if_pos (beq_self_eq_true c), hnext, hnext']
        dsimp only
        by_cases hnil : missing = []
        · subst hnil
          have hpiece : Pos.Raw.extract (ofList (before ++ start ++ found ++ c :: rest))
              ⟨utf8Len before⟩ (Pos.Raw.unoffsetBy ⟨utf8Len (before ++ start ++ (found ++ [c]))⟩
                ⟨utf8Len (found ++ [c])⟩) = ofList start := by
            have hextract := extract_of_valid before start (found ++ c :: rest)
            rw [← List.append_assoc] at hextract
            rw [Pos.Raw.unoffsetBy, utf8Len_append (before ++ start), Nat.add_sub_cancel,
              utf8Len_append]
            exact hextract
          have ih := splitOnAux_eq hsep (before ++ start ++ (found ++ [c])) [] [] sep rest
            (ofList start :: acc) hsep (List.nil_append sep)
          have hcut : breakOn sep (found ++ c :: rest) = some ([], rest) := by
            rw [List.append_cons, hfound]
            exact breakOn_self hsep rest
          rw [if_pos (hat.mpr rfl), hpiece, piecesAfter, hcut]
          rw [List.nil_append, piecesAfter_nil] at ih
          simpa using ih
        · have ih := splitOnAux_eq hsep before start (found ++ [c]) missing rest acc hnil
            ((List.append_cons found c missing).symm.trans hfound)
          rw [if_neg (fun h => hnil (hat.mp h))]
          simpa using ih
      · have hbegins : ¬ sep <+: found ++ c :: rest := by
          rw [← hfound, List.prefix_append_right_inj]
          rintro ⟨_, heq⟩
          exact hcd (List.cons.inj heq).1.symm
        obtain ⟨e, tail, htail⟩ := List.exists_cons_of_ne_nil
          (List.append_ne_nil_of_right_ne_nil found (List.cons_ne_nil c rest))
        rw [if_neg (by simpa using hcd), htail, piecesAfter_cons hsep (htail ▸ hbegins)]
        have hlength : found.length + rest.length = tail.length := by
          have hlength := congrArg List.length htail
          simp at hlength
          omega
        have hnext : Pos.Raw.next (ofList (before ++ start ++ found ++ c :: rest))
            (Pos.Raw.unoffsetBy ⟨utf8Len (before ++ start ++ found)⟩ ⟨utf8Len found⟩) =
              ⟨utf8Len (before ++ (start ++ [e]) ++ [])⟩ := by
          rw [Pos.Raw.unoffsetBy, utf8Len_append (before ++ start), Nat.add_sub_cancel,
            List.append_assoc (before ++ start), htail, next_of_valid]
          simp [Nat.add_assoc]
        have ih := splitOnAux_eq hsep before (start ++ [e]) [] sep tail acc hsep
          (List.nil_append sep)
        have htext : before ++ (start ++ [e]) ++ [] ++ tail =
            before ++ start ++ found ++ c :: rest := by
          rw [List.append_assoc (before ++ start), htail]
          simp
        rw [hnext, ← htext]
        exact ih
termination_by (found.length + rest.length, rest.length)
decreasing_by
  all_goals
    rw [Prod.lex_def]
    simp only [List.length_append, List.length_cons, List.length_nil]
    omega

/-- `splitOn` gives the pieces. -/
theorem splitOn_eq {sep : String} (hsep : sep.toList ≠ []) (text : String) :
    text.splitOn sep = (pieces hsep text.toList).map ofList := by
  have haux := splitOnAux_eq hsep [] [] [] sep.toList text.toList [] hsep rfl
  rw [piecesAfter_nil] at haux
  unfold splitOn
  rw [if_neg]
  · simpa using haux
  · intro hempty
    exact hsep (by simpa using hempty)

end Strings

end GraphAgent.Splitting
