import Mathlib.Data.List.Chain
import GraphAgent.Library.Regex

/-!
# What a substitution leaves of a text

A text in which the matches of a pattern have been replaced: which characters are still in it,
in which order, and which of them stand side by side.
-/

namespace Regex

open Pattern

section Groups

variable {c d : Cursor}

/-- The groups that a match has set are pieces of the matched text. -/
theorem Pattern.groups_of_mem_results {r : Pattern} (h : d ∈ results r c) :
    ∃ w, c.rest = w ++ d.rest ∧ ∀ g ∈ d.groups, g ∈ c.groups ∨ g.2 <:+: w := by
  have htrans : ∀ {c e d : Cursor},
      (∃ w, c.rest = w ++ e.rest ∧ ∀ g ∈ e.groups, g ∈ c.groups ∨ g.2 <:+: w) →
      (∃ w, e.rest = w ++ d.rest ∧ ∀ g ∈ d.groups, g ∈ e.groups ∨ g.2 <:+: w) →
      ∃ w, c.rest = w ++ d.rest ∧ ∀ g ∈ d.groups, g ∈ c.groups ∨ g.2 <:+: w := by
    rintro c e d ⟨v, hv, hfirst⟩ ⟨w, hw, hsecond⟩
    refine ⟨v ++ w, by rw [hv, hw, List.append_assoc], fun g hg => ?_⟩
    rcases hsecond g hg with hearlier | hpart
    · exact (hfirst g hearlier).imp id fun hv => hv.trans (List.prefix_append v w).isInfix
    · exact Or.inr (hpart.trans (List.suffix_append v w).isInfix)
  have hstay : ∀ c : Cursor, ∃ w, c.rest = w ++ c.rest ∧
      ∀ g ∈ c.groups, g ∈ c.groups ∨ g.2 <:+: w := fun c => ⟨[], rfl, fun g hg => Or.inl hg⟩
  induction r generalizing c d with
  | empty =>
      obtain rfl := mem_results_empty.1 h
      exact hstay d
  | char p =>
      obtain ⟨a, rest, -, hrest, rfl⟩ := mem_results_char.1 h
      exact ⟨[a], hrest, fun g hg => Or.inl hg⟩
  | seq a b iha ihb =>
      obtain ⟨e, he, hd⟩ := mem_results_seq.1 h
      exact htrans (iha he) (ihb hd)
  | alt a b iha ihb => exact (mem_results_alt.1 h).elim iha ihb
  | star greedy a ih =>
      have hclosure : ∀ n : Nat, ∀ c, d ∈ closure (results a) greedy n c →
          ∃ w, c.rest = w ++ d.rest ∧ ∀ g ∈ d.groups, g ∈ c.groups ∨ g.2 <:+: w := by
        intro n
        induction n with
        | zero =>
            intro c hd
            obtain rfl : d = c := by simpa [closure] using hd
            exact hstay d
        | succ n hn =>
            intro c hd
            rcases mem_closure_succ.1 hd with rfl | ⟨e, he, -, hd⟩
            · exact hstay d
            · exact htrans (ih he) (hn e hd)
      exact hclosure _ c h
  | group n a ih =>
      obtain ⟨e, he, rfl⟩ := mem_results_group.1 h
      obtain ⟨w, hw, hgroups⟩ := ih he
      refine ⟨w, hw, fun g hg => ?_⟩
      rcases List.mem_cons.1 hg with rfl | hg
      · right
        have htake : c.rest.take (c.rest.length - e.rest.length) = w := by
          rw [hw, List.length_append, Nat.add_sub_cancel, List.take_left]
        exact htake ▸ List.infix_rfl
      · exact hgroups g hg
  | backref n =>
      unfold results at h
      split at h
      case h_1 => cases h
      case h_2 w _ =>
        split at h
        case isTrue hbelow =>
          obtain rfl := List.mem_singleton.1 h
          refine ⟨c.rest.take w.length, (List.take_append_drop _ _).symm, fun g hg => Or.inl hg⟩
        case isFalse => cases h
  | notAhead p => exact mem_results_notAhead h ▸ hstay c
  | notBehind p => exact mem_results_notBehind h ▸ hstay c
  | start => exact mem_results_start h ▸ hstay c
  | finish => exact mem_results_finish h ▸ hstay c

/-- A group of a match is a piece of its text. -/
theorem Accepts.group_part {r : Pattern} {m : Match} (h : Accepts r m) {n : Nat}
    {w : List Char} (hgroup : m.group? n = some w) : w <:+: m.text := by
  obtain ⟨last, rest, d, hd, hrest, hgroups⟩ := h
  obtain ⟨v, hv, hpieces⟩ := groups_of_mem_results hd
  have htext : m.text = v := by
    rw [hrest] at hv
    exact List.append_cancel_right hv
  have hmem : (n, w) ∈ d.groups := by
    obtain ⟨before, after, hsplit, -⟩ := List.lookup_eq_some_iff.1 hgroup
    rw [hgroups, hsplit]
    exact List.mem_append_right _ List.mem_cons_self
  rcases hpieces _ hmem with hnone | hpart
  · cases hnone
  · exact htext ▸ hpart

end Groups

section Characters

variable {r : Pattern} {f : Match → List Char} {c : Char} {text : List Char}

theorem exists_matchAt {last : Option Char} {d : Cursor}
    (h : d ∈ r.results ⟨last, text, []⟩) : ∃ m, matchAt r last text = some m := by
  obtain ⟨first, hfirst⟩ : ∃ first, (r.results ⟨last, text, []⟩).head? = some first := by
    cases hresults : r.results ⟨last, text, []⟩ with
    | nil =>
        rw [hresults] at h
        cases h
    | cons first rest => exact ⟨first, rfl⟩
  exact ⟨_, Option.map_eq_some_iff.2 ⟨first, hfirst, rfl⟩⟩

/-- What stands in the new text stood in the old one or comes with a replacement. -/
theorem mem_sub {P : Char → Prop} (hf : ∀ m, Accepts r m → ∀ c ∈ f m, c ∈ m.text ∨ P c)
    (h : c ∈ sub r f text) : c ∈ text ∨ P c := by
  obtain ⟨segment, hsegment, hc⟩ := List.mem_flatMap.1 h
  have htext : ∀ c ∈ segment.text, c ∈ text := fun c hc => by
    rw [← flatMap_text_segments (r := r) text]
    exact List.mem_flatMap.2 ⟨segment, hsegment, hc⟩
  cases segment with
  | plain d => exact Or.inl (htext c hc)
  | found m => exact (hf m (accepts_of_mem_segments hsegment) c hc).imp (htext c) id

/-- A character at which the pattern always matches is gone. -/
theorem not_mem_sub (hmatch : ∀ last rest, ∃ m, matchAt r last (c :: rest) = some m ∧ m.text ≠ [])
    (hf : ∀ m, Accepts r m → c ∉ f m) : c ∉ sub r f text := by
  have hscan : ∀ last, Segment.plain c ∉ scan r last 0 text := by
    intro last
    induction last, text using scan_induction r with
    | nil => simp
    | plain last d rest hnone ih =>
        rw [scan_plain hnone, List.mem_cons, not_or]
        refine ⟨fun heq => ?_, ih⟩
        obtain rfl := Segment.plain.inj heq
        obtain ⟨m, hm, hne⟩ := hmatch last rest
        exact hne (hnone m hm)
    | found last m rest hm hne ih =>
        rw [scan_found hm hne rfl, List.mem_cons, not_or]
        exact ⟨by simp, ih⟩
  intro h
  obtain ⟨segment, hsegment, hc⟩ := List.mem_flatMap.1 h
  cases segment with
  | plain d =>
      obtain rfl := List.mem_singleton.1 hc
      exact hscan none hsegment
  | found m => exact hf m (accepts_of_mem_segments hsegment) hc

/-- Where every replacement keeps the order of what it keeps, so does the substitution. -/
theorem filter_sub_sublist {p : Char → Bool}
    (hf : ∀ m, Accepts r m → ((f m).filter p).Sublist (m.text.filter p)) :
    ((sub r f text).filter p).Sublist (text.filter p) := by
  have hsegments : ∀ segments : List Segment,
      (∀ m, Segment.found m ∈ segments → Accepts r m) →
      ((segments.flatMap (Segment.render f)).filter p).Sublist
        ((segments.flatMap Segment.text).filter p) := by
    intro segments
    induction segments with
    | nil => simp
    | cons segment rest ih =>
        intro haccepts
        rw [List.flatMap_cons, List.flatMap_cons, List.filter_append, List.filter_append]
        refine List.Sublist.append ?_ (ih fun m hm => haccepts m (List.mem_cons_of_mem _ hm))
        cases segment with
        | plain d => exact List.Sublist.refl _
        | found m => exact hf m (haccepts m List.mem_cons_self)
  have hsub := hsegments (segments r text) fun m hm => accepts_of_mem_segments hm
  rwa [flatMap_text_segments] at hsub

theorem filter_sub_eq {p : Char → Bool}
    (hf : ∀ m, Accepts r m → (f m).filter p = m.text.filter p) :
    (sub r f text).filter p = text.filter p := by
  have hsegments : ∀ segment ∈ segments r text,
      (segment.render f).filter p = segment.text.filter p := by
    intro segment hsegment
    cases segment with
    | plain d => rfl
    | found m => exact hf m (accepts_of_mem_segments hsegment)
  unfold sub
  conv_rhs => rw [← flatMap_text_segments (r := r) text]
  rw [List.filter_flatMap, List.filter_flatMap]
  exact List.flatMap_congr hsegments

/-- Where no match stands nothing is replaced. -/
theorem sub_eq_of_unmatched
    (h : ∀ front rest m, text = front ++ rest → matchAt r front.getLast? rest = some m →
      m.text = []) : sub r f text = text := by
  have hscan : ∀ last rest, (∃ front, text = front ++ rest ∧ front.getLast? = last) →
      (scan r last 0 rest).flatMap (Segment.render f) = rest := by
    intro last rest
    induction last, rest using scan_induction r with
    | nil => simp
    | plain last d rest hnone ih =>
        rintro ⟨front, htext, -⟩
        rw [scan_plain hnone, List.flatMap_cons, ih ⟨front ++ [d], by simp [htext], by simp⟩]
        rfl
    | found last m rest hm hne ih =>
        rintro ⟨front, htext, rfl⟩
        exact absurd (h front _ m htext hm) hne
  exact hscan none text ⟨[], rfl, rfl⟩

/-- A greedy run takes all characters of its class that stand there. -/
theorem matchAt_plus_char {p : Char → Bool} {last : Option Char} {m : Match}
    (h : matchAt (plus true (.char p)) last text = some m) : m.text = text.takeWhile p := by
  obtain ⟨d, hd, htext, -⟩ := matchAt_text h
  obtain ⟨w, rest, hne, hw, hrest, -⟩ := mem_results_plus_char.1 hd
  have hsome : text.takeWhile p ≠ [] := by
    obtain ⟨a, w, rfl⟩ := List.exists_cons_of_ne_nil hne
    have hcons : text = a :: (w ++ rest) := hrest
    rw [hcons, List.takeWhile_cons_of_pos (hw a List.mem_cons_self)]
    exact List.cons_ne_nil _ _
  have hstop : ∀ a ∈ (text.dropWhile p).head?, p a = false := by
    intro a ha
    have hnot := List.head?_dropWhile_not p text
    rwa [Option.mem_def.1 ha] at hnot
  have hall : ∀ a ∈ text.takeWhile p, p a = true := List.all_eq_true.1 List.all_takeWhile
  have hfirst := head?_results_plus_char (c := ⟨last, text, []⟩) hsome hall hstop
    List.takeWhile_append_dropWhile.symm
  unfold matchAt at h
  rw [hfirst] at h
  obtain rfl := Option.some.inj h
  have hlength := congrArg List.length (List.takeWhile_append_dropWhile (p := p) (l := text))
  rw [List.length_append] at hlength
  have htake : text.length - (text.dropWhile p).length = (text.takeWhile p).length := by omega
  change text.take (text.length - (text.dropWhile p).length) = _
  rw [htake]
  exact (List.prefix_iff_eq_take.1 (List.takeWhile_prefix p)).symm

end Characters

section Demands

/-- Every match of the pattern has a character of this kind in its text. -/
def Needs (r : Pattern) (p : Char → Bool) : Prop :=
  ∀ c, ∀ d ∈ r.results c, ∃ w, c.rest = w ++ d.rest ∧ ∃ a ∈ w, p a = true

/-- Every match of the pattern begins with a character of this kind. -/
def Starts (r : Pattern) (p : Char → Bool) : Prop :=
  ∀ c, ∀ d ∈ r.results c, ∃ a rest, c.rest = a :: rest ∧ p a = true

variable {r s : Pattern} {p q : Char → Bool} {f : Match → List Char} {text : List Char}

theorem Needs.char (h : ∀ a, q a = true → p a = true) : Needs (.char q) p := by
  intro c d hd
  obtain ⟨a, rest, ha, hrest, rfl⟩ := mem_results_char.1 hd
  exact ⟨[a], hrest, a, List.mem_cons_self, h a ha⟩

theorem Needs.literal {w : List Char} (h : w.any p = true) : Needs (.literal w) p := by
  intro c d hd
  obtain ⟨rest, hrest, rfl⟩ := mem_results_literal.1 hd
  obtain ⟨a, ha, hp⟩ := List.any_eq_true.1 h
  exact ⟨w, hrest, a, ha, hp⟩

theorem Needs.group {n : ℕ} (h : Needs r p) : Needs (.group n r) p := by
  intro c d hd
  obtain ⟨e, he, rfl⟩ := mem_results_group.1 hd
  exact h c e he

theorem Needs.alt (h : Needs r p) (hs : Needs s p) : Needs (.alt r s) p := by
  intro c d hd
  exact (mem_results_alt.1 hd).elim (h c d) (hs c d)

theorem Needs.left (h : Needs r p) : Needs (.seq r s) p := by
  intro c d hd
  obtain ⟨e, he, hd⟩ := mem_results_seq.1 hd
  obtain ⟨v, hv, a, ha, hp⟩ := h c e he
  obtain ⟨w, hw⟩ := results_suffix hd
  exact ⟨v ++ w, by rw [hv, List.append_assoc, hw], a, List.mem_append_left _ ha, hp⟩

theorem Needs.right (h : Needs s p) : Needs (.seq r s) p := by
  intro c d hd
  obtain ⟨e, he, hd⟩ := mem_results_seq.1 hd
  obtain ⟨v, hv⟩ := results_suffix he
  obtain ⟨w, hw, a, ha, hp⟩ := h e d hd
  exact ⟨v ++ w, by rw [← hv, hw, List.append_assoc], a, List.mem_append_right _ ha, hp⟩

theorem Starts.char : Starts (.char p) p := by
  intro c d hd
  obtain ⟨a, rest, ha, hrest, rfl⟩ := mem_results_char.1 hd
  exact ⟨a, rest, hrest, ha⟩

theorem Starts.left (h : Starts r p) : Starts (.seq r s) p := by
  intro c d hd
  obtain ⟨e, he, -⟩ := mem_results_seq.1 hd
  exact h c e he

theorem Starts.alt (h : Starts r p) (hs : Starts s p) : Starts (.alt r s) p := by
  intro c d hd
  exact (mem_results_alt.1 hd).elim (h c d) (hs c d)

theorem Starts.imp (h : Starts r q) (himp : ∀ a, q a = true → p a = true) : Starts r p := by
  intro c d hd
  obtain ⟨a, rest, hrest, ha⟩ := h c d hd
  exact ⟨a, rest, hrest, himp a ha⟩

theorem Needs.accepts (h : Needs r p) {m : Match} (hm : Accepts r m) :
    ∃ a ∈ m.text, p a = true := by
  obtain ⟨last, rest, d, hd, hrest, -⟩ := hm
  obtain ⟨w, hw, a, ha, hp⟩ := h _ d hd
  rw [hrest] at hw
  exact ⟨a, List.append_cancel_right hw ▸ ha, hp⟩

/-- A text without the characters that the pattern needs stays as it is. -/
theorem Needs.sub_eq_of_unmatched (h : Needs r p) (htext : ∀ a ∈ text, p a = false) :
    sub r f text = text := by
  apply Regex.sub_eq_of_unmatched
  intro front rest m hsplit hm
  obtain ⟨d, -, hrest, -⟩ := matchAt_text hm
  obtain ⟨a, ha, hp⟩ := h.accepts (accepts_of_matchAt hm)
  have hmem : a ∈ text := by
    rw [hsplit, hrest]
    exact List.mem_append_right _ (List.mem_append_left _ ha)
  rw [htext a hmem] at hp
  cases hp

/-- Where a pattern that needs a character can match, it finds a match that is not empty. -/
theorem Needs.exists_match (h : Needs r p) {last : Option Char} {d : Cursor}
    (hd : d ∈ r.results ⟨last, text, []⟩) : ∃ m, matchAt r last text = some m ∧ m.text ≠ [] := by
  obtain ⟨m, hm⟩ := exists_matchAt hd
  obtain ⟨a, ha, -⟩ := h.accepts (accepts_of_matchAt hm)
  exact ⟨m, hm, List.ne_nil_of_mem ha⟩

/-- All characters of a class are gone when the runs of them are replaced by others. -/
theorem not_mem_sub_plus_char {c : Char} (hc : p c = true)
    (hf : ∀ m, Accepts (plus true (.char p)) m → c ∉ f m) :
    c ∉ sub (plus true (.char p)) f text := by
  refine not_mem_sub (fun last rest => ?_) hf
  have hneeds : Needs (plus true (.char p)) p := Needs.left (Needs.char fun a ha => ha)
  apply hneeds.exists_match (d := Cursor.past ⟨last, c :: rest, []⟩ [c] rest)
  exact mem_results_plus_char.2 ⟨[c], rest, List.cons_ne_nil _ _,
    List.forall_mem_singleton.2 hc, rfl, rfl⟩

end Demands

section Neighbours

variable {r : Pattern} {f : Match → List Char} {R : Char → Char → Prop} {text : List Char}

theorem isChain_of_part {part : List Char} (hpart : part <:+: text) (h : text.IsChain R) :
    part.IsChain R := by
  obtain ⟨front, back, rfl⟩ := hpart
  exact h.left_of_append.right_of_append

theorem isChain_replace {before old new after : List Char} (hne : new ≠ [])
    (hnew : new.IsChain R) (hlast : new.getLast? = old.getLast?)
    (hhead : ∀ a, ∀ b ∈ old.head?, R a b → ∀ b' ∈ new.head?, R a b') (hold : old ≠ [])
    (h : (before ++ old ++ after).IsChain R) : (before ++ new ++ after).IsChain R := by
  rw [List.append_assoc, List.isChain_append, List.isChain_append] at h ⊢
  obtain ⟨hbefore, ⟨-, hafter, hout⟩, hin⟩ := h
  refine ⟨hbefore, ⟨hnew, hafter, fun a ha b hb => hout a (hlast ▸ ha) b hb⟩, ?_⟩
  intro a ha b hb
  obtain ⟨first, old, rfl⟩ := List.exists_cons_of_ne_nil hold
  obtain ⟨first', new, rfl⟩ := List.exists_cons_of_ne_nil hne
  exact hhead a first rfl (hin a ha first rfl) b hb

/-- A relation between neighbours that every replacement keeps holds of the new text. -/
theorem isChain_sub (hne : ∀ m, Accepts r m → f m ≠ [])
    (hchain : ∀ m, Accepts r m → (f m).IsChain R)
    (hlast : ∀ m, Accepts r m → (f m).getLast? = m.text.getLast?)
    (hhead : ∀ m, Accepts r m → ∀ a, ∀ b ∈ m.text.head?, R a b → ∀ b' ∈ (f m).head?, R a b')
    (h : text.IsChain R) : (sub r f text).IsChain R := by
  have hscan : ∀ last rest, ∀ front : List Char, (front ++ rest).IsChain R →
      (front ++ (scan r last 0 rest).flatMap (Segment.render f)).IsChain R := by
    intro last rest
    induction last, rest using scan_induction r with
    | nil =>
        intro front hfront
        rwa [scan_nil]
    | plain last c rest hnone ih =>
        intro front hfront
        rw [scan_plain hnone, List.flatMap_cons, ← List.append_assoc]
        apply ih
        rwa [List.append_cons] at hfront
    | found last m rest hm hmne ih =>
        intro front hfront
        have haccepts := accepts_of_matchAt hm
        rw [scan_found hm hmne rfl, List.flatMap_cons, ← List.append_assoc]
        apply ih
        rw [← List.append_assoc] at hfront
        exact isChain_replace (hne m haccepts) (hchain m haccepts) (hlast m haccepts)
          (hhead m haccepts) hmne hfront
  exact hscan none text [] h

/-- The character can be the first one of the new text, as the first one of the old text or of a
replacement. -/
def Opens (r : Pattern) (f : Match → List Char) (text : List Char) (b : Char) : Prop :=
  text.head? = some b ∨
    ∃ m rest, text = m.text ++ rest ∧ m.text ≠ [] ∧ Accepts r m ∧ (f m).head? = some b

/-- A relation holds between neighbours of the new text if it holds behind every character that
is kept and behind every replacement. -/
theorem isChain_sub_of_opens (hne : ∀ m, Accepts r m → f m ≠ [])
    (hchain : ∀ m, Accepts r m → (f m).IsChain R)
    (hplain : ∀ last c rest, (∀ m, matchAt r last (c :: rest) = some m → m.text = []) →
      ∀ b, Opens r f rest b → R c b)
    (hfound : ∀ last m rest, matchAt r last (m.text ++ rest) = some m → m.text ≠ [] →
      ∀ a ∈ (f m).getLast?, ∀ b, Opens r f rest b → R a b) : (sub r f text).IsChain R := by
  have hscan : ∀ last text, ((scan r last 0 text).flatMap (Segment.render f)).IsChain R ∧
      ∀ b ∈ ((scan r last 0 text).flatMap (Segment.render f)).head?, Opens r f text b := by
    intro last text
    induction last, text using scan_induction r with
    | nil => simp
    | plain last c rest hnone ih =>
        rw [scan_plain hnone, List.flatMap_cons]
        refine ⟨List.isChain_cons.2 ⟨?_, ih.1⟩, fun b hb => Or.inl hb⟩
        intro b hb
        exact hplain last c rest hnone b (ih.2 b hb)
    | found last m rest hm hmne ih =>
        have haccepts := accepts_of_matchAt hm
        rw [scan_found hm hmne rfl, List.flatMap_cons]
        refine ⟨List.isChain_append.2 ⟨hchain m haccepts, ih.1, ?_⟩, fun b hb => Or.inr ?_⟩
        · intro a ha b hb
          exact hfound last m rest hm hmne a ha b (ih.2 b hb)
        · obtain ⟨first, tail, hfirst⟩ := List.exists_cons_of_ne_nil (hne m haccepts)
          have hrender : (Segment.found m).render f = first :: tail := hfirst
          rw [hrender] at hb
          exact ⟨m, rest, rfl, hmne, haccepts, by rw [hfirst]; exact hb⟩
  exact (hscan none text).1

end Neighbours

end Regex
