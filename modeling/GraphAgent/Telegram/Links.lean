import GraphAgent.Telegram.Markup

/-!
# Links

`_inline` looks for links in text that has been escaped. It finds the links of the text itself
there, since the characters around a label and a URL are not escaped, and what it writes are
tags with the escaped URLs.
-/

namespace GraphAgent.Telegram

open Regex Regex.Pattern Automaton

section Escape

/-- A character that is not escaped and of which no entity is made. -/
def isKept (c : Char) : Bool :=
  c ∉ ['&', '<', '>'] ++ "&amp;".toList ++ "&lt;".toList ++ "&gt;".toList

theorem escapeHtml_append (front back : List Char) :
    escapeHtml (front ++ back) = escapeHtml front ++ escapeHtml back := by
  simp [escapeHtml_eq]

theorem escapeHtml_cons (c : Char) (text : List Char) :
    escapeHtml (c :: text) = escapeChar c ++ escapeHtml text := by
  simp [escapeHtml_eq]

theorem escapeChar_of_isKept {c : Char} (h : isKept c = true) : escapeChar c = [c] := by
  rcases escapeChar_cases c with ⟨rfl, -⟩ | ⟨rfl, -⟩ | ⟨rfl, -⟩ | ⟨-, -, -, heq⟩
  · cases h
  · cases h
  · cases h
  · exact heq

theorem eq_of_mem_escapeChar {c d : Char} (h : isKept d = true) (hmem : d ∈ escapeChar c) :
    d = c := by
  simp only [isKept, decide_eq_true_eq, List.mem_append, not_or] at h
  rcases escapeChar_cases c with ⟨-, heq⟩ | ⟨-, heq⟩ | ⟨-, heq⟩ | ⟨-, -, -, heq⟩
  · exact absurd (heq ▸ hmem) h.1.1.2
  · exact absurd (heq ▸ hmem) h.1.2
  · exact absurd (heq ▸ hmem) h.2
  · exact List.mem_singleton.1 (heq ▸ hmem)

theorem mem_escapeHtml {c : Char} (h : isKept c = true) {text : List Char} :
    c ∈ escapeHtml text ↔ c ∈ text := by
  rw [escapeHtml_eq, List.mem_flatMap]
  constructor
  · rintro ⟨d, hd, hmem⟩
    exact eq_of_mem_escapeChar h hmem ▸ hd
  · exact fun hc => ⟨c, hc, by simp [escapeChar_of_isKept h]⟩

theorem escapeHtml_eq_nil {text : List Char} (h : escapeHtml text = []) : text = [] := by
  cases text with
  | nil => rfl
  | cons c text =>
      rw [escapeHtml_cons, List.append_eq_nil_iff] at h
      rcases escapeChar_cases c with ⟨-, heq⟩ | ⟨-, heq⟩ | ⟨-, heq⟩ | ⟨-, -, -, heq⟩
      · simp [heq] at h
      · simp [heq] at h
      · simp [heq] at h
      · simp [heq] at h

/-- A character that is kept divides the escaped text where it divides the text. -/
theorem split_of_escapeHtml {c : Char} (h : isKept c = true) {text front back : List Char}
    (heq : escapeHtml text = front ++ c :: back) :
    ∃ before after, text = before ++ c :: after ∧ escapeHtml before = front ∧
      escapeHtml after = back := by
  induction text generalizing front with
  | nil => simp [escapeHtml_eq] at heq
  | cons d text ih =>
      rw [escapeHtml_cons, List.append_eq_append_iff] at heq
      rcases heq with ⟨more, rfl, hrest⟩ | ⟨more, hd, hrest⟩
      · obtain ⟨before, after, rfl, rfl, rfl⟩ := ih hrest
        exact ⟨d :: before, after, rfl, escapeHtml_cons d before, rfl⟩
      · cases more with
        | nil =>
            obtain ⟨before, after, rfl, hbefore, rfl⟩ := @ih [] hrest.symm
            obtain rfl := escapeHtml_eq_nil hbefore
            exact ⟨[d], after, rfl, by simpa [escapeHtml_eq] using hd, rfl⟩
        | cons a more =>
            obtain ⟨rfl, rfl⟩ := List.cons.inj hrest
            obtain rfl := eq_of_mem_escapeChar h (show c ∈ escapeChar d by simp [hd])
            rw [escapeChar_of_isKept h] at hd
            cases front with
            | nil =>
                obtain ⟨-, rfl⟩ := List.cons.inj hd
                exact ⟨[], text, rfl, rfl, rfl⟩
            | cons b front => simp at hd

end Escape

section Scan

/-- A match in the escaped text. -/
def escapeMatch (m : Match) : Match :=
  ⟨escapeHtml m.text, m.groups.map fun g => (g.1, escapeHtml g.2)⟩

/-- What a scan of the escaped text finds where one of the text finds the segment. -/
def escapeSegment : Segment → List Segment
  | .plain c => (escapeChar c).map .plain
  | .found m => [.found (escapeMatch m)]

theorem group_escapeMatch (m : Match) (n : Nat) : group (escapeMatch m) n = escapeHtml (group m n) := by
  have hlookup : (escapeMatch m).groups.lookup n = (m.groups.lookup n).map escapeHtml := by
    unfold escapeMatch
    induction m.groups with
    | nil => rfl
    | cons g rest ih =>
        rw [List.map_cons, List.lookup_cons, List.lookup_cons, ih]
        split <;> rfl
  unfold group Match.group?
  rw [hlookup]
  cases m.groups.lookup n <;> rfl

variable {link label url : List Char}

theorem IsLink.escape (h : IsLink link label url) :
    IsLink (escapeHtml link) (escapeHtml label) (escapeHtml url) := by
  refine ⟨?_, mt escapeHtml_eq_nil h.label_ne, ?_, mt escapeHtml_eq_nil h.url_ne, fun a ha => ?_⟩
  · rw [h.text_eq]
    simp only [escapeHtml_append]
    rfl
  · exact mt (mem_escapeHtml (by decide)).1 h.label_class
  · rw [escapeHtml_eq, List.mem_flatMap] at ha
    obtain ⟨c, hc, hmem⟩ := ha
    have hentities : ∀ w ∈ ["&amp;".toList, "&lt;".toList, "&gt;".toList],
        (w.all fun b => b ≠ ')' && !Text.isSpace b) = true := by decide
    have hentity : ∀ w ∈ ["&amp;".toList, "&lt;".toList, "&gt;".toList], ∀ b ∈ w,
        b ≠ ')' ∧ Text.isSpace b = false := fun w hw b hb => by
      simpa using List.all_eq_true.1 (hentities w hw) b hb
    rcases escapeChar_cases c with ⟨-, heq⟩ | ⟨-, heq⟩ | ⟨-, heq⟩ | ⟨-, -, -, heq⟩
    · exact hentity _ (by simp) a (heq ▸ hmem)
    · exact hentity _ (by simp) a (heq ▸ hmem)
    · exact hentity _ (by simp) a (heq ▸ hmem)
    · obtain rfl := List.mem_singleton.1 (heq ▸ hmem)
      exact h.url_class a hc

/-- A link at the beginning of the escaped text is one of the text. -/
theorem exists_link_of_escape {text rest : List Char} (h : IsLink link label url)
    (heq : escapeHtml text = link ++ rest) :
    ∃ other label' url' rest', IsLink other label' url' ∧ text = other ++ rest' := by
  have hsplit : escapeHtml text = [] ++ '[' :: (label ++ ']' :: ([] ++ '(' :: (url ++ ')' :: rest))) := by
    simpa [h.text_eq] using heq
  obtain ⟨front, text₁, rfl, hfront, h₁⟩ := split_of_escapeHtml (by decide) hsplit
  obtain rfl := escapeHtml_eq_nil hfront
  obtain ⟨label', text₂, rfl, rfl, h₂⟩ := split_of_escapeHtml (by decide) h₁
  obtain ⟨between, text₃, rfl, hbetween, h₃⟩ := split_of_escapeHtml (by decide) h₂
  obtain rfl := escapeHtml_eq_nil hbetween
  obtain ⟨url', text₄, rfl, rfl, -⟩ := split_of_escapeHtml (by decide) h₃
  refine ⟨_, label', url', text₄, ⟨rfl, ?_, ?_, ?_, fun a ha => ?_⟩, by simp⟩
  · rintro rfl
    exact h.label_ne rfl
  · exact mt (mem_escapeHtml (by decide)).2 h.label_class
  · rintro rfl
    exact h.url_ne rfl
  · by_cases hescaped : escapeChar a = [a]
    · refine h.url_class a ?_
      rw [escapeHtml_eq, List.mem_flatMap]
      exact ⟨a, ha, by simp [hescaped]⟩
    · rcases escapeChar_cases a with ⟨rfl, -⟩ | ⟨rfl, -⟩ | ⟨rfl, -⟩ | ⟨-, -, -, heq⟩
      · decide
      · decide
      · decide
      · exact absurd heq hescaped

/-- Where no link begins the scan passes. -/
theorem scan_link_plain {w : List Char} (h : '[' ∉ w) (last : Option Char) (rest : List Char) :
    ∃ next, scan linkPattern last 0 (w ++ rest) = w.map .plain ++ scan linkPattern next 0 rest := by
  induction w generalizing last with
  | nil => exact ⟨last, rfl⟩
  | cons c w ih =>
      simp only [List.mem_cons, not_or] at h
      obtain ⟨next, hnext⟩ := ih h.2 (some c)
      refine ⟨next, ?_⟩
      rw [List.cons_append, scan_plain, hnext]
      · rfl
      · intro m hm
        obtain ⟨label, url, tail, hlink, htext, -⟩ := matchAt_link_iff.1 hm
        rw [hlink.text_eq] at htext
        exact absurd (List.cons.inj htext).1 (Ne.symm h.1)

theorem scan_escapeHtml (last other : Option Char) (text : List Char) :
    scan linkPattern other 0 (escapeHtml text) =
      (scan linkPattern last 0 text).flatMap escapeSegment := by
  induction last, text using scan_induction linkPattern generalizing other with
  | nil last => simp [escapeHtml_eq]
  | plain last c text h ih =>
      rw [scan_plain h, List.flatMap_cons, escapeHtml_cons]
      by_cases hc : c = '['
      · subst hc
        have hnone : ∀ m, matchAt linkPattern other ('[' :: escapeHtml text) = some m → m.text = [] := by
          intro m hm
          obtain ⟨label, url, rest, hlink, htext, -⟩ := matchAt_link_iff.1 hm
          have hescaped : escapeHtml ('[' :: text) = m.text ++ rest := by
            rw [escapeHtml_cons]
            exact htext
          obtain ⟨link, label', url', rest', hlink', htext'⟩ := exists_link_of_escape hlink hescaped
          have hfound : matchAt linkPattern last ('[' :: text) = some ⟨link, [(2, url'), (1, label')]⟩ :=
            matchAt_link_iff.2 ⟨label', url', rest', hlink', htext', rfl⟩
          exact absurd (h _ hfound) hlink'.ne_nil
        change scan linkPattern other 0 ('[' :: escapeHtml text) = _
        rw [scan_plain hnone, ih (some '[')]
        rfl
      · have hmem : '[' ∉ escapeChar c := fun hmem => hc (eq_of_mem_escapeChar (by decide) hmem).symm
        obtain ⟨next, hnext⟩ := scan_link_plain hmem other (escapeHtml text)
        rw [hnext, ih next]
        rfl
  | found last m rest h hne ih =>
      obtain ⟨label, url, tail, hlink, htext, hgroups⟩ := matchAt_link_iff.1 h
      have hfound : matchAt linkPattern other ((escapeMatch m).text ++ escapeHtml rest) =
          some (escapeMatch m) := by
        refine matchAt_link_iff.2 ⟨_, _, _, hlink.escape, rfl, ?_⟩
        simp [escapeMatch, hgroups]
      have hne' : (escapeMatch m).text ≠ [] := hlink.escape.ne_nil
      rw [scan_found h hne rfl, List.flatMap_cons, escapeHtml_append]
      change scan linkPattern other 0 ((escapeMatch m).text ++ escapeHtml rest) = _
      rw [scan_found hfound hne' rfl, ih]
      rfl

/-- The links of the escaped text are those of the text. -/
theorem segments_escapeHtml (text : List Char) :
    segments linkPattern (escapeHtml text) = (segments linkPattern text).flatMap escapeSegment :=
  scan_escapeHtml none none text

end Scan

section Reading

/-- The URL of the link that a segment is. -/
def linkUrl : Segment → List (List Char)
  | .plain _ => []
  | .found m => [group m 2]

/-- The URLs of the links of a text, where placeholders stand for its code spans. -/
def linkUrls (text : List Char) : List (List Char) :=
  (segments linkPattern (stash codeMark 0 (segments inlineCodePattern text))).flatMap linkUrl

/-- A URL as HTML, with its quotes escaped too. -/
def escapeUrl (url : List Char) : List Char := replaceChar '"' "&quot;".toList (escapeHtml url)

theorem not_mem_escapeUrl (url : List Char) :
    '<' ∉ escapeUrl url ∧ '>' ∉ escapeUrl url ∧ '"' ∉ escapeUrl url := by
  obtain ⟨hlt, hgt⟩ := not_mem_escapeHtml url
  have hquots : (['<', '>', '"'].all fun c => c ∉ "&quot;".toList) = true := by decide
  have hquot : ∀ c ∈ ['<', '>', '"'], c ∉ "&quot;".toList := fun c hc =>
    of_decide_eq_true (List.all_eq_true.1 hquots c hc)
  have hnone : ∀ c ∈ ['<', '>', '"'], (c = '"' ∨ c ∉ escapeHtml url) → c ∉ escapeUrl url := by
    intro c hc hnot hmem
    obtain ⟨d, hd, hmem⟩ := List.mem_flatMap.1 hmem
    split at hmem
    case isTrue => exact hquot c hc hmem
    case isFalse hne =>
      obtain rfl := List.mem_singleton.1 hmem
      exact hnot.elim hne fun hnot => hnot hd
  exact ⟨hnone '<' (by simp) (.inr hlt), hnone '>' (by simp) (.inr hgt),
    hnone '"' (by simp) (.inl rfl)⟩

theorem nul_mem_escapeUrl {url : List Char} : '\x00' ∈ escapeUrl url ↔ '\x00' ∈ url := by
  have hkept : '\x00' ∈ escapeHtml url ↔ '\x00' ∈ url := mem_escapeHtml (by decide)
  rw [← hkept, escapeUrl, replaceChar, List.mem_flatMap]
  constructor
  · rintro ⟨d, hd, hmem⟩
    split at hmem
    case isTrue => exact absurd hmem (by decide)
    case isFalse => exact List.mem_singleton.1 hmem ▸ hd
  · exact fun hmem => ⟨'\x00', hmem, by simp⟩

theorem reads_link (m : Match) : Reads ('\x00' ∉ group m 2) [escapeUrl (group m 2)]
    (renderLink (escapeMatch m)) := by
  obtain ⟨hlt, hgt, hquot⟩ := not_mem_escapeUrl (group m 2)
  have hname : IsName ['a'] := by decide
  have hgtAttrs : '>' ∉ " href=\"".toList ++ escapeUrl (group m 2) ++ ['"'] :=
    not_mem_attr (by decide) hgt (by decide)
  rw [renderLink_eq, group_escapeMatch, group_escapeMatch]
  change Reads _ _ (['<'] ++ ['a'] ++ (" href=\"".toList ++ escapeUrl (group m 2) ++ ['"']) ++ ['>'] ++
    escapeHtml (group m 1) ++ closeTag ['a'])
  constructor
  · intro hnul names hrefs
    have hhref : hrefOf (['a'] ++ (" href=\"".toList ++ escapeUrl (group m 2) ++ ['"'])) =
        [escapeUrl (group m 2)] := by
      have hclass : ∀ c ∈ escapeUrl (group m 2), decide (c ≠ '"') = true := by
        intro c hc
        simpa using fun heq : c = '"' => hquot (heq ▸ hc)
      change [List.takeWhile (fun c => decide (c ≠ '"')) (escapeUrl (group m 2) ++ ['"'])] = _
      rw [List.takeWhile_append_of_pos hclass]
      simp
    rw [run_attrTag hname (by simp) (not_mem_attr (by decide) hlt (by decide)) hgtAttrs
      (not_mem_attr (by decide) (mt nul_mem_escapeUrl.1 hnul) (by decide))
      (wellFormed_escapeHtml _), hhref]
  · intro hnul names hrefs
    have hattrsNul : '\x00' ∈ " href=\"".toList ++ escapeUrl (group m 2) ++ ['"'] := by
      simp only [List.mem_append]
      exact .inl (.inr (nul_mem_escapeUrl.2 (not_not.1 hnul)))
    have hrefused : run readStep ⟨.text, names, hrefs⟩ (['<'] ++ ['a'] ++ (" href=\"".toList ++
        escapeUrl (group m 2) ++ ['"']) ++ (['>'] ++ escapeHtml (group m 1) ++ closeTag ['a'])) =
          none := run_openTag_nul hname hgtAttrs hattrsNul _
    simpa only [List.append_assoc] using hrefused

theorem linked_eq (text : List Char) : linked text =
    (segments linkPattern (stash codeMark 0 (segments inlineCodePattern text))).flatMap
      fun segment => (escapeSegment segment).flatMap (Segment.render renderLink) := by
  rw [linked, sub, segments_escapeHtml, List.flatMap_assoc]

/-- The text with its links is well-formed exactly if no code stands in a URL, and the links
have the escaped URLs. -/
theorem reads_linked (text : List Char) : Reads (∀ url ∈ linkUrls text, '\x00' ∉ url)
    ((linkUrls text).map escapeUrl) (linked text) := by
  have hsegment : ∀ segment : Segment, Reads (∀ url ∈ linkUrl segment, '\x00' ∉ url)
      ((linkUrl segment).map escapeUrl)
      ((escapeSegment segment).flatMap (Segment.render renderLink)) := by
    intro segment
    cases segment with
    | plain c =>
        have htext : (escapeSegment (.plain c)).flatMap (Segment.render renderLink) =
            escapeHtml [c] := by
          simp [escapeSegment, escapeHtml_eq, List.flatMap_map, Segment.render]
        rw [htext]
        obtain ⟨hlt, hgt⟩ := not_mem_escapeHtml [c]
        exact (reads_bare hlt hgt).congr (by simp [linkUrl])
    | found m =>
        have htext : (escapeSegment (.found m)).flatMap (Segment.render renderLink) =
            renderLink (escapeMatch m) := by simp [escapeSegment, Segment.render]
        rw [htext]
        exact (reads_link m).congr (by simp [linkUrl])
  rw [linked_eq, linkUrls, List.map_flatMap]
  refine (reads_flatMap fun segment _ => hsegment segment).congr ?_
  simp only [List.forall_mem_flatMap]

end Reading

end GraphAgent.Telegram
