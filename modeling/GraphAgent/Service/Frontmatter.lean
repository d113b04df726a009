import GraphAgent.Library.Splitting
import GraphAgent.Service.SystemPrompt

/-!
# The frontmatter of a skill

What `_parse_frontmatter` hands to the YAML loader, against the lines between the two
delimiter lines of a `SKILL.md`.
-/

namespace GraphAgent

section Source

/-- `_parse_frontmatter` up to the loader. -/
def frontOf (file : SkillFile) : Except String String :=
  if file.text.startsWith "---" then
    match file.text.splitOn "---" with
    | _ :: front :: _ :: _ => .ok front
    | _ => .error (file.path ++ ": unterminated YAML frontmatter")
  else .error (file.path ++ ": missing YAML frontmatter")

variable (safeLoad : String → Except String Value)

/-- `_parse_frontmatter` from the loader on. -/
def skillOf (file : SkillFile) (front : String) : Except String Skill :=
  match safeLoad front with
  | .error message => .error message
  | .ok (.obj fields) => do
      let name ← frontmatterText file.path fields "name"
      let description ← frontmatterText file.path fields "description"
      return ⟨name, description, file.relativePath⟩
  | .ok _ => .error (file.path ++ ": frontmatter is not a mapping")

theorem parseFrontmatter_eq (file : SkillFile) :
    parseFrontmatter safeLoad file = (frontOf file).bind (skillOf safeLoad file) := by
  unfold parseFrontmatter frontOf
  split
  case isTrue => rcases file.text.splitOn "---" with _ | ⟨_, _ | ⟨_, _ | _⟩⟩ <;> rfl
  case isFalse => rfl

end Source

section Purpose

/-- A `SKILL.md` with frontmatter: the lines between its delimiter lines, and what follows
the line break behind the second of them, if there is one. -/
structure SkillText where
  lines : List String
  body : Option String
  unbroken : ∀ line ∈ lines, '\n' ∉ line.toList
  undelimited : ∀ line ∈ lines, line ≠ "---"

/-- The frontmatter between the delimiter lines. -/
def SkillText.frontmatter (skill : SkillText) : String := "\n".intercalate skill.lines

/-- The file as it is written. -/
def SkillText.text (skill : SkillText) : String :=
  "---\n" ++ String.join (skill.lines.map (· ++ "\n")) ++ "---" ++
    (skill.body.map ("\n" ++ ·)).getD ""

def SkillText.file (skill : SkillText) (path relativePath : String) : SkillFile :=
  ⟨path, relativePath, skill.text⟩

/-- `text.strip("\n")`. -/
def stripBreaks (text : String) : String :=
  String.ofList ((text.toList.dropWhile (· = '\n')).rdropWhile (· = '\n'))

/-- The loader is handed the frontmatter, up to line breaks around it. -/
def HandsFrontmatter (file : SkillFile) (skill : SkillText) : Prop :=
  ∃ front, frontOf file = .ok front ∧ stripBreaks front = stripBreaks skill.frontmatter

end Purpose

section Breaks

theorem toList_stripBreaks (text : String) :
    (stripBreaks text).toList =
      (text.toList.dropWhile (· = '\n')).rdropWhile (· = '\n') := String.toList_ofList

theorem ink_stripBreaks (text : String) :
    Text.ink (stripBreaks text).toList = Text.ink text.toList := by
  have hspace : ∀ c : Char, decide (c = '\n') = true → Text.isSpace c = true := by
    intro c hc
    rw [of_decide_eq_true hc]
    rfl
  rw [toList_stripBreaks, Text.ink_rdropWhile hspace, Text.ink_dropWhile hspace]

theorem ink_break (chars : List Char) : Text.ink ('\n' :: chars) = Text.ink chars :=
  List.countP_cons_of_neg (by decide)

/-- Texts that differ in line breaks around them only have got the same ink. -/
theorem ink_eq_of_stripBreaks_eq {front back : List Char}
    (h : stripBreaks (String.ofList front) = stripBreaks (String.ofList back)) :
    Text.ink front = Text.ink back := by
  calc
    Text.ink front = Text.ink (stripBreaks (String.ofList front)).toList := by
      rw [ink_stripBreaks, String.toList_ofList]
    _ = Text.ink (stripBreaks (String.ofList back)).toList := by rw [h]
    _ = Text.ink back := by rw [ink_stripBreaks, String.toList_ofList]

/-- A line break at each end is stripped. -/
theorem stripBreaks_around (chars : List Char) :
    stripBreaks (String.ofList ('\n' :: (chars ++ ['\n']))) =
      stripBreaks (String.ofList chars) := by
  unfold stripBreaks
  rw [String.toList_ofList, String.toList_ofList, List.dropWhile_cons_of_pos rfl,
    Text.rdropWhile_dropWhile_concat rfl]

/-- Lines that all end are the joined lines with a line break behind them. -/
theorem flatMap_concat_eq {lines : List (List Char)} (h : lines ≠ []) :
    lines.flatMap (· ++ ['\n']) = ['\n'].intercalate lines ++ ['\n'] := by
  induction lines with
  | nil => exact absurd rfl h
  | cons line rest ih =>
      cases rest with
      | nil => simp
      | cons next rest =>
          rw [List.intercalate_cons_cons, List.flatMap_cons, ih (List.cons_ne_nil next rest)]
          simp

end Breaks

section Handed

variable (skill : SkillText)

/-- The frontmatter with a line break behind each line. -/
def SkillText.block : List Char :=
  (skill.lines.map String.toList).flatMap (· ++ ['\n'])

/-- What follows the second delimiter. -/
def SkillText.rest : List Char := ((skill.body.map ("\n" ++ ·)).getD "").toList

theorem SkillText.toList_text :
    skill.text.toList =
      "---".toList ++ ([] ++ '\n' :: (skill.block ++ ("---".toList ++ skill.rest))) := by
  have hlines : (String.join (skill.lines.map (· ++ "\n"))).toList = skill.block := by
    rw [String.toList_join, List.flatMap_map, SkillText.block, List.flatMap_map]
    exact congrArg (List.flatMap · skill.lines) (funext fun line => String.toList_append)
  simp only [SkillText.text, String.toList_append, hlines]
  simp [SkillText.rest]

theorem dashes_ne_nil : "---".toList ≠ [] := by decide

theorem break_not_mem_dashes : '\n' ∉ "---".toList := by decide

/-- The loader is handed what stands between the first two places at which `---` stands. -/
theorem SkillText.frontOf_eq {front back : List Char} (path relativePath : String)
    (hcut : Splitting.breakOn "---".toList (skill.block ++ ("---".toList ++ skill.rest)) =
      some (front, back)) :
    frontOf (skill.file path relativePath) = .ok (String.ofList ('\n' :: front)) := by
  have hstart : skill.text.startsWith "---" = true := by
    rw [String.startsWith_string_iff, skill.toList_text]
    exact List.prefix_append _ _
  have hfirst := Splitting.breakOn_self dashes_ne_nil
    ([] ++ '\n' :: (skill.block ++ ("---".toList ++ skill.rest)))
  have hopen : ¬ "---".toList <:+: [] := by decide
  have hsecond := Splitting.breakOn_line dashes_ne_nil hopen break_not_mem_dashes
    (skill.block ++ ("---".toList ++ skill.rest))
  rw [hcut] at hsecond
  have hsplit : skill.text.splitOn "---" =
      "" :: String.ofList ('\n' :: front) ::
        (Splitting.pieces dashes_ne_nil back).map String.ofList := by
    rw [Splitting.splitOn_eq dashes_ne_nil, skill.toList_text,
      Splitting.pieces_of_some dashes_ne_nil hfirst, Splitting.pieces_of_some dashes_ne_nil hsecond]
    rfl
  obtain ⟨piece, pieces, hpieces⟩ :=
    List.exists_cons_of_ne_nil (Splitting.pieces_ne_nil dashes_ne_nil back)
  rw [hpieces] at hsplit
  unfold frontOf SkillText.file
  dsimp only
  rw [if_pos hstart, hsplit]
  rfl

theorem SkillText.stripBreaks_block :
    stripBreaks (String.ofList ('\n' :: skill.block)) = stripBreaks skill.frontmatter := by
  have hfrontmatter : skill.frontmatter =
      String.ofList (['\n'].intercalate (skill.lines.map String.toList)) := by
    rw [← String.toList_inj, String.toList_ofList]
    exact String.toList_intercalate
  rw [SkillText.block, hfrontmatter]
  by_cases hlines : skill.lines.map String.toList = []
  · rw [hlines]
    rfl
  · rw [flatMap_concat_eq hlines, stripBreaks_around]

/-- The loader is handed the frontmatter exactly if no line of it contains the delimiter. -/
theorem handsFrontmatter_iff (skill : SkillText) (path relativePath : String) :
    HandsFrontmatter (skill.file path relativePath) skill ↔
      ∀ line ∈ skill.lines, ¬ "---".toList <:+: line.toList := by
  constructor
  · rintro ⟨handed, hfront, hsame⟩ line hline hinfix
    obtain ⟨front, back, hcut, hbegins⟩ :=
      Splitting.breakOn_lines_of_infix dashes_ne_nil
        ⟨line.toList, List.mem_map_of_mem hline, hinfix⟩ break_not_mem_dashes
        ("---".toList ++ skill.rest)
    obtain rfl := Except.ok.inj (hfront.symm.trans (skill.frontOf_eq path relativePath hcut))
    have hink := ink_eq_of_stripBreaks_eq (hsame.trans skill.stripBreaks_block.symm)
    rw [ink_break, ink_break] at hink
    -- What is handed over has lost the dashes, and no line break makes up for them.
    have hless : Text.ink front < Text.ink skill.block := by
      calc
        Text.ink front < Text.ink front + Text.ink "---".toList :=
          Nat.lt_add_of_pos_right (by decide)
        _ = Text.ink (front ++ "---".toList) := (Text.ink_append front _).symm
        _ ≤ Text.ink skill.block := hbegins.sublist.countP_le
    exact absurd hink hless.ne
  · intro hlines
    have hcut := Splitting.breakOn_lines dashes_ne_nil
      (List.forall_mem_map.mpr hlines) break_not_mem_dashes skill.rest
    exact ⟨_, skill.frontOf_eq path relativePath hcut, skill.stripBreaks_block⟩

/-- A skill whose name contains the delimiter. -/
def dashedSkill : SkillText where
  lines := ["name: a---b", "description: d"]
  body := some "Steps."
  unbroken := by decide
  undelimited := by decide

/-- The loader is handed half of the first line. -/
theorem frontmatter_cut_in_line :
    dashedSkill.text = "---\nname: a---b\ndescription: d\n---\nSteps." ∧
      frontOf (dashedSkill.file "skills/a/SKILL.md" "skills/a/SKILL.md") = .ok "\nname: a" ∧
      ¬ HandsFrontmatter (dashedSkill.file "skills/a/SKILL.md" "skills/a/SKILL.md")
        dashedSkill := by
  have hcut : Splitting.breakOn "---".toList
      (dashedSkill.block ++ ("---".toList ++ dashedSkill.rest)) =
        some ("name: a".toList, "b\ndescription: d\n---\nSteps.".toList) := by decide
  have hfront : frontOf (dashedSkill.file "skills/a/SKILL.md" "skills/a/SKILL.md") =
      .ok "\nname: a" := dashedSkill.frontOf_eq _ _ hcut
  refine ⟨by decide, hfront, ?_⟩
  rintro ⟨handed, hhanded, hsame⟩
  obtain rfl := Except.ok.inj (hhanded.symm.trans hfront)
  exact absurd hsame (by decide)

end Handed

end GraphAgent
