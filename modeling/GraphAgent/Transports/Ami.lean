import GraphAgent.Core.Text
import GraphAgent.Library.Blocks

/-!
# Calls over the Asterisk Manager Interface

`OutboundCaller.call` and `AmiClient.originate` up to the bytes that they write, and
`_read_block`, which reads such bytes. A line break in a value ends its header.
-/

namespace GraphAgent.Voice

/-- A block: headers and their values. -/
abbrev Fields := List (String × String)

section Bytes

/-- `text.encode()` on the characters. -/
def encodeChars (chars : List Char) : List UInt8 := chars.flatMap String.utf8EncodeChar

/-- `text.encode()`. -/
def encode (text : String) : List UInt8 := encodeChars text.toList

/-- `line.decode("utf-8", errors="replace")`, where `replace` decodes what is not UTF-8. -/
def decode (replace : List UInt8 → String) (line : List UInt8) : String :=
  (String.fromUTF8? line.toByteArray).getD (replace line)

/-- What `reader.readline()` returns one after the other, without the empty bytes at the end. -/
def readLines (bytes : List UInt8) : List (List UInt8) :=
  let pieces := bytes.splitOn 10
  pieces.dropLast.map (· ++ [10]) ++ [pieces.getLastD []].filter fun last => !last.isEmpty

end Bytes

section Blocks

/-- `text.rstrip("\r\n")`. -/
def rstripNewlines (text : List Char) : List Char :=
  text.rdropWhile fun c => c = '\r' || c = '\n'

/-- The header of a line and its value. -/
def readField (text : List Char) : String × String :=
  (Text.strip (String.ofList (text.takeWhile fun c => c ≠ ':')),
    Text.strip (String.ofList ((text.dropWhile fun c => c ≠ ':').drop 1)))

/-- `AmiClient._read_block`, called until there is no block left; `fields` is what has
been read of the next block. -/
def readBlocks (replace : List UInt8 → String) (fields : Fields) : List (List UInt8) → List Fields
  | [] => if fields.isEmpty then [] else [fields]
  | line :: rest =>
      let text := rstripNewlines (decode replace line).toList
      if text.isEmpty then
        if fields.isEmpty then readBlocks replace [] rest
        else fields :: readBlocks replace [] rest
      else readBlocks replace (Blocks.assign fields (readField text)) rest

/-- One header of `AmiClient._send`. -/
def header (field : String × String) : String := field.1 ++ ": " ++ field.2 ++ "\r\n"

/-- The bytes that `AmiClient._send` writes. -/
def sendBytes (fields : Fields) : List UInt8 :=
  encode (String.join (fields.map header) ++ "\r\n")

end Blocks

section Calls

/-- What a call reads of `VoiceChannelConfig`. -/
structure VoiceChannelConfig where
  port : Int
  trunk : String
  advertiseHost : Option String
  callerId : Option String
  defaultTarget : Option String

variable (config : VoiceChannelConfig)

/-- The number that `OutboundCaller.call` dials. -/
def target (number : Option String) : String :=
  Text.strip (if number.getD "" = "" then config.defaultTarget.getD "" else number.getD "")

/-- The host of `AmiClient._audiosocket_target`. -/
def host : String := Text.strip (config.advertiseHost.getD "")

/-- The fields of `AmiClient.originate`. -/
def originateFields (number callUuid : String) : Fields :=
  [("Action", "Originate"), ("Channel", "PJSIP/" ++ number ++ "@" ++ config.trunk),
    ("Application", "AudioSocket"),
    ("Data", callUuid ++ "," ++ host config ++ ":" ++ toString config.port),
    ("CallerID", config.callerId.getD ""), ("Async", "true"), ("ActionID", callUuid)]

/-- The fields of the Originate that `OutboundCaller.call` sends, or its error before that. -/
def call (number : Option String) (callUuid : String) : Except String Fields :=
  if target config number = "" then
    .error "no number to call: pass 'number' or set channels.voice.default_target"
  else if host config = "" then
    .error "channels.voice.advertise_host is required for outbound calls"
  else .ok (originateFields config (target config number) callUuid)

end Calls

/-- The fields as they are meant to be read: values up to the spaces around them. -/
def intended (fields : Fields) : Fields := fields.map fun field => (field.1, Text.strip field.2)

/-- What a call writes is read as one block with the fields it is meant to have. -/
def WritesIntended (replace : List UInt8 → String) (config : VoiceChannelConfig)
    (number : Option String) (callUuid : String) : Prop :=
  ∀ fields, call config number callUuid = .ok fields →
    readBlocks replace [] (readLines (sendBytes fields)) = [intended fields]

section Lines

theorem splitOn_append_of_not_mem {α : Type} [DecidableEq α] {sep : α} {front : List α}
    (h : sep ∉ front) (back : List α) :
    (front ++ back).splitOn sep = (back.splitOn sep).modifyHead (front ++ ·) := by
  induction front with
  | nil => cases hsplit : back.splitOn sep <;> simp [hsplit]
  | cons first rest ih =>
      have hfirst : (first == sep) = false := by
        rw [beq_eq_false_iff_ne]
        rintro rfl
        exact h List.mem_cons_self
      rw [List.cons_append, List.splitOn_cons_eq_if_modifyHead, hfirst,
        ih fun hmem => h (List.mem_cons_of_mem _ hmem)]
      cases back.splitOn sep <;> rfl

/-- A byte of a character is a line feed only where the character is. -/
theorem newline_mem_utf8EncodeChar {c : Char} :
    (10 : UInt8) ∈ String.utf8EncodeChar c ↔ c = '\n' := by
  have hbig : ∀ n, 128 ≤ n → n < 256 → (10 : UInt8) ≠ UInt8.ofNat n := by
    intro n hlow hhigh heq
    have hnat := congrArg UInt8.toNat heq
    rw [UInt8.toNat_ofNat_of_lt' (by simpa using hhigh)] at hnat
    have hten : (10 : UInt8).toNat = 10 := rfl
    omega
  constructor
  · intro hmem
    unfold String.utf8EncodeChar at hmem
    dsimp only at hmem
    split at hmem
    case isTrue hsmall =>
      have hbyte := congrArg UInt8.toNat (List.mem_singleton.mp hmem)
      rw [UInt8.toNat_ofNat_of_lt' (by simp only [UInt8.size]; omega)] at hbyte
      exact Char.ext (UInt32.toNat_inj.mp hbyte.symm)
    case isFalse =>
      split at hmem
      case isTrue =>
        simp only [List.mem_cons, List.not_mem_nil, or_false] at hmem
        rcases hmem with heq | heq <;> exact absurd heq (hbig _ (by omega) (by omega))
      case isFalse =>
        split at hmem
        case isTrue =>
          simp only [List.mem_cons, List.not_mem_nil, or_false] at hmem
          rcases hmem with heq | heq | heq <;> exact absurd heq (hbig _ (by omega) (by omega))
        case isFalse =>
          simp only [List.mem_cons, List.not_mem_nil, or_false] at hmem
          rcases hmem with heq | heq | heq | heq <;>
            exact absurd heq (hbig _ (by omega) (by omega))
  · rintro rfl
    exact List.mem_cons_self

theorem decode_encodeChars (replace : List UInt8 → String) (chars : List Char) :
    decode replace (encodeChars chars) = String.ofList chars := by
  have hvalid : (encodeChars chars).toByteArray.IsValidUTF8 := ⟨chars, rfl⟩
  unfold decode String.fromUTF8?
  rw [dif_pos hvalid]
  rfl

/-- Bytes are split at line feeds as characters are. -/
theorem splitOn_encodeChars (chars : List Char) :
    (encodeChars chars).splitOn 10 = (chars.splitOn '\n').map encodeChars := by
  induction chars with
  | nil => rfl
  | cons c rest ih =>
      have hcons : encodeChars (c :: rest) = String.utf8EncodeChar c ++ encodeChars rest := rfl
      rw [hcons, List.splitOn_cons_eq_if_modifyHead]
      by_cases hnewline : c = '\n'
      · subst hnewline
        have hbyte : String.utf8EncodeChar '\n' ++ encodeChars rest = 10 :: encodeChars rest := rfl
        rw [hbyte, List.splitOn_cons_eq_if_modifyHead, ih]
        rfl
      · rw [splitOn_append_of_not_mem (mt newline_mem_utf8EncodeChar.mp hnewline), ih,
          if_neg (by simpa using hnewline)]
        cases rest.splitOn '\n' with
        | nil => rfl
        | cons first others => rfl

end Lines

section Texts

/-- The text of a line. -/
def lineText (replace : List UInt8 → String) (line : List UInt8) : List Char :=
  rstripNewlines (decode replace line).toList

/-- The fields of a block, given the texts of its lines. -/
def block (texts : List (List Char)) : Fields := (texts.map readField).foldl Blocks.assign []

theorem block_ne_nil {text : List Char} (texts : List (List Char)) : block (text :: texts) ≠ [] := by
  have hmem : (readField text).1 ∈ (block (text :: texts)).map Prod.fst :=
    Blocks.mem_keys_foldl_assign (Or.inr (by simp))
  intro hnil
  rw [hnil] at hmem
  exact nomatch hmem

theorem groups_nil : Blocks.groups List.isEmpty ([] : List (List Char)) = [] := rfl

/-- The reader finds the groups of texts between empty ones. -/
theorem readBlocks_eq (replace : List UInt8 → String) (lines : List (List UInt8))
    (current : List (List Char)) (hcurrent : ∀ text ∈ current, text.isEmpty = false) :
    readBlocks replace (block current) lines =
      (Blocks.groups List.isEmpty (current ++ lines.map (lineText replace))).map block := by
  induction lines generalizing current with
  | nil =>
      cases current with
      | nil => rfl
      | cons text rest =>
          rw [List.map_nil, List.append_nil, Blocks.groups_of_open hcurrent (List.cons_ne_nil _ _)]
          simp [readBlocks, block_ne_nil]
  | cons line rest ih =>
      have hempty := ih [] nofun
      simp only [readBlocks, List.map_cons]
      change (if (lineText replace line).isEmpty then _ else _) = _
      split
      case isTrue hend =>
        rw [Blocks.groups_append_end hend, List.map_append]
        cases current with
        | nil => exact hempty
        | cons text texts =>
            rw [Blocks.groups_of_open hcurrent (List.cons_ne_nil _ _),
              if_neg (by simpa using block_ne_nil texts)]
            exact congrArg (block (text :: texts) :: ·) hempty
      case isFalse hopen =>
        have hnext := ih (current ++ [lineText replace line]) (by
          intro text hmem
          rcases List.mem_append.mp hmem with hold | hlast
          · exact hcurrent text hold
          · rw [List.mem_singleton.mp hlast]
            exact Bool.eq_false_iff.mpr hopen)
        rw [List.append_assoc, List.singleton_append] at hnext
        rw [← hnext]
        simp [block, lineText]

theorem rstripNewlines_append_newline (text : List Char) :
    rstripNewlines (text ++ ['\n']) = rstripNewlines text :=
  List.rdropWhile_concat_pos _ text '\n' (by decide)

/-- The texts of the lines of a text that ends with a line break. -/
theorem texts_readLines (replace : List UInt8 → String) (body : List Char) :
    (readLines (encodeChars (body ++ ['\n']))).map (lineText replace) =
      (body.splitOn '\n').map rstripNewlines := by
  have hpieces : (encodeChars (body ++ ['\n'])).splitOn 10 =
      (body.splitOn '\n').map encodeChars ++ [[]] := by
    rw [splitOn_encodeChars, List.splitOn_append_cons_self body [], List.map_append]
    rfl
  have hline : ∀ piece, lineText replace (encodeChars piece ++ [10]) = rstripNewlines piece := by
    intro piece
    have hbytes : encodeChars piece ++ [10] = encodeChars (piece ++ ['\n']) := by
      simp only [encodeChars, List.flatMap_append]
      rfl
    rw [lineText, hbytes, decode_encodeChars, String.toList_ofList, rstripNewlines_append_newline]
  have hread : readLines (encodeChars (body ++ ['\n'])) =
      (body.splitOn '\n').map fun piece => encodeChars piece ++ [10] := by
    unfold readLines
    rw [hpieces]
    simp
  rw [hread, List.map_map]
  exact List.map_congr_left fun piece _ => hline piece

/-- A header without its line break. -/
def headerLine (field : String × String) : List Char :=
  field.1.toList ++ ':' :: ' ' :: (field.2.toList ++ ['\r'])

/-- The texts of the lines of a header. -/
def fieldTexts (field : String × String) : List (List Char) :=
  ((headerLine field).splitOn '\n').map rstripNewlines

theorem splitOn_lines (lines : List (List Char)) (rest : List Char) :
    (lines.flatMap (· ++ ['\n']) ++ rest).splitOn '\n' =
      lines.flatMap (·.splitOn '\n') ++ rest.splitOn '\n' := by
  induction lines with
  | nil => rfl
  | cons line others ih =>
      have hcons : (line :: others).flatMap (· ++ ['\n']) ++ rest =
          line ++ '\n' :: (others.flatMap (· ++ ['\n']) ++ rest) := by simp
      rw [hcons, List.splitOn_append_cons_self, ih, List.flatMap_cons, List.append_assoc]

/-- The texts that are read of what is sent: those of the headers, and an empty one. -/
theorem texts_sendBytes (replace : List UInt8 → String) (fields : Fields) :
    (readLines (sendBytes fields)).map (lineText replace) = fields.flatMap fieldTexts ++ [[]] := by
  have hheader : ∀ field, (header field).toList = headerLine field ++ ['\n'] := by
    intro field
    simp [header, headerLine]
  have hbytes : sendBytes fields =
      encodeChars (((fields.map headerLine).flatMap (· ++ ['\n']) ++ ['\r']) ++ ['\n']) := by
    unfold sendBytes encode
    rw [String.toList_append, String.toList_join, List.flatMap_map, List.flatMap_map]
    simp only [hheader, List.append_assoc]
    rfl
  rw [hbytes, texts_readLines, splitOn_lines, List.map_append, List.map_flatMap, List.flatMap_map]
  rfl

end Texts

section Fields

/-- A header of its own: what is read of it is the name it was sent under. -/
structure IsKey (key : String) : Prop where
  stripped : Text.stripChars key.toList = key.toList
  noColon : ':' ∉ key.toList
  noNewline : '\n' ∉ key.toList
  inked : 0 < Text.ink key.toList

/-- The texts of the lines of a value. -/
def valueTexts (value : String) : List (List Char) :=
  ((value.toList ++ ['\r']).splitOn '\n').map rstripNewlines

variable {key value : String}

theorem fieldTexts_eq (h : IsKey key) (value : String) :
    fieldTexts (key, value) = (valueTexts value).modifyHead (key.toList ++ ':' :: ' ' :: ·) := by
  have hfront : '\n' ∉ key.toList ++ [':', ' '] := by
    simp [h.noNewline]
  have hline : headerLine (key, value) =
      (key.toList ++ [':', ' ']) ++ (value.toList ++ ['\r']) := by simp [headerLine]
  unfold fieldTexts valueTexts
  rw [hline, splitOn_append_of_not_mem hfront]
  cases (value.toList ++ ['\r']).splitOn '\n' with
  | nil => rfl
  | cons first others =>
      have hfirst : key.toList ++ [':', ' '] ++ first = (key.toList ++ [':']) ++ ' ' :: first := by
        simp
      simp only [List.modifyHead_cons, List.map_cons]
      rw [hfirst, rstripNewlines, Text.rdropWhile_append_cons (by decide)]
      simp [rstripNewlines]

theorem readField_header (h : IsKey key) (text : List Char) :
    readField (key.toList ++ ':' :: ' ' :: text) = (key, Text.strip (String.ofList text)) := by
  have hfront : ∀ c ∈ key.toList, decide (c ≠ ':') = true := by
    intro c hmem
    exact decide_eq_true fun heq => h.noColon (heq ▸ hmem)
  have hkey : Text.strip (String.ofList key.toList) = key := by
    rw [← String.toList_inj, Text.toList_strip, String.toList_ofList, h.stripped]
  have hvalue : Text.strip (String.ofList (' ' :: text)) = Text.strip (String.ofList text) := by
    rw [← String.toList_inj, Text.toList_strip, Text.toList_strip, String.toList_ofList,
      String.toList_ofList]
    rfl
  unfold readField
  rw [List.takeWhile_append_of_pos hfront, List.dropWhile_append_of_pos hfront,
    List.takeWhile_cons_of_neg (by decide), List.dropWhile_cons_of_neg (by decide),
    List.append_nil, hkey]
  exact congrArg (Prod.mk key) hvalue

/-- A line weighs no less than the header that is read of it. -/
theorem ink_readField (text : List Char) :
    Text.ink (readField text).1.toList + Text.ink (readField text).2.toList ≤ Text.ink text := by
  have hsplit : Text.ink (text.takeWhile fun c => decide (c ≠ ':')) +
      Text.ink (text.dropWhile fun c => decide (c ≠ ':')) = Text.ink text := by
    unfold Text.ink
    rw [← List.countP_append, List.takeWhile_append_dropWhile]
  have hdrop : Text.ink ((text.dropWhile fun c => decide (c ≠ ':')).drop 1) ≤
      Text.ink (text.dropWhile fun c => decide (c ≠ ':')) :=
    (List.drop_sublist 1 _).countP_le
  simp only [readField, Text.ink_strip, String.toList_ofList]
  omega

/-- The weight of headers: all that is not a space in them. -/
abbrev inkOf (fields : Fields) : Nat :=
  Blocks.weight (fun key => Text.ink key.toList) (fun value => Text.ink value.toList) fields

theorem inkOf_cons (field : String × String) (fields : Fields) :
    inkOf (field :: fields) =
      Text.ink field.1.toList + Text.ink field.2.toList + inkOf fields := rfl

theorem isSpace_of_newline (c : Char) (h : (c = '\r' || c = '\n') = true) :
    Text.isSpace c = true := by
  rcases (Bool.or_eq_true _ _).mp h with hc | hc <;> rw [of_decide_eq_true hc] <;> decide

theorem ink_rstripNewlines (text : List Char) : Text.ink (rstripNewlines text) = Text.ink text :=
  Text.ink_rdropWhile isSpace_of_newline text

theorem inkOf_lines (pieces : List (List Char)) :
    inkOf ((pieces.map rstripNewlines).map readField) ≤ Text.ink pieces.flatten := by
  induction pieces with
  | nil => exact Nat.zero_le _
  | cons piece rest ih =>
      have hpiece := ink_readField (rstripNewlines piece)
      rw [ink_rstripNewlines] at hpiece
      rw [List.map_cons, List.map_cons, inkOf_cons, List.flatten_cons, Text.ink_append]
      omega

/-- The lines of a header weigh no more than the header itself. -/
theorem inkOf_fieldTexts (h : IsKey key) (value : String) :
    inkOf ((fieldTexts (key, value)).map readField) ≤
      Text.ink key.toList + Text.ink value.toList := by
  obtain ⟨first, others, hpieces⟩ :=
    List.exists_cons_of_ne_nil (List.splitOn_ne_nil '\n' (value.toList ++ ['\r']))
  have hvalue : Text.ink first + Text.ink others.flatten ≤ Text.ink value.toList := by
    have hflat : ((value.toList ++ ['\r']).splitOnP (· == '\n')).flatten = _ :=
      Blocks.flatten_splitOnP _
    rw [← List.splitOn_eq_splitOnP, hpieces, List.flatten_cons] at hflat
    calc Text.ink first + Text.ink others.flatten
        = Text.ink ((value.toList ++ ['\r']).filter fun c => !(c == '\n')) := by
          rw [← Text.ink_append, hflat]
      _ ≤ Text.ink (value.toList ++ ['\r']) := List.filter_sublist.countP_le
      _ = Text.ink value.toList := Text.ink_append _ _
  have hothers := inkOf_lines others
  rw [fieldTexts_eq h, valueTexts, hpieces, List.map_cons, List.modifyHead_cons, List.map_cons,
    inkOf_cons, readField_header h, Text.ink_strip, String.toList_ofList, ink_rstripNewlines]
  dsimp only
  omega

/-- Headers whose names differ. -/
structure IsMessage (fields : Fields) : Prop where
  nodup : (fields.map Prod.fst).Nodup
  isKey : ∀ field ∈ fields, IsKey field.1

theorem keys_intended (fields : Fields) :
    (intended fields).map Prod.fst = fields.map Prod.fst := by
  simp [intended]

theorem inkOf_intended (fields : Fields) : inkOf (intended fields) = inkOf fields := by
  induction fields with
  | nil => rfl
  | cons field rest ih =>
      rw [intended, List.map_cons, inkOf_cons, inkOf_cons, Text.ink_strip]
      exact congrArg _ ih

theorem inkOf_append (front back : Fields) : inkOf (front ++ back) = inkOf front + inkOf back := by
  simp [inkOf, Blocks.weight]

theorem inkOf_flatMap {fields : Fields} (h : ∀ field ∈ fields, IsKey field.1) :
    inkOf ((fields.flatMap fieldTexts).map readField) ≤ inkOf fields := by
  induction fields with
  | nil => exact Nat.le_refl _
  | cons field rest ih =>
      have hfirst := inkOf_fieldTexts (h field List.mem_cons_self) field.2
      have hrest := ih fun other hother => h other (List.mem_cons_of_mem _ hother)
      rw [List.flatMap_cons, List.map_append, inkOf_append, inkOf_cons]
      exact Nat.add_le_add hfirst hrest

/-- A line break in a value makes a second line. -/
theorem exists_fieldTexts {field : String × String} (h : IsKey field.1) :
    ∃ first others, fieldTexts field = first :: others ∧ first.isEmpty = false ∧
      (others = [] → '\n' ∉ field.2.toList) := by
  obtain ⟨first, others, hpieces⟩ :=
    List.exists_cons_of_ne_nil (List.splitOn_ne_nil '\n' (field.2.toList ++ ['\r']))
  refine ⟨field.1.toList ++ ':' :: ' ' :: rstripNewlines first, others.map rstripNewlines, ?_, ?_, ?_⟩
  · rw [fieldTexts_eq h, valueTexts, hpieces]
    rfl
  · simp
  · intro hnone hmem
    obtain ⟨front, back, hvalue⟩ := List.append_of_mem hmem
    have hlength := congrArg List.length hpieces
    rw [hvalue, List.append_assoc, List.cons_append, List.splitOn_append_cons_self,
      List.map_eq_nil_iff.mp hnone, List.length_append, List.length_singleton] at hlength
    have hfront := List.length_pos_of_ne_nil (List.splitOn_ne_nil '\n' front)
    have hback := List.length_pos_of_ne_nil (List.splitOn_ne_nil '\n' (back ++ ['\r']))
    omega

/-- Each header is in a line of its own. -/
theorem length_le_opens {fields : Fields} (h : ∀ field ∈ fields, IsKey field.1) :
    fields.length ≤ (fields.flatMap fieldTexts).countP fun text => !text.isEmpty := by
  induction fields with
  | nil => exact Nat.zero_le _
  | cons field rest ih =>
      obtain ⟨first, others, htexts, hopen, _⟩ := exists_fieldTexts (h field List.mem_cons_self)
      have hrest := ih fun other hother => h other (List.mem_cons_of_mem _ hother)
      rw [List.flatMap_cons, List.countP_append, htexts, List.countP_cons_of_pos (by simp [hopen]),
        List.length_cons]
      omega

/-- A block that is read as the message has no more lines than the message has headers. -/
theorem length_le_of_block_eq {fields : Fields} (h : IsMessage fields) {texts : List (List Char)}
    (hink : inkOf (texts.map readField) ≤ inkOf fields) (hblock : block texts = intended fields) :
    texts.length ≤ fields.length := by
  have hkeys : ∀ line ∈ texts.map readField, 0 < Text.ink line.1.toList := by
    intro line hline
    have hmem : line.1 ∈ (block texts).map Prod.fst :=
      Blocks.mem_keys_foldl_assign (Or.inr (List.mem_map_of_mem hline))
    rw [hblock, keys_intended] at hmem
    obtain ⟨field, hfield, hkey⟩ := List.mem_map.mp hmem
    exact hkey ▸ (h.isKey field hfield).inked
  have hnil : (([] : Fields).map Prod.fst).Nodup := List.nodup_nil
  have hweight := Blocks.weight_foldl_assign (fun key => Text.ink key.toList)
    (fun value => Text.ink value.toList) (texts.map readField) hnil hkeys
  change inkOf (block texts) + _ + 0 ≤ 0 + inkOf (texts.map readField) + (block texts).length
    at hweight
  rw [hblock, inkOf_intended, List.length_map, intended, List.length_map] at hweight
  omega

/-- What is sent is read as one block only where it has one group of lines. -/
theorem group_of_read {fields : Fields} (h : IsMessage fields)
    (hread : (Blocks.groups List.isEmpty (fields.flatMap fieldTexts)).map block =
      [intended fields]) :
    (Blocks.groups List.isEmpty (fields.flatMap fieldTexts)).length = 1 ∧
      ((fields.flatMap fieldTexts).countP fun text => !text.isEmpty) ≤ fields.length := by
  obtain ⟨group, hgroup, hblock⟩ := List.map_eq_singleton_iff.mp hread
  have hflat : (Blocks.groups List.isEmpty (fields.flatMap fieldTexts)).flatten = _ :=
    Blocks.flatten_groups _
  rw [hgroup, List.flatten_singleton] at hflat
  have hink : inkOf (group.map readField) ≤ inkOf fields := by
    refine Nat.le_trans (Blocks.weight_le_of_sublist _ _ ?_) (inkOf_flatMap h.isKey)
    rw [hflat]
    exact List.filter_sublist.map readField
  refine ⟨congrArg List.length hgroup, ?_⟩
  rw [List.countP_eq_length_filter, ← hflat]
  exact length_le_of_block_eq h hink hblock

/-- A line break in a header before another one is read as something else. -/
theorem noNewline_of_append {front back : Fields} {field next : String × String}
    (h : IsMessage (front ++ field :: next :: back))
    (hread : (Blocks.groups List.isEmpty
        ((front ++ field :: next :: back).flatMap fieldTexts)).map block =
      [intended (front ++ field :: next :: back)]) :
    '\n' ∉ field.2.toList := by
  obtain ⟨hone, hcount⟩ := group_of_read h hread
  have hkeys := h.isKey
  obtain ⟨first, others, htexts, hopen, hnone⟩ := exists_fieldTexts (hkeys field (by simp))
  obtain ⟨nextFirst, nextOthers, hnext, hnextOpen, _⟩ := exists_fieldTexts (hkeys next (by simp))
  have hfront := length_le_opens fun other (hother : other ∈ front) => hkeys other (by simp [hother])
  have hback := length_le_opens fun other (hother : other ∈ back) => hkeys other (by simp [hother])
  cases others with
  | nil => exact hnone rfl
  | cons second rest =>
      exfalso
      rw [List.flatMap_append, List.flatMap_cons, List.flatMap_cons, htexts, hnext] at hone hcount
      cases hsecond : second.isEmpty with
      | true =>
          have hsplit : front.flatMap fieldTexts ++ (first :: second :: rest ++
              (nextFirst :: nextOthers ++ back.flatMap fieldTexts)) =
              (front.flatMap fieldTexts ++ [first]) ++ second :: (rest ++
                (nextFirst :: nextOthers ++ back.flatMap fieldTexts)) := by simp
          have hbefore : first ∈ front.flatMap fieldTexts ++ [first] := by simp
          have hafter : nextFirst ∈ rest ++ (nextFirst :: nextOthers ++ back.flatMap fieldTexts) :=
            by simp
          have htwo := Blocks.two_le_length_groups hsecond hbefore hopen hafter hnextOpen
          rw [← hsplit] at htwo
          omega
      | false =>
          simp only [List.countP_append, List.countP_cons, hopen, hsecond, hnextOpen, List.length_append,
            List.length_cons, Bool.not_false, if_true] at hcount
          omega

theorem noNewline_of_read {fields : Fields} (h : IsMessage fields)
    (hread : (Blocks.groups List.isEmpty (fields.flatMap fieldTexts)).map block =
      [intended fields]) :
    ∀ field ∈ fields.dropLast, '\n' ∉ field.2.toList := by
  intro field hfield
  have hfields : fields ≠ [] := by
    rintro rfl
    exact absurd hfield List.not_mem_nil
  obtain ⟨front, back, hsplit⟩ := List.append_of_mem hfield
  have hlast := List.dropLast_append_getLast hfields
  rw [hsplit, List.append_assoc, List.cons_append] at hlast
  cases back with
  | nil =>
      rw [← hlast] at h hread
      exact noNewline_of_append h hread
  | cons next rest =>
      rw [← hlast] at h hread
      exact noNewline_of_append h hread

/-- The text of a header in one line. -/
def wholeText (field : String × String) : List Char :=
  field.1.toList ++ ':' :: ' ' :: rstripNewlines (field.2.toList ++ ['\r'])

theorem fieldTexts_of_noNewline {field : String × String} (h : IsKey field.1)
    (hvalue : '\n' ∉ field.2.toList) : fieldTexts field = [wholeText field] := by
  have hend : '\n' ∉ field.2.toList ++ ['\r'] := by
    simp [hvalue]
  rw [fieldTexts_eq h, valueTexts, List.splitOn_eq_singleton hend]
  rfl

theorem readField_wholeText {field : String × String} (h : IsKey field.1) :
    readField (wholeText field) = (field.1, Text.strip field.2) := by
  have hstrip : Text.strip (String.ofList (rstripNewlines (field.2.toList ++ ['\r']))) =
      Text.strip field.2 := by
    rw [← String.toList_inj, Text.toList_strip, Text.toList_strip, String.toList_ofList,
      rstripNewlines, Text.stripChars_rdropWhile isSpace_of_newline,
      Text.stripChars_concat (by decide)]
  rw [wholeText, readField_header h, hstrip]

/-- Values without line breaks are read as they were meant. -/
theorem read_of_noNewlines {fields : Fields} (h : IsMessage fields) (hfields : fields ≠ [])
    (hvalues : ∀ field ∈ fields, '\n' ∉ field.2.toList) :
    (Blocks.groups List.isEmpty (fields.flatMap fieldTexts)).map block = [intended fields] := by
  have htexts : fields.flatMap fieldTexts = fields.map wholeText := by
    rw [← List.flatMap_pure_eq_map]
    exact List.flatMap_congr fun field hfield =>
      fieldTexts_of_noNewline (h.isKey field hfield) (hvalues field hfield)
  have hopen : ∀ text ∈ fields.map wholeText, text.isEmpty = false := by
    intro text hmem
    obtain ⟨field, _, rfl⟩ := List.mem_map.mp hmem
    simp [wholeText]
  have hread : (fields.map wholeText).map readField = intended fields := by
    rw [List.map_map]
    exact List.map_congr_left fun field hfield => readField_wholeText (h.isKey field hfield)
  have hnodup : (([] ++ intended fields).map Prod.fst).Nodup := by
    rw [List.nil_append, keys_intended]
    exact h.nodup
  rw [htexts, Blocks.groups_of_open hopen (by simpa using hfields), List.map_singleton, block, hread,
    Blocks.foldl_assign_of_nodup [] (intended fields) hnodup, List.nil_append]

/-- What is sent is read as the groups of its lines. -/
theorem readBlocks_sendBytes (replace : List UInt8 → String) (fields : Fields) :
    readBlocks replace [] (readLines (sendBytes fields)) =
      (Blocks.groups List.isEmpty (fields.flatMap fieldTexts)).map block := by
  have hread := readBlocks_eq replace (readLines (sendBytes fields)) [] nofun
  rw [List.nil_append, texts_sendBytes, Blocks.groups_append_end rfl, groups_nil,
    List.append_nil] at hread
  exact hread

end Fields

section Originate

variable (config : VoiceChannelConfig) (number callUuid : String)

theorem newline_not_mem_toString (n : Int) : '\n' ∉ (toString n).toList := by
  have hnat : ∀ m : Nat, '\n' ∉ (Nat.repr m).toList := by
    intro m hmem
    rw [Nat.toList_repr] at hmem
    have hdigit := Nat.isDigit_of_mem_toDigits (by decide) (by decide) hmem
    exact absurd hdigit (by decide)
  cases n with
  | ofNat m => exact hnat m
  | negSucc m =>
      have hrepr : (toString (Int.negSucc m)).toList = '-' :: (Nat.repr (m + 1)).toList := by
        change ("-" ++ Nat.repr (m + 1)).toList = _
        rw [String.toList_append]
        rfl
      rw [hrepr]
      exact List.not_mem_cons_of_ne_of_not_mem (by decide) (hnat _)

theorem isMessage_originateFields : IsMessage (originateFields config number callUuid) where
  nodup := by
    change ["Action", "Channel", "Application", "Data", "CallerID", "Async", "ActionID"].Nodup
    decide
  isKey := by
    have hkeys : ∀ key ∈ ["Action", "Channel", "Application", "Data", "CallerID", "Async",
        "ActionID"], Text.stripChars key.toList = key.toList ∧ ':' ∉ key.toList ∧
          '\n' ∉ key.toList ∧ 0 < Text.ink key.toList := by
      decide
    intro field hfield
    obtain ⟨hstripped, hcolon, hnewline, hinked⟩ := hkeys field.1 (List.mem_map_of_mem hfield)
    exact ⟨hstripped, hcolon, hnewline, hinked⟩

/-- No line feed is in any of the texts. -/
def NoLineFeeds (texts : List String) : Prop := ∀ text ∈ texts, '\n' ∉ text.toList

theorem noNewline_channel (trunk : String) :
    '\n' ∉ ("PJSIP/" ++ number ++ "@" ++ trunk).toList ↔
      '\n' ∉ number.toList ∧ '\n' ∉ trunk.toList := by
  have hfront : '\n' ∉ "PJSIP/".toList := by decide
  have hmiddle : '\n' ∉ "@".toList := by decide
  simp only [String.toList_append, List.mem_append, not_or]
  exact ⟨fun h => ⟨h.1.1.2, h.2⟩, fun h => ⟨⟨⟨hfront, h.1⟩, hmiddle⟩, h.2⟩⟩

theorem noNewline_data (address : String) (port : Int) :
    '\n' ∉ (callUuid ++ "," ++ address ++ ":" ++ toString port).toList ↔
      '\n' ∉ callUuid.toList ∧ '\n' ∉ address.toList := by
  have hcomma : '\n' ∉ ",".toList := by decide
  have hcolon : '\n' ∉ ":".toList := by decide
  have hport := newline_not_mem_toString port
  simp only [String.toList_append, List.mem_append, not_or]
  exact ⟨fun h => ⟨h.1.1.1.1, h.1.1.2⟩, fun h => ⟨⟨⟨⟨h.1, hcomma⟩, h.2⟩, hcolon⟩, hport⟩⟩

/-- The Originate is read as it was meant exactly where what is put into it has no
line feed. -/
theorem read_originateFields (replace : List UInt8 → String) :
    readBlocks replace [] (readLines (sendBytes (originateFields config number callUuid))) =
        [intended (originateFields config number callUuid)] ↔
      NoLineFeeds [number, config.trunk, callUuid, host config, config.callerId.getD ""] := by
  have hmessage := isMessage_originateFields config number callUuid
  rw [readBlocks_sendBytes]
  constructor
  · intro hread
    have hvalues := noNewline_of_read hmessage hread
    have hchannel := hvalues ("Channel", "PJSIP/" ++ number ++ "@" ++ config.trunk)
      (by simp [originateFields])
    have hdata := hvalues ("Data", callUuid ++ "," ++ host config ++ ":" ++ toString config.port)
      (by simp [originateFields])
    have hcaller := hvalues ("CallerID", config.callerId.getD "") (by simp [originateFields])
    rw [noNewline_channel] at hchannel
    rw [noNewline_data] at hdata
    simp only [NoLineFeeds, List.forall_mem_cons]
    exact ⟨hchannel.1, hchannel.2, hdata.1, hdata.2, hcaller, nofun⟩
  · intro hfree
    simp only [NoLineFeeds, List.forall_mem_cons] at hfree
    obtain ⟨hnumber, htrunk, huuid, hhost, hcaller, _⟩ := hfree
    apply read_of_noNewlines hmessage (List.cons_ne_nil _ _)
    simp only [originateFields, List.forall_mem_cons]
    exact ⟨by decide, (noNewline_channel _ _).mpr ⟨hnumber, htrunk⟩, by decide,
      (noNewline_data _ _ _).mpr ⟨huuid, hhost⟩, hcaller, by decide, huuid, nofun⟩

/-- A call writes what it is meant to exactly where it fails before, or none of the texts
that it puts into the Originate has a line feed. -/
theorem writesIntended_iff (replace : List UInt8 → String) (config : VoiceChannelConfig)
    (number : Option String) (callUuid : String) :
    WritesIntended replace config number callUuid ↔
      (target config number ≠ "" → host config ≠ "" →
        NoLineFeeds [target config number, config.trunk, callUuid, host config,
          config.callerId.getD ""]) := by
  rw [← read_originateFields config (target config number) callUuid replace]
  unfold WritesIntended call
  constructor
  · intro h htarget hhost
    rw [if_neg htarget, if_neg hhost] at h
    exact h _ rfl
  · intro h fields hcall
    split at hcall
    case isTrue => cases hcall
    case isFalse htarget =>
      split at hcall
      case isTrue => cases hcall
      case isFalse hhost =>
        cases hcall
        exact h htarget hhost

/-- A number that ends the Originate and starts an action of its own. -/
theorem number_starts_another_action :
    ¬ WritesIntended (fun _ => "") ⟨8101, "trunk", some "10.0.0.2", none, none⟩
      (some "1555\r\n\r\nAction: Command\r\nCommand: core stop now") "6f1c" := by
  intro h
  have hread := h _ rfl
  rw [readBlocks_sendBytes] at hread
  revert hread
  decide +kernel

end Originate

end GraphAgent.Voice
