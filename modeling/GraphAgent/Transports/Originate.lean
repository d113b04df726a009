import GraphAgent.Transports.Ami

/-!
# The answers to an Originate

`AmiClient.originate` on what the server sends. Each of its readers takes the next block that
has got a `Response` field, so an event with such a field stands in for the answer to an
action, and the answers behind it move on by one.
-/

namespace GraphAgent.Voice

section Client

/-- What `AmiClient` reads of its configuration and of the environment. -/
structure AmiConfig where
  voice : VoiceChannelConfig
  amiUsername : String
  amiSecretEnv : String
  environ : String → Option String

variable (config : AmiConfig)

/-- `os.environ.get(self._config.ami_secret_env, "")` -/
def secret : String := (config.environ config.amiSecretEnv).getD ""

/-- `"Response" in block` -/
def isResponse (fields : Fields) : Bool := (fields.lookup "Response").isSome

/-- `response.get("Response") == "Success"` -/
def isSuccess (fields : Fields) : Bool := fields.lookup "Response" = some "Success"

/-- `response.get("Message") or default` -/
def messageOr (fields : Fields) (default : String) : String :=
  let message := (fields.lookup "Message").getD ""
  if message = "" then default else message

/-- `_read_response` on the blocks that are still to be read. -/
def readResponse (action : String) : List Fields → Except String (Fields × List Fields)
  | [] => .error ("AMI connection closed while waiting for " ++ action)
  | fields :: rest => if isResponse fields then .ok (fields, rest) else readResponse action rest

/-- The fields of `_login`. -/
def loginFields : Fields :=
  [("Action", "Login"), ("Username", config.amiUsername), ("Secret", secret config)]

/-- The fields of `_disable_events`. -/
def eventsFields : Fields := [("Action", "Events"), ("EventMask", "off")]

/-- `AmiClient.originate` where the server sends these bytes and then nothing more: the actions
that it sends, and the message that it returns or the text of its `AmiError`. -/
def originate (replace : List UInt8 → String) (number callUuid : String) (stream : List UInt8) :
    List Fields × Except String String :=
  if host config.voice = "" then
    ([], .error "channels.voice.advertise_host is required for outbound calls")
  else if secret config = "" then
    ([], .error ("AMI secret not set (env " ++ config.amiSecretEnv ++ ")"))
  else
    -- `_read_banner` takes the first line
    let blocks := readBlocks replace [] ((readLines stream).drop 1)
    let login := loginFields config
    match readResponse "Login" blocks with
    | .error text => ([login], .error text)
    | .ok (response, blocks) =>
        if isSuccess response = false then
          ([login], .error (messageOr response "AMI login failed"))
        else
          match readResponse "Events" blocks with
          | .error text => ([login, eventsFields], .error text)
          | .ok (_, blocks) =>
              let sent := [login, eventsFields, originateFields config.voice number callUuid]
              match readResponse "Originate" blocks with
              | .error text => (sent, .error text)
              | .ok (response, _) =>
                  if isSuccess response = false then
                    (sent, .error (messageOr response "Originate failed"))
                  else (sent, .ok ((response.lookup "Message").getD "originate queued"))

end Client

section Server

variable (replace : List UInt8 → String)

/-- A block as the server sends it: lines without line breaks in them, none of which is
empty. -/
structure WireBlock where
  lines : List (List UInt8)
  nonempty : lines ≠ []
  unbroken : ∀ line ∈ lines, 10 ∉ line
  visible : ∀ line ∈ lines, (lineText replace (line ++ [10])).isEmpty = false

variable {replace}

/-- The lines of the block with their line breaks, and an empty line. -/
def WireBlock.bytes (wire : WireBlock replace) : List UInt8 :=
  wire.lines.flatMap (· ++ [10]) ++ [13, 10]

/-- The fields that `_read_block` reads of the block. -/
def WireBlock.fields (wire : WireBlock replace) : Fields :=
  block (wire.lines.map fun line => lineText replace (line ++ [10]))

def WireBlock.isResponse (wire : WireBlock replace) : Bool := Voice.isResponse wire.fields

def WireBlock.isSuccess (wire : WireBlock replace) : Bool := Voice.isSuccess wire.fields

variable (replace)

/-- A block that answers an action. -/
abbrev Response := {wire : WireBlock replace // wire.isResponse = true}

/-- What the server sends besides the responses: the banner, the events before each of the
responses, and whatever comes behind the last one. -/
structure Surroundings where
  banner : List UInt8
  unbroken : 10 ∉ banner
  beforeLogin : List (WireBlock replace)
  beforeEvents : List (WireBlock replace)
  beforeOriginate : List (WireBlock replace)
  later : List UInt8

variable {replace}

/-- The blocks up to the response to Originate. -/
def Surroundings.blocks (around : Surroundings replace)
    (login events originate : Response replace) : List (WireBlock replace) :=
  around.beforeLogin ++ login.val :: (around.beforeEvents ++ events.val ::
    (around.beforeOriginate ++ [originate.val]))

/-- The bytes that the server sends. -/
def Surroundings.bytes (around : Surroundings replace) (login events originate : Response replace) :
    List UInt8 :=
  around.banner ++ 10 ::
    ((around.blocks login events originate).flatMap WireBlock.bytes ++ around.later)

/-- The call returns exactly when the responses to Login and to Originate are Success, and
raises an `AmiError` otherwise. -/
def Faithful (config : AmiConfig) (number callUuid : String) (around : Surroundings replace)
    (login events originate : Response replace) : Prop :=
  (∃ message, (Voice.originate config replace number callUuid
      (around.bytes login events originate)).2 = .ok message) ↔
    login.val.isSuccess = true ∧ originate.val.isSuccess = true

end Server

section Lines

variable {replace : List UInt8 → String}

theorem readLines_cons {line : List UInt8} (h : 10 ∉ line) (rest : List UInt8) :
    readLines (line ++ 10 :: rest) = (line ++ [10]) :: readLines rest := by
  have hsplit : (line ++ 10 :: rest).splitOn 10 = line :: rest.splitOn 10 := by
    rw [List.splitOn_append_cons_self, List.splitOn_eq_singleton h, List.singleton_append]
  obtain ⟨first, others, hrest⟩ := List.exists_cons_of_ne_nil (List.splitOn_ne_nil 10 rest)
  unfold readLines
  rw [hsplit, hrest]
  simp

theorem readLines_flatMap {lines : List (List UInt8)} (h : ∀ line ∈ lines, 10 ∉ line)
    (rest : List UInt8) :
    readLines (lines.flatMap (· ++ [10]) ++ rest) = lines.map (· ++ [10]) ++ readLines rest := by
  induction lines with
  | nil => rfl
  | cons line others ih =>
      obtain ⟨hline, hothers⟩ := List.forall_mem_cons.mp h
      rw [List.flatMap_cons, List.append_assoc, List.append_assoc, List.singleton_append,
        readLines_cons hline, ih hothers, List.map_cons, List.cons_append]

theorem lineText_end : lineText replace [13, 10] = [] := by
  have hbytes : ([13, 10] : List UInt8) = encodeChars ['\r', '\n'] := by decide
  rw [lineText, hbytes, decode_encodeChars, String.toList_ofList]
  rfl

/-- The reader finds the blocks that are sent. -/
theorem readBlocks_blocks (blocks : List (WireBlock replace)) (rest : List UInt8) :
    readBlocks replace [] (readLines (blocks.flatMap WireBlock.bytes ++ rest)) =
      blocks.map WireBlock.fields ++ readBlocks replace [] (readLines rest) := by
  have hread : ∀ bytes, readBlocks replace [] (readLines bytes) =
      (Blocks.groups List.isEmpty ((readLines bytes).map (lineText replace))).map block := by
    intro bytes
    have heq := readBlocks_eq replace (readLines bytes) [] nofun
    rwa [List.nil_append] at heq
  induction blocks with
  | nil => rfl
  | cons wire others ih =>
      have hlines : readLines (wire.bytes ++ (others.flatMap WireBlock.bytes ++ rest)) =
          wire.lines.map (· ++ [10]) ++ [13, 10] ::
            readLines (others.flatMap WireBlock.bytes ++ rest) := by
        have hend : (10 : UInt8) ∉ [13] := by decide
        rw [WireBlock.bytes, List.append_assoc, readLines_flatMap wire.unbroken]
        exact congrArg _ (readLines_cons hend _)
      have hopen : ∀ text ∈ (wire.lines.map (· ++ [10])).map (lineText replace),
          text.isEmpty = false := by
        simpa using wire.visible
      have hsome : (wire.lines.map (· ++ [10])).map (lineText replace) ≠ [] := by
        simpa using wire.nonempty
      rw [hread] at ih ⊢
      rw [List.flatMap_cons, List.append_assoc, hlines, List.map_append, List.map_cons,
        lineText_end, Blocks.groups_append_end rfl, Blocks.groups_of_open hopen hsome,
        List.map_append, ih, List.map_singleton, List.map_cons, List.singleton_append,
        List.cons_append, WireBlock.fields, List.map_map]
      rfl

end Lines

section Answers

/-- The first and the third block with a `Response` field report success. -/
def accepted (answers : List Fields) : Bool :=
  answers[0]?.any isSuccess && answers[2]?.any isSuccess

theorem accepted_append {answers : List Fields} (h : 3 ≤ answers.length) (later : List Fields) :
    accepted (answers ++ later) = accepted answers := by
  unfold accepted
  rw [List.getElem?_append_left (by omega), List.getElem?_append_left (by omega)]

/-- Reading a response takes the first block that has got a `Response` field. -/
theorem readResponse_eq (action : String) (blocks : List Fields) :
    (blocks.filter isResponse = [] ∧ ∃ text, readResponse action blocks = .error text) ∨
      ∃ response rest, blocks.filter isResponse = response :: rest.filter isResponse ∧
        readResponse action blocks = .ok (response, rest) := by
  induction blocks with
  | nil => exact .inl ⟨rfl, _, rfl⟩
  | cons fields rest ih =>
      rw [readResponse, List.filter_cons]
      split
      case isTrue => exact .inr ⟨fields, rest, rfl, rfl⟩
      case isFalse => exact ih

variable {config : AmiConfig} {replace : List UInt8 → String}

/-- A call that goes ahead is decided by the first and the third block with a `Response`
field. -/
theorem originate_isOk (hhost : host config.voice ≠ "") (hsecret : secret config ≠ "")
    (number callUuid : String) (stream : List UInt8) :
    (∃ message, (originate config replace number callUuid stream).2 = .ok message) ↔
      accepted ((readBlocks replace [] ((readLines stream).drop 1)).filter isResponse) = true := by
  unfold originate
  rw [if_neg hhost, if_neg hsecret]
  dsimp only
  obtain ⟨hnone, text, hread⟩ | ⟨login, blocks, hsome, hread⟩ := readResponse_eq "Login"
    (readBlocks replace [] ((readLines stream).drop 1))
  · rw [hread, hnone]
    simp [accepted]
  rw [hread, hsome]
  dsimp only
  by_cases hlogin : isSuccess login = false
  · rw [if_pos hlogin]
    simp [accepted, hlogin]
  rw [if_neg hlogin]
  obtain ⟨hnone, text, hread⟩ | ⟨events, blocks', hsome, hread⟩ :=
    readResponse_eq "Events" blocks
  · rw [hread, hnone]
    simp [accepted]
  rw [hread, hsome]
  dsimp only
  obtain ⟨hnone, text, hread⟩ | ⟨answer, blocks'', hsome, hread⟩ :=
    readResponse_eq "Originate" blocks'
  · rw [hread, hnone]
    simp [accepted]
  rw [hread, hsome]
  dsimp only
  by_cases hanswer : isSuccess answer = false
  · rw [if_pos hanswer]
    simp [accepted, hanswer]
  · rw [if_neg hanswer]
    simp_all [accepted]

end Answers

section Attribution

variable {config : AmiConfig} {replace : List UInt8 → String}

/-- The events before the response to Originate that have got a `Response` field. -/
def Surroundings.strays (around : Surroundings replace) : List (WireBlock replace) :=
  (around.beforeLogin ++ around.beforeEvents ++ around.beforeOriginate).filter
    WireBlock.isResponse

/-- What the readers take for answers, up to the response to Originate. -/
def Surroundings.answers (around : Surroundings replace)
    (login events originate : Response replace) : List Fields :=
  ((around.blocks login events originate).filter WireBlock.isResponse).map WireBlock.fields

/-- The answers end with the response to Originate; without strays there are just the other
two before it. -/
theorem answers_eq (around : Surroundings replace) (login events : Response replace) :
    ∃ front, (∀ originate,
        around.answers login events originate = front ++ [originate.val.fields]) ∧
      front.length = around.strays.length + 2 ∧
      (around.strays = [] → front = [login.val.fields, events.val.fields]) := by
  refine ⟨((around.beforeLogin ++ login.val :: (around.beforeEvents ++ events.val ::
    around.beforeOriginate)).filter WireBlock.isResponse).map WireBlock.fields, ?_, ?_, ?_⟩
  · intro originate
    simp [Surroundings.answers, Surroundings.blocks, login.property, events.property,
      originate.property]
  · simp [Surroundings.strays, login.property, events.property]
    omega
  · intro hstrays
    have hnone : around.beforeLogin.filter WireBlock.isResponse = [] ∧
        around.beforeEvents.filter WireBlock.isResponse = [] ∧
        around.beforeOriginate.filter WireBlock.isResponse = [] := by
      simpa [Surroundings.strays, and_assoc] using hstrays
    obtain ⟨hlogin, hevents, horiginate⟩ := hnone
    simp only [List.filter_append, List.filter_cons, login.property, events.property, hlogin,
      hevents, horiginate, if_true, List.nil_append, List.map_cons, List.map_nil]

theorem readBlocks_bytes (around : Surroundings replace)
    (login events originate : Response replace) :
    ∃ later, (readBlocks replace [] ((readLines (around.bytes login events originate)).drop
      1)).filter isResponse = around.answers login events originate ++ later := by
  refine ⟨(readBlocks replace [] (readLines around.later)).filter isResponse, ?_⟩
  rw [Surroundings.bytes, readLines_cons around.unbroken, List.drop_one, List.tail_cons,
    readBlocks_blocks, List.filter_append, Surroundings.answers, List.filter_map]
  rfl

/-- What the call makes of the server's stream. -/
theorem faithful_iff_accepted (hhost : host config.voice ≠ "") (hsecret : secret config ≠ "")
    (number callUuid : String) (around : Surroundings replace)
    (login events originate : Response replace) :
    Faithful config number callUuid around login events originate ↔
      (accepted (around.answers login events originate) = true ↔
        login.val.isSuccess = true ∧ originate.val.isSuccess = true) := by
  obtain ⟨later, hblocks⟩ := readBlocks_bytes around login events originate
  obtain ⟨front, hanswers, hlength, _⟩ := answers_eq around login events
  have hlong : 3 ≤ (around.answers login events originate).length := by
    rw [hanswers, List.length_append, List.length_singleton]
    omega
  rw [Faithful, originate_isOk hhost hsecret, hblocks, accepted_append hlong]

end Attribution

section Texts

variable (replace : List UInt8 → String)

theorem newline_not_mem_encodeChars {chars : List Char} (h : '\n' ∉ chars) :
    10 ∉ encodeChars chars := by
  intro hmem
  obtain ⟨c, hc, hbyte⟩ := List.mem_flatMap.mp hmem
  exact h (newline_mem_utf8EncodeChar.mp hbyte ▸ hc)

theorem lineText_encodeChars (chars : List Char) :
    lineText replace (encodeChars chars ++ [10]) = rstripNewlines chars := by
  have hbytes : encodeChars chars ++ [10] = encodeChars (chars ++ ['\n']) := by
    rw [encodeChars, encodeChars, List.flatMap_append]
    rfl
  rw [lineText, hbytes, decode_encodeChars, String.toList_ofList, rstripNewlines_append_newline]

/-- A block of texts. -/
def WireBlock.ofTexts (texts : List (List Char)) (nonempty : texts ≠ [])
    (unbroken : ∀ text ∈ texts, '\n' ∉ text)
    (visible : ∀ text ∈ texts, (rstripNewlines text).isEmpty = false) : WireBlock replace where
  lines := texts.map encodeChars
  nonempty := mt List.map_eq_nil_iff.mp nonempty
  unbroken := by
    rw [List.forall_mem_map]
    exact fun text htext => newline_not_mem_encodeChars (unbroken text htext)
  visible := by
    rw [List.forall_mem_map]
    intro text htext
    rw [lineText_encodeChars]
    exact visible text htext

theorem fields_ofTexts {texts : List (List Char)} (nonempty : texts ≠ [])
    (unbroken : ∀ text ∈ texts, '\n' ∉ text)
    (visible : ∀ text ∈ texts, (rstripNewlines text).isEmpty = false) :
    (WireBlock.ofTexts replace texts nonempty unbroken visible).fields =
      block (texts.map rstripNewlines) := by
  rw [WireBlock.fields, WireBlock.ofTexts, List.map_map]
  exact congrArg block (List.map_congr_left fun text _ => lineText_encodeChars replace text)

/-- A response with nothing but its verdict. -/
def verdictText (success : Bool) : List Char :=
  ("Response: " ++ (if success then "Success" else "Error") ++ "\r").toList

def verdictBlock (success : Bool) : WireBlock replace :=
  WireBlock.ofTexts replace [verdictText success] (List.cons_ne_nil _ _)
    (by cases success <;> decide) (by cases success <;> decide)

theorem fields_verdictBlock (success : Bool) :
    (verdictBlock replace success).fields =
      [("Response", if success then "Success" else "Error")] := by
  rw [verdictBlock, fields_ofTexts]
  cases success <;> decide

/-- The response with this verdict. -/
def verdict (success : Bool) : Response replace :=
  ⟨verdictBlock replace success, by
    rw [WireBlock.isResponse, fields_verdictBlock]
    rfl⟩

theorem isSuccess_verdict (success : Bool) :
    isSuccess (verdict replace success).val.fields = success := by
  change isSuccess (verdictBlock replace success).fields = success
  rw [fields_verdictBlock]
  cases success <;> decide

end Texts

section Result

variable {config : AmiConfig} {replace : List UInt8 → String}

/-- Where an event stands in for an answer, the response to Originate is not looked at. -/
theorem accepted_of_strays {around : Surroundings replace} (h : around.strays ≠ [])
    (login events : Response replace) (originate originate' : Response replace) :
    accepted (around.answers login events originate) =
      accepted (around.answers login events originate') := by
  have hpos : 0 < around.strays.length := List.length_pos_iff.mpr h
  obtain ⟨front, hanswers, hlength, _⟩ := answers_eq around login events
  rw [hanswers, hanswers, accepted_append (by omega), accepted_append (by omega)]

theorem accepted_of_no_strays {around : Surroundings replace} (h : around.strays = [])
    (login events originate : Response replace) :
    accepted (around.answers login events originate) = true ↔
      login.val.isSuccess = true ∧ originate.val.isSuccess = true := by
  obtain ⟨front, hanswers, _, hfront⟩ := answers_eq around login events
  rw [hanswers, hfront h]
  simp [accepted, WireBlock.isSuccess]

/-- The call tells whether Login and Originate succeeded exactly where no event before the
answer to Originate has got a `Response` field, or the two blocks that are taken for the
answers happen to agree with them. For an arrangement of the events this is so whatever the
server answers exactly where there is no such event. -/
theorem originate_faithful_iff (hhost : host config.voice ≠ "") (hsecret : secret config ≠ "")
    (number callUuid : String) (around : Surroundings replace) :
    (∀ login events originate, Faithful config number callUuid around login events originate ↔
      around.strays = [] ∨ (accepted (around.answers login events originate) = true ↔
        login.val.isSuccess = true ∧ originate.val.isSuccess = true)) ∧
    ((∀ login events originate, Faithful config number callUuid around login events originate) ↔
      around.strays = []) := by
  have hfaithful := faithful_iff_accepted hhost hsecret number callUuid around
  constructor
  · intro login events originate
    rw [hfaithful]
    exact ⟨.inr, fun h => h.elim (accepted_of_no_strays · login events originate) id⟩
  · constructor
    · intro hall
      by_contra hstrays
      have hsuccess := (hfaithful (verdict replace true) (verdict replace true)
        (verdict replace true)).mp (hall _ _ _)
      have hfailure := (hfaithful (verdict replace true) (verdict replace true)
        (verdict replace false)).mp (hall _ _ _)
      rw [accepted_of_strays hstrays _ _ _ (verdict replace false)] at hsuccess
      have hboth := hfailure.mp (hsuccess.mpr ⟨isSuccess_verdict replace true,
        isSuccess_verdict replace true⟩)
      have hfalse := isSuccess_verdict replace false
      exact absurd (hfalse.symm.trans hboth.2) (by decide)
    · intro hstrays login events originate
      exact (hfaithful login events originate).mpr
        (accepted_of_no_strays hstrays login events originate)

/-- A configuration with which calls go ahead. -/
def readyConfig : AmiConfig where
  voice := ⟨8101, "trunk", some "192.0.2.5", none, none⟩
  amiUsername := "graphagent"
  amiSecretEnv := "AMI_SECRET"
  environ := fun _ => some "s3cr3t"

/-- The event of an earlier call that failed. -/
def earlierCall : WireBlock fun _ => "" :=
  WireBlock.ofTexts (fun _ => "")
    ["Event: OriginateResponse\r".toList, "Response: Failure\r".toList] (by decide) (by decide)
    (by decide)

/-- The event comes between the responses to Login and to Events. -/
def afterLogin : Surroundings fun _ => "" where
  banner := encode "Asterisk Call Manager/5.0.4\r"
  unbroken := by decide
  beforeLogin := []
  beforeEvents := [earlierCall]
  beforeOriginate := []
  later := []

theorem fields_earlierCall :
    earlierCall.fields = [("Event", "OriginateResponse"), ("Response", "Failure")] := by
  rw [earlierCall, fields_ofTexts]
  decide

theorem isResponse_earlierCall : earlierCall.isResponse = true := by
  rw [WireBlock.isResponse, fields_earlierCall]
  decide

theorem originate_faithful_iff_ready :
    (∀ login events originate,
        Faithful readyConfig "15551234567" "6f1c" afterLogin login events originate) ↔
      afterLogin.strays = [] :=
  (originate_faithful_iff (by decide) (by decide) "15551234567" "6f1c" afterLogin).2

/-- The Originate is rejected and the call reports that it is queued. -/
theorem earlier_failure_hides_rejection :
    ¬ Faithful readyConfig "15551234567" "6f1c" afterLogin (verdict _ true) (verdict _ true)
      (verdict _ false) := by
  intro hfaithful
  have hiff := (faithful_iff_accepted (by decide) (by decide) _ _ _ _ _ _).mp hfaithful
  have hanswers : afterLogin.answers (verdict _ true) (verdict _ true) (verdict _ false) =
      [(verdict (fun _ => "") true).val.fields, earlierCall.fields,
        (verdict (fun _ => "") true).val.fields, (verdict (fun _ => "") false).val.fields] := by
    simp [Surroundings.answers, Surroundings.blocks, afterLogin,
      (verdict (fun _ => "") _).property, isResponse_earlierCall]
  have haccepted : accepted (afterLogin.answers (verdict _ true) (verdict _ true)
      (verdict _ false)) = true := by
    rw [hanswers]
    simp [accepted, isSuccess_verdict]
  have hboth := hiff.mp haccepted
  have hfalse := isSuccess_verdict (fun _ => "") false
  exact absurd (hfalse.symm.trans hboth.2) (by decide)

end Result

end GraphAgent.Voice
