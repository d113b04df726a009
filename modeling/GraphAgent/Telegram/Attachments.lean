import GraphAgent.Library.Moves
import GraphAgent.Tools.Filesystem

/-!
# Attachments that Telegram users send

`_attachment` and `TelegramBot.handle_file` up to the path that the file is downloaded to. The
name that the sender gave is joined to the directory of the chat as it is.
-/

namespace GraphAgent.Telegram

section Handler

/-- `INCOMING_DIR` -/
def incomingDir : String := "incoming"

/-- What `_attachment` reads of a document. -/
structure Document where
  fileName : Option String
  fileUniqueId : String

/-- What `handle_file` reads of a message; of the photos, their unique ids. -/
structure FileMessage where
  fromUser : Option Int
  chatId : Int
  document : Option Document
  photo : List String

/-- What `handle_file` reads of the configuration. -/
structure FileConfig where
  allowedUserIds : List Int
  workspace : String

/-- The name of `_attachment`. -/
def attachmentName (message : FileMessage) : Option String :=
  match message.document with
  | some document =>
      let name := document.fileName.getD ""
      some (if name = "" then "document_" ++ document.fileUniqueId else name)
  | none => message.photo.getLast?.map fun uniqueId => "photo_" ++ uniqueId ++ ".jpg"

/-- An absolute path. -/
def isAbsolute (path : String) : Bool := path.toList.head? = some '/'

/-- `Path(left) / right` -/
def joinPath (left right : String) : String :=
  if isAbsolute right then right
  else if left = "" ∨ left.toList.getLast? = some '/' then left ++ right
  else left ++ "/" ++ right

/-- `Path(INCOMING_DIR) / str(chat_id)` in the workspace. -/
def chatDirectory (config : FileConfig) (chatId : Int) : String :=
  joinPath (joinPath config.workspace incomingDir) (toString chatId)

/-- `handle_file`: the path that it downloads to. -/
def handleFile (config : FileConfig) (message : FileMessage) : Option String :=
  match message.fromUser with
  | none => none
  | some user =>
      if user ∈ config.allowedUserIds then
        (attachmentName message).map (joinPath (chatDirectory config message.chatId))
      else none

end Handler

section Moves

/-- The move that a part of a path stands for. -/
def move? (part : String) : Option (Moves.Move String) :=
  if part = "" ∨ part = "." then none
  else if part = ".." then some .up
  else some (.down part)

/-- The moves of a path. -/
def moves (path : String) : List (Moves.Move String) :=
  ((path.toList.splitOn '/').map String.ofList).filterMap move?

/-- Resolving a path takes its moves, from the root or from the base. -/
theorem resolve_eq (base : Filesystem.Path) (path : String) :
    Filesystem.resolve base path =
      (moves path).foldl Moves.go (if isAbsolute path then [] else base) := by
  rw [moves, List.foldl_filterMap, Filesystem.resolve]
  congr 1
  · funext place part
    unfold move?
    split
    · rfl
    · split <;> rfl
  · simp [isAbsolute]

theorem moves_empty : moves "" = [] := by decide

theorem moves_append (left right : String) :
    moves (left ++ "/" ++ right) = moves left ++ moves right := by
  have htext : (left ++ "/" ++ right).toList = left.toList ++ '/' :: right.toList := by
    rw [String.toList_append, String.toList_append, List.append_assoc]
    rfl
  rw [moves, htext, List.splitOn_append_cons_self, List.map_append, List.filterMap_append]
  rfl

/-- The moves of a joined path are those of its two sides. -/
theorem moves_joinPath {right : String} (h : isAbsolute right = false) (left : String) :
    moves (joinPath left right) = moves left ++ moves right := by
  unfold joinPath
  rw [if_neg (by rw [h]; decide)]
  split
  case isTrue hleft =>
    rcases hleft with rfl | hslash
    · rw [String.empty_append, moves_empty, List.nil_append]
    · obtain ⟨front, hfront⟩ : ∃ front : String, left = front ++ "/" := by
        obtain ⟨init, hinit⟩ := List.getLast?_eq_some_iff.mp hslash
        refine ⟨String.ofList init, String.toList_injective ?_⟩
        rw [hinit, String.toList_append, String.toList_ofList]
        rfl
      have hleft := moves_append front ""
      rw [String.append_empty, moves_empty, List.append_nil] at hleft
      rw [hfront, moves_append, hleft]
  case isFalse => exact moves_append left right

theorem isAbsolute_joinPath {right : String} (h : isAbsolute right = false) (left : String) :
    isAbsolute (joinPath left right) = isAbsolute left := by
  have hhead : ∀ {rest : String}, left ≠ "" → isAbsolute (left ++ rest) = isAbsolute left := by
    intro rest hne
    have hchars : left.toList ≠ [] := by simpa using hne
    unfold isAbsolute
    rw [String.toList_append, List.head?_append_of_ne_nil _ hchars]
  unfold joinPath
  rw [if_neg (by rw [h]; decide)]
  split
  case isTrue hleft =>
    by_cases hempty : left = ""
    · rw [hempty, String.empty_append, h]
      decide
    · exact hhead hempty
  case isFalse hleft =>
    rw [String.append_assoc]
    exact hhead fun hempty => hleft (.inl hempty)

/-- A relative path is followed from where the left side leads. -/
theorem resolve_joinPath {right : String} (h : isAbsolute right = false) (cwd : Filesystem.Path)
    (left : String) :
    Filesystem.resolve cwd (joinPath left right) =
      (Moves.wayOf (moves right)).end (Filesystem.resolve cwd left) := by
  rw [resolve_eq, moves_joinPath h, isAbsolute_joinPath h, List.foldl_append, ← resolve_eq,
    Moves.foldl_go]

/-- An absolute path is followed from the root. -/
theorem resolve_of_isAbsolute {right : String} (h : isAbsolute right = true)
    (cwd : Filesystem.Path) (left : String) :
    Filesystem.resolve cwd (joinPath left right) = (Moves.wayOf (moves right)).names := by
  rw [joinPath, if_pos h, resolve_eq, if_pos h, Moves.foldl_go, Moves.end_nil]

end Moves

section Inside

/-- What is joined to the directory stays in it: an absolute name leads there by itself, and a
relative one comes back down the names that it climbs. -/
def Stays (directory : Filesystem.Path) (name : String) : Prop :=
  let way := Moves.wayOf (moves name)
  if isAbsolute name then directory <+: way.names
  else directory.drop (directory.length - way.climbs) <+: way.names

/-- A relative name that does not climb stays. -/
theorem stays_of_no_climbs {directory : Filesystem.Path} {name : String}
    (h : isAbsolute name = false) (hclimbs : (Moves.wayOf (moves name)).climbs = 0) :
    Stays directory name := by
  unfold Stays
  dsimp only
  rw [if_neg (by rw [h]; decide), hclimbs, Nat.sub_zero, List.drop_length]
  exact List.nil_prefix

theorem isPrefix_resolve_iff (cwd : Filesystem.Path) (directory name : String) :
    Filesystem.resolve cwd directory <+: Filesystem.resolve cwd (joinPath directory name) ↔
      Stays (Filesystem.resolve cwd directory) name := by
  unfold Stays
  dsimp only
  split
  case isTrue habsolute => rw [resolve_of_isAbsolute habsolute]
  case isFalse hrelative =>
    rw [resolve_joinPath (Bool.eq_false_iff.mpr hrelative), Moves.isPrefix_end_iff]

/-- Without `.` and `..`, the path that a message's file is downloaded to lies in the directory
of the chat. -/
def DownloadsInside (config : FileConfig) (cwd : Filesystem.Path) (message : FileMessage) : Prop :=
  ∀ destination, handleFile config message = some destination →
    Filesystem.resolve cwd (chatDirectory config message.chatId) <+:
      Filesystem.resolve cwd destination

theorem handleFile_eq_some {config : FileConfig} {message : FileMessage} {destination : String} :
    handleFile config message = some destination ↔
      ∃ user name, message.fromUser = some user ∧ user ∈ config.allowedUserIds ∧
        attachmentName message = some name ∧
          joinPath (chatDirectory config message.chatId) name = destination := by
  unfold handleFile
  cases message.fromUser with
  | none => simp
  | some user =>
      by_cases hallowed : user ∈ config.allowedUserIds
      · simp [hallowed]
      · simp [hallowed]

/-- A file is downloaded into the directory of the chat exactly where its name stays there. -/
theorem downloadsInside_iff (config : FileConfig) (cwd : Filesystem.Path)
    (message : FileMessage) :
    DownloadsInside config cwd message ↔
      ∀ user name, message.fromUser = some user → user ∈ config.allowedUserIds →
        attachmentName message = some name →
          Stays (Filesystem.resolve cwd (chatDirectory config message.chatId)) name := by
  constructor
  · intro hinside user name huser hallowed hname
    rw [← isPrefix_resolve_iff]
    exact hinside _ (handleFile_eq_some.mpr ⟨user, name, huser, hallowed, hname, rfl⟩)
  · intro hstays destination hdestination
    obtain ⟨user, name, huser, hallowed, hname, rfl⟩ := handleFile_eq_some.mp hdestination
    rw [isPrefix_resolve_iff]
    exact hstays user name huser hallowed hname

/-- A document whose name climbs out of the workspace. -/
theorem name_climbs_out :
    ¬ DownloadsInside ⟨[7], "data/workspace"⟩ ["srv"]
      ⟨some 7, 42, some ⟨some "../../../../.bashrc", "AgAD"⟩, []⟩ := by
  intro hinside
  have hprefix := hinside "data/workspace/incoming/42/../../../../.bashrc" (by decide +kernel)
  revert hprefix
  decide +kernel

end Inside

end GraphAgent.Telegram
