import GraphAgent.Library.NamedTrees
import GraphAgent.Tools.Policy
import Mathlib.Data.List.Sort
import Mathlib.Data.String.Basic

/-!
# The filesystem tool

`resolve_within` and `FilesystemTool.execute` on a tree of files without symbolic links.
Whatever the arguments are, a call works on the subtree at the root only.
-/

namespace GraphAgent.Filesystem

section Paths

/-- The parts of an absolute path. -/
abbrev Path := List String

/-- Directories, and files with their bytes. -/
abbrev Tree := NamedTree String (List UInt8)

/-- `str(path)` -/
def showPath (path : Path) : String := "/" ++ "/".intercalate path

/-- The reasons that the operating system gives. -/
inductive Errno where
  | notFound
  | notADirectory
  | isADirectory
  | exists
  deriving DecidableEq

/-- What `execute` raises. -/
inductive Error where
  | valueError (text : String)
  | typeError
  | keyError (key : String)
  | decodeError
  | osError (errno : Errno) (path : Path)
  | notADirectory (path : Path)
  | cannotDelete (path : Path)
  | destinationExists (path : Path)
  | intoItself (source destination : Path)

/-- The text of an exception, where Python gives one that depends on the call. -/
def Error.text (py : Python) : Error → String
  | .valueError text => text
  | .typeError => "TypeError"
  | .keyError key => "'" ++ key ++ "'"
  | .decodeError => "UnicodeDecodeError"
  | .osError errno path =>
      let reason :=
        match errno with
        | .notFound => "[Errno 2] No such file or directory: "
        | .notADirectory => "[Errno 20] Not a directory: "
        | .isADirectory => "[Errno 21] Is a directory: "
        | .exists => "[Errno 17] File exists: "
      reason ++ py.repr (.str (showPath path))
  | .notADirectory path => "not a directory: " ++ showPath path
  | .cannotDelete path => "cannot delete directory: " ++ showPath path
  | .destinationExists path => "Destination path '" ++ showPath path ++ "' already exists"
  | .intoItself source destination =>
      "Cannot move a directory '" ++ showPath source ++ "' into itself '" ++
        showPath destination ++ "'."

/-- `(base / raw).resolve()`: an absolute text replaces the base, and the parts `.` and `..`
are eliminated. -/
def resolve (base : Path) (raw : String) : Path :=
  ((raw.toList.splitOn '/').map String.ofList).foldl
    (fun path name =>
      if name = "" ∨ name = "." then path
      else if name = ".." then path.dropLast
      else path ++ [name])
    (if raw.toList.head? = some '/' then [] else base)

/-- `resolve_within`. -/
def resolveWithin (root : Path) (raw : Value) : Except Error Path :=
  match raw with
  | .str raw =>
      if '\x00' ∈ raw.toList then .error (.valueError "embedded null byte")
      else if root <+: resolve root raw then .ok (resolve root raw)
      else .error (.valueError ("path outside workspace: " ++ raw))
  | _ => .error .typeError

end Paths

section Disk

/-- Why nothing is found at a path. -/
def errnoOf (t : Tree) : Path → Errno
  | [] => .notFound
  | x :: p =>
      if t.isNode then
        match t.child x with
        | some c => errnoOf c p
        | none => .notFound
      else .notADirectory

/-- `path.mkdir(parents=True, exist_ok=True)`, on the parts of the path from the last to
the first. -/
def mkdirParents (t : Tree) : Path → Except Error Tree
  | [] => .ok t
  | x :: above =>
      let path := (x :: above).reverse
      match t.get path with
      | some (.node _) => .ok t
      | some (.leaf _) => .error (.osError .exists path)
      | none =>
          if errnoOf t path = .notADirectory then .error (.osError .notADirectory path)
          else (mkdirParents t above).map fun t => NamedTree.put (some (.node [])) t path

def mkdir (t : Tree) (path : Path) : Except Error Tree := mkdirParents t path.reverse

/-- Universal newlines, as `read_text` translates them. -/
def universalNewlines : List Char → List Char
  | '\r' :: '\n' :: rest => '\n' :: universalNewlines rest
  | '\r' :: rest => '\n' :: universalNewlines rest
  | c :: rest => c :: universalNewlines rest
  | [] => []

/-- `path.read_text()` -/
def readText (t : Tree) (path : Path) : Except Error String :=
  match t.get path with
  | some (.leaf bytes) =>
      match String.fromUTF8? bytes.toByteArray with
      | some text => .ok (String.ofList (universalNewlines text.toList))
      | none => .error .decodeError
  | some (.node _) => .error (.osError .isADirectory path)
  | none => .error (.osError (errnoOf t path) path)

/-- `path.write_text(content)`, in a directory that exists. -/
def writeText (t : Tree) (path : Path) (text : String) : Except Error Tree :=
  match t.get path with
  | some (.node _) => .error (.osError .isADirectory path)
  | _ => .ok (NamedTree.put (some (.leaf (text.toList.flatMap String.utf8EncodeChar))) t path)

/-- `sorted(entry.name for entry in path.iterdir())` -/
def listDir (t : Tree) (path : Path) : Except Error (List String) :=
  match t.get path with
  | some (.node children) =>
      .ok ((children.map Prod.fst).insertionSort fun a b => a ≤ b)
  | _ => .error (.notADirectory path)

/-- The check of `delete`, and `path.unlink()`. -/
def unlink (t : Tree) (path : Path) : Except Error Tree :=
  match t.get path with
  | some (.node _) => .error (.cannotDelete path)
  | some (.leaf _) => .ok (NamedTree.put none t path)
  | none => .error (.osError (errnoOf t path) path)

/-- `os.rename(source, target)`, and what `shutil.move` makes of its failure. -/
def rename (t : Tree) (source target destination : Path) : Except Error Tree :=
  match t.get source with
  | none => .error (.osError (errnoOf t source) source)
  | some moved =>
      if source = target then .ok t
      else
        let renamed := NamedTree.put (some moved) (NamedTree.put none t source) target
        match moved with
        | .leaf _ => .ok renamed
        | .node _ =>
            if source <+: target then .error (.intoItself source destination)
            else if (t.get target).isSome then .error (.osError .exists target)
            else .ok renamed

/-- `shutil.move(source, destination)`, where `name` is the last part of the source. -/
def move (t : Tree) (source : Path) (name : Option String) (destination : Path) :
    Except Error Tree :=
  match t.get destination with
  | some (.node _) =>
      if source = destination then .ok t
      else
        let target := destination ++ name.toList
        if (t.get target).isSome then .error (.destinationExists target)
        else rename t source target destination
  | _ => rename t source destination destination

end Disk

section Tool

/-- An action of the tool with its resolved paths. -/
inductive Command where
  | readFile (path : Path)
  | writeFile (path : Path) (content : Value)
  | listDir (path : Path)
  | mkdir (path : Path)
  | move (path : Path) (name : Option String) (destination : Path)
  | delete (path : Path)

/-- The part of `FilesystemTool.execute` that does not touch the disk. -/
def parse (py : Python) (root : Path) (args : Args) : Except Error Command := do
  let path ← resolveWithin root ((Args.get? args "path").getD (.str "."))
  match (Args.get? args "action").getD .null with
  | .str "read_file" => return .readFile path
  | .str "write_file" =>
      match (Args.get? args "content").getD .null with
      | .null => throw (.valueError "write_file requires 'content'")
      | content => return .writeFile path content
  | .str "list_dir" => return .listDir path
  | .str "mkdir" => return .mkdir path
  | .str "move" =>
      match Args.get? args "destination" with
      | none => throw (.keyError "destination")
      | some raw => return .move path path.getLast? (← resolveWithin root raw)
  | .str "delete" => return .delete path
  | action => throw (.valueError ("unknown action: " ++ py.str action))

/-- `str(path.relative_to(self.root))` -/
def relativeText (root path : Path) : String :=
  if path.length = root.length then "." else "/".intercalate (path.drop root.length)

/-- An action that changes the tree and returns a value, or raises and leaves the tree. -/
def finish (t : Tree) (value : Value) : Except Error Tree → Except Error Value × Tree
  | .ok t => (.ok value, t)
  | .error error => (.error error, t)

/-- The part of `FilesystemTool.execute` that works on the disk. -/
def run (root : Path) (t : Tree) : Command → Except Error Value × Tree
  | .readFile path => ((readText t path).map .str, t)
  | .writeFile path content =>
      match mkdir t path.dropLast with
      | .error error => (.error error, t)
      | .ok t =>
          match content with
          | .str text => finish t (.str (relativeText root path)) (writeText t path text)
          | _ => (.error .typeError, t)
  | .listDir path => ((listDir t path).map fun names => .arr (names.map .str), t)
  | .mkdir path => finish t .null (mkdir t path)
  | .move path name destination =>
      match mkdir t destination.dropLast with
      | .error error => (.error error, t)
      | .ok t => finish t .null (move t path name destination)
  | .delete path => finish t .null (unlink t path)

/-- `FilesystemTool.execute`. -/
def execute (py : Python) (root : Path) (t : Tree) (args : Args) : Except Error Value × Tree :=
  match parse py root args with
  | .error error => (.error error, t)
  | .ok command => run root t command

/-- Calls one after the other: what they return or raise, and the tree after them. -/
def executeAll (py : Python) (root : Path) (t : Tree) : List Args → List (Except Error Value) × Tree
  | [] => ([], t)
  | args :: calls =>
      let (result, t) := execute py root t args
      let (results, t) := executeAll py root t calls
      (result :: results, t)

end Tool

section Within

/-- The error of the same call where the paths begin at the root. -/
def Error.under (root : Path) : Error → Error
  | .osError errno path => .osError errno (root ++ path)
  | .notADirectory path => .notADirectory (root ++ path)
  | .cannotDelete path => .cannotDelete (root ++ path)
  | .destinationExists path => .destinationExists (root ++ path)
  | .intoItself source destination => .intoItself (root ++ source) (root ++ destination)
  | error => error

/-- The same action where the paths begin at the root. -/
def Command.under (root : Path) : Command → Command
  | .readFile path => .readFile (root ++ path)
  | .writeFile path content => .writeFile (root ++ path) content
  | .listDir path => .listDir (root ++ path)
  | .mkdir path => .mkdir (root ++ path)
  | .move path name destination => .move (root ++ path) name (root ++ destination)
  | .delete path => .delete (root ++ path)

/-- The action with its paths seen from the root. -/
def Command.relative (root : Path) : Command → Command
  | .readFile path => .readFile (path.drop root.length)
  | .writeFile path content => .writeFile (path.drop root.length) content
  | .listDir path => .listDir (path.drop root.length)
  | .mkdir path => .mkdir (path.drop root.length)
  | .move path name destination =>
      .move (path.drop root.length) name (destination.drop root.length)
  | .delete path => .delete (path.drop root.length)

/-- A call on the subtree at the root alone, without the tree around it. -/
def executeWithin (py : Python) (root : Path) (s : Tree) (args : Args) :
    Except Error Value × Tree :=
  match parse py root args with
  | .error error => (.error error, s)
  | .ok command =>
      let (result, s) := run [] s (command.relative root)
      (result.mapError (Error.under root), s)

/-- Calls on the subtree at the root, one after the other. -/
def executeAllWithin (py : Python) (root : Path) (s : Tree) :
    List Args → List (Except Error Value) × Tree
  | [] => ([], s)
  | args :: calls =>
      let (result, s) := executeWithin py root s args
      let (results, s) := executeAllWithin py root s calls
      (result :: results, s)

/-- What an operation makes of a tree follows what it makes of the subtree at the root: it
raises the same error, or the new tree has the new subtree and is otherwise as it was. -/
inductive Follows (root : Path) (origin : Tree) : Except Error Tree → Except Error Tree → Prop
  | raised (error : Error) : Follows root origin (.error (error.under root)) (.error error)
  | done {t s : Tree} (hosts : NamedTree.Hosts root origin t s) (dir : s.isNode = true) :
      Follows root origin (.ok t) (.ok s)

end Within

section Operations

variable {root : Path} {origin t s : Tree} {q : Path}

theorem errnoOf_append (h : t.get root = some s) (q : Path) :
    errnoOf t (root ++ q) = errnoOf s q := by
  induction root generalizing t with
  | nil =>
      obtain rfl : t = s := Option.some.inj h
      rfl
  | cons x root ih =>
      rw [NamedTree.get_cons] at h
      obtain ⟨c, hc, hget⟩ := Option.bind_eq_some_iff.1 h
      have hnode : t.isNode = true := NamedTree.isNode_of_child (x := x) (by simp [hc])
      rw [List.cons_append, errnoOf, if_pos hnode, hc]
      exact ih hget

theorem exists_children (hs : s.isNode = true) : ∃ children, s = .node children := by
  cases s with
  | leaf content => cases hs
  | node children => exact ⟨children, rfl⟩

/-- A directory that exists is not made again. -/
theorem mkdir_of_isNode {p : Path} {c : Tree} (hget : t.get p = some c) (hc : c.isNode = true) :
    mkdir t p = .ok t := by
  obtain ⟨children, rfl⟩ := exists_children hc
  unfold mkdir
  cases hreverse : p.reverse with
  | nil => rfl
  | cons x above =>
      have hp : (x :: above).reverse = p := by rw [← hreverse, List.reverse_reverse]
      rw [mkdirParents]
      simp only [hp, hget]

theorem mkdir_concat (t : Tree) (p : Path) (x : String) :
    mkdir t (p ++ [x]) =
      match t.get (p ++ [x]) with
      | some (.node _) => .ok t
      | some (.leaf _) => .error (.osError .exists (p ++ [x]))
      | none =>
          if errnoOf t (p ++ [x]) = .notADirectory then
            .error (.osError .notADirectory (p ++ [x]))
          else (mkdir t p).map fun t => NamedTree.put (some (.node [])) t (p ++ [x]) := by
  have hreverse : (p ++ [x]).reverse = x :: p.reverse := by simp
  have hback : (x :: p.reverse).reverse = p ++ [x] := by simp
  unfold mkdir
  rw [hreverse, mkdirParents]
  simp only [hback]

theorem follows_mkdir (h : NamedTree.Hosts root origin t s) (hs : s.isNode = true) (q : Path) :
    Follows root origin (mkdir t (root ++ q)) (mkdir s q) := by
  induction q using List.reverseRecOn with
  | nil =>
      rw [List.append_nil, mkdir_of_isNode h.inside hs]
      exact .done h hs
  | append_singleton q x ih =>
      have hget := h.get (q ++ [x])
      have herrno := errnoOf_append h.inside (q ++ [x])
      rw [← List.append_assoc] at hget herrno
      rw [← List.append_assoc, mkdir_concat, mkdir_concat, hget, herrno]
      rcases s.get (q ++ [x]) with _ | bytes | children
      · dsimp only
        split_ifs
        · rw [List.append_assoc]
          exact .raised (.osError .notADirectory (q ++ [x]))
        · generalize mkdir t (root ++ q) = made, mkdir s q = made' at ih ⊢
          cases ih with
          | raised error => exact .raised error
          | done hosts dir =>
              have hput := hosts.put (v := some (.node [])) (q := q ++ [x]) (by simp)
              rw [← List.append_assoc] at hput
              exact .done hput (by rw [NamedTree.isNode_put (by simp)]; exact dir)
      · dsimp only
        rw [List.append_assoc]
        exact .raised (.osError .exists (q ++ [x]))
      · exact .done h hs

/-- The directory above the root exists: it is not made, and nothing above it. -/
theorem follows_mkdir_dropLast (h : NamedTree.Hosts root origin t s) (hs : s.isNode = true)
    (q : Path) : Follows root origin (mkdir t (root ++ q).dropLast) (mkdir s q.dropLast) := by
  rcases List.eq_nil_or_concat' q with rfl | ⟨q, x, rfl⟩
  · rw [List.append_nil]
    rcases List.eq_nil_or_concat' root with rfl | ⟨above, x, rfl⟩
    · exact follows_mkdir h hs []
    · have hget : t.get (above ++ [x]) ≠ none := by simp [h.inside]
      obtain ⟨c, hc, hnode⟩ := NamedTree.isNode_of_get_append hget (by simp)
      rw [List.dropLast_concat, mkdir_of_isNode hc hnode]
      exact .done h hs
  · rw [← List.append_assoc, List.dropLast_concat, List.dropLast_concat]
    exact follows_mkdir h hs q

theorem readText_append (h : NamedTree.Hosts root origin t s) (q : Path) :
    readText t (root ++ q) = (readText s q).mapError (Error.under root) := by
  unfold readText
  rw [h.get, errnoOf_append h.inside]
  rcases s.get q with _ | bytes | children
  · rfl
  · dsimp only
    cases String.fromUTF8? bytes.toByteArray <;> rfl
  · rfl

theorem listDir_append (h : NamedTree.Hosts root origin t s) (q : Path) :
    listDir t (root ++ q) = (listDir s q).mapError (Error.under root) := by
  unfold listDir
  rw [h.get]
  rcases s.get q with _ | bytes | children <;> rfl

/-- What is not a directory stands below the root. -/
theorem ne_nil_of_get (hs : s.isNode = true) (h : ∀ children, s.get q ≠ some (.node children)) :
    q ≠ [] := by
  rintro rfl
  obtain ⟨children, rfl⟩ := exists_children hs
  exact h children rfl

theorem follows_put (h : NamedTree.Hosts root origin t s) (hs : s.isNode = true) (hq : q ≠ [])
    (v : Option Tree) :
    Follows root origin (.ok (NamedTree.put v t (root ++ q))) (.ok (NamedTree.put v s q)) :=
  .done (h.put hq) (by rw [NamedTree.isNode_put hq]; exact hs)

theorem follows_writeText (h : NamedTree.Hosts root origin t s) (hs : s.isNode = true) (q : Path)
    (text : String) : Follows root origin (writeText t (root ++ q) text) (writeText s q text) := by
  unfold writeText
  rw [h.get]
  rcases hq : s.get q with _ | bytes | children
  · exact follows_put h hs (ne_nil_of_get hs (by simp [hq])) _
  · exact follows_put h hs (ne_nil_of_get hs (by simp [hq])) _
  · exact .raised (.osError .isADirectory q)

theorem follows_unlink (h : NamedTree.Hosts root origin t s) (hs : s.isNode = true) (q : Path) :
    Follows root origin (unlink t (root ++ q)) (unlink s q) := by
  unfold unlink
  rw [h.get, errnoOf_append h.inside]
  rcases hq : s.get q with _ | bytes | children
  · exact .raised (.osError (errnoOf s q) q)
  · exact follows_put h hs (ne_nil_of_get hs (by simp [hq])) _
  · exact .raised (.cannotDelete q)

/-- The target of a renaming is no directory. -/
theorem follows_rename (h : NamedTree.Hosts root origin t s) (hs : s.isNode = true)
    {source target destination : Path} (htarget : ∀ children, s.get target ≠ some (.node children)) :
    Follows root origin (rename t (root ++ source) (root ++ target) (root ++ destination))
      (rename s source target destination) := by
  have hne := ne_nil_of_get hs htarget
  unfold rename
  rw [h.get, h.get, errnoOf_append h.inside]
  rcases hsource : s.get source with _ | moved
  · exact .raised (.osError (errnoOf s source) source)
  simp only [List.append_cancel_left_eq, List.prefix_append_right_inj]
  by_cases hsame : source = target
  · rw [if_pos hsame, if_pos hsame]
    exact .done h hs
  rw [if_neg hsame, if_neg hsame]
  have hrenamed : source ≠ [] → Follows root origin
      (.ok (NamedTree.put (some moved) (NamedTree.put none t (root ++ source)) (root ++ target)))
      (.ok (NamedTree.put (some moved) (NamedTree.put none s source) target)) := fun hsourcene =>
    follows_put (h.put hsourcene) (by rw [NamedTree.isNode_put hsourcene]; exact hs) hne _
  cases moved with
  | leaf bytes => exact hrenamed (ne_nil_of_get hs (by simp [hsource]))
  | node children =>
      dsimp only
      split_ifs with hinto hexists
      · exact .raised (.intoItself source destination)
      · exact .raised (.osError .exists target)
      · exact hrenamed fun hnil => hinto (hnil ▸ List.nil_prefix)

theorem follows_move (h : NamedTree.Hosts root origin t s) (hs : s.isNode = true)
    (source : Path) (name : Option String) (destination : Path) :
    Follows root origin (move t (root ++ source) name (root ++ destination))
      (move s source name destination) := by
  unfold move
  rw [h.get]
  rcases hdestination : s.get destination with _ | bytes | children
  · exact follows_rename h hs (by simp [hdestination])
  · exact follows_rename h hs (by simp [hdestination])
  · simp only [List.append_assoc, h.get, List.append_cancel_left_eq]
    split_ifs with hsame hexists
    · exact .done h hs
    · exact .raised (.destinationExists _)
    · refine follows_rename h hs fun children hchildren => hexists ?_
      rw [hchildren]
      rfl

end Operations

section Calls

variable {root : Path} {origin t s : Tree} {py : Python}

/-- What a call returns or raises, and leaves, is what it does on the subtree at the root. -/
structure Mirrors (root : Path) (origin : Tree) (outer inner : Except Error Value × Tree) :
    Prop where
  result : outer.1 = inner.1.mapError (Error.under root)
  hosts : NamedTree.Hosts root origin outer.2 inner.2
  dir : inner.2.isNode = true

theorem mirrors_finish (h : NamedTree.Hosts root origin t s) (hs : s.isNode = true) (value : Value)
    {outer inner : Except Error Tree} (hfollows : Follows root origin outer inner) :
    Mirrors root origin (finish t value outer) (finish s value inner) := by
  cases hfollows with
  | raised error => exact ⟨rfl, h, hs⟩
  | done hosts dir => exact ⟨rfl, hosts, dir⟩

theorem relativeText_append (q : Path) : relativeText root (root ++ q) = relativeText [] q := by
  unfold relativeText
  rw [List.drop_left, List.length_append]
  simp

/-- The part on the disk does not see the tree around the root. -/
theorem mirrors_run (h : NamedTree.Hosts root origin t s) (hs : s.isNode = true)
    (command : Command) :
    Mirrors root origin (run root t (command.under root)) (run [] s command) := by
  cases command with
  | readFile path =>
      refine ⟨?_, h, hs⟩
      show (readText t (root ++ path)).map Value.str = _
      rw [readText_append h]
      show _ = ((readText s path).map Value.str).mapError (Error.under root)
      cases readText s path <;> rfl
  | writeFile path content =>
      have hmade := follows_mkdir_dropLast h hs path
      simp only [Command.under, run]
      generalize mkdir t (root ++ path).dropLast = made, mkdir s path.dropLast = made' at hmade ⊢
      cases hmade with
      | raised error => exact ⟨rfl, h, hs⟩
      | done hosts dir =>
          cases content with
          | str text =>
              dsimp only
              rw [relativeText_append]
              exact mirrors_finish hosts dir _ (follows_writeText hosts dir path text)
          | _ => exact ⟨rfl, hosts, dir⟩
  | listDir path =>
      refine ⟨?_, h, hs⟩
      show (listDir t (root ++ path)).map (fun names => Value.arr (names.map .str)) = _
      rw [listDir_append h]
      show _ = ((listDir s path).map fun names => Value.arr (names.map .str)).mapError
        (Error.under root)
      cases listDir s path <;> rfl
  | mkdir path => exact mirrors_finish h hs _ (follows_mkdir h hs path)
  | move path name destination =>
      have hmade := follows_mkdir_dropLast h hs destination
      simp only [Command.under, run]
      generalize mkdir t (root ++ destination).dropLast = made, mkdir s destination.dropLast = made'
        at hmade ⊢
      cases hmade with
      | raised error => exact ⟨rfl, h, hs⟩
      | done hosts dir =>
          exact mirrors_finish hosts dir _ (follows_move hosts dir path name destination)
  | delete path => exact mirrors_finish h hs _ (follows_unlink h hs path)

theorem isPrefix_of_resolveWithin {raw : Value} {path : Path}
    (h : resolveWithin root raw = .ok path) : root <+: path := by
  unfold resolveWithin at h
  split at h
  · split_ifs at h with hnull hwithin
    · obtain rfl := Except.ok.inj h
      exact hwithin
  · cases h

theorem append_drop_of_isPrefix {path : Path} (h : root <+: path) :
    root ++ path.drop root.length = path := by
  obtain ⟨rest, rfl⟩ := h
  rw [List.drop_left]

/-- Every path of an action lies within the root. -/
theorem under_relative_of_parse {args : Args} {command : Command}
    (h : parse py root args = .ok command) : (command.relative root).under root = command := by
  unfold parse at h
  cases hpath : resolveWithin root ((Args.get? args "path").getD (.str ".")) with
  | error error =>
      rw [hpath] at h
      cases h
  | ok path =>
      have hwithin := append_drop_of_isPrefix (isPrefix_of_resolveWithin hpath)
      rw [hpath] at h
      simp only [bind, Except.bind, pure, Except.pure, throw, throwThe, MonadExceptOf.throw] at h
      split at h
      case h_5 =>
        split at h
        case h_1 => cases h
        case h_2 raw _ =>
          cases hdestination : resolveWithin root raw with
          | error error =>
              rw [hdestination] at h
              cases h
          | ok destination =>
              have hother := append_drop_of_isPrefix (isPrefix_of_resolveWithin hdestination)
              rw [hdestination] at h
              obtain rfl := Except.ok.inj h
              simp only [Command.relative, Command.under, hwithin, hother]
      case h_2 =>
        split at h
        case h_1 => cases h
        case h_2 =>
          obtain rfl := Except.ok.inj h
          simp only [Command.relative, Command.under, hwithin]
      case h_7 => cases h
      all_goals
        obtain rfl := Except.ok.inj h
        simp only [Command.relative, Command.under, hwithin]

variable (py) in
/-- A call on the tree is the call on the subtree at the root. -/
theorem execute_eq_executeWithin (h : NamedTree.Hosts root origin t s) (hs : s.isNode = true)
    (args : Args) :
    (execute py root t args).1 = (executeWithin py root s args).1 ∧
      NamedTree.Hosts root origin (execute py root t args).2 (executeWithin py root s args).2 ∧
      (executeWithin py root s args).2.isNode = true := by
  unfold execute executeWithin
  cases hparse : parse py root args with
  | error error => exact ⟨rfl, h, hs⟩
  | ok command =>
      have hmirrors := mirrors_run h hs (command.relative root)
      rw [under_relative_of_parse hparse] at hmirrors
      exact ⟨hmirrors.result, hmirrors.hosts, hmirrors.dir⟩

variable (py) in
theorem executeAll_eq_executeAllWithin (h : NamedTree.Hosts root origin t s) (hs : s.isNode = true)
    (calls : List Args) :
    (executeAll py root t calls).1 = (executeAllWithin py root s calls).1 ∧
      NamedTree.Hosts root origin (executeAll py root t calls).2
        (executeAllWithin py root s calls).2 := by
  induction calls generalizing t s with
  | nil => exact ⟨rfl, h⟩
  | cons args calls ih =>
      obtain ⟨hresult, hhosts, hdir⟩ := execute_eq_executeWithin py h hs args
      obtain ⟨hresults, hrest⟩ := ih hhosts hdir
      exact ⟨congrArg₂ List.cons hresult hresults, hrest⟩

/-- The root that `setup` makes is a directory. -/
theorem isNode_of_mkdir {p : Path} (hroot : t.isNode = true) (h : mkdir t p = .ok s) :
    ∃ c, s.get p = some c ∧ c.isNode = true ∧ s.isNode = true := by
  induction p using List.reverseRecOn generalizing s with
  | nil =>
      obtain rfl := Except.ok.inj h
      exact ⟨t, rfl, hroot, hroot⟩
  | append_singleton p x ih =>
      rw [mkdir_concat] at h
      rcases hget : t.get (p ++ [x]) with _ | bytes | children
      · rw [hget] at h
        dsimp only at h
        split_ifs at h
        cases hmade : mkdir t p with
        | error error =>
            rw [hmade] at h
            cases h
        | ok made =>
            rw [hmade] at h
            obtain rfl := Except.ok.inj h
            obtain ⟨c, hc, hdir, hnode⟩ := ih hmade
            refine ⟨_, NamedTree.get_put_self hc hdir, rfl, ?_⟩
            rw [NamedTree.isNode_put (by simp)]
            exact hnode
      · rw [hget] at h
        cases h
      · rw [hget] at h
        obtain rfl := Except.ok.inj h
        exact ⟨_, hget, rfl, hroot⟩

/-- Where the root is a directory: after any calls, everything outside is what it was, and
what they have returned and raised, and left inside, depends on the inside alone. -/
theorem executeAll_confined {root : Path} {t s : Tree} (h : t.get root = some s)
    (hs : s.isNode = true) (py : Python) (calls : List Args) :
    (∀ p, ¬ root <+: p → (executeAll py root t calls).2.look p = t.look p) ∧
      ∀ other : Tree, other.get root = some s →
        (executeAll py root other calls).1 = (executeAll py root t calls).1 ∧
          (executeAll py root other calls).2.get root = (executeAll py root t calls).2.get root := by
  obtain ⟨hresults, hhosts⟩ :=
    executeAll_eq_executeAllWithin py (NamedTree.Hosts.refl h) hs calls
  refine ⟨hhosts.outside, fun other hother => ?_⟩
  obtain ⟨hresults', hhosts'⟩ :=
    executeAll_eq_executeAllWithin py (NamedTree.Hosts.refl hother) hs calls
  exact ⟨hresults'.trans hresults.symm, hhosts'.inside.trans hhosts.inside.symm⟩

/-- A file is moved into a directory of the workspace, and the file beside the workspace
stays out of reach. -/
theorem executeAll_confined_move :
    let root : Path := ["ws"]
    let t : Tree := .node [("ws", .node [("a", .leaf [65]), ("b", .node [])]), ("key", .leaf [66])]
    let py : Python := ⟨Text.lower, fun c => c.isAlphanum || c = '_', fun _ => ""⟩
    let calls : List Args :=
      [[("action", .str "move"), ("path", .str "a"), ("destination", .str "../ws/b")],
        [("action", .str "read_file"), ("path", .str "/key")]]
    (executeAll py root t calls).2.get ["ws", "b", "a"] = some (.leaf [65]) ∧
      (executeAll py root t calls).2.look ["key"] = some (some [66]) := by
  intro root t py calls
  have hconfined := @executeAll_confined root t _ rfl rfl py calls
  refine ⟨rfl, ?_⟩
  rw [hconfined.1 ["key"] (by decide)]
  rfl

end Calls

end GraphAgent.Filesystem
