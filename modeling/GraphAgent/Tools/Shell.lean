import GraphAgent.Library.CommandLine
import GraphAgent.Library.Mounts
import GraphAgent.Library.Utf8
import GraphAgent.Tools.Filesystem
import GraphAgent.Transports.Ami

/-!
# The shell tool

`ShellTool.execute` and `BwrapRunner`: the checks of a command, the command line of the
sandbox, and what is returned of the output. The command line is read back with the numbers
of arguments that the sandbox's options have got, and its mounts tell what a command can see
of the host and what it can write.
-/

namespace GraphAgent.Shell

open Filesystem (Path Tree Error showPath resolve)
open CommandLine (CliOption)
open Mounts (Mount Seen)

section Source

/-- `SandboxConfig`. -/
structure SandboxConfig where
  timeoutSeconds : Int
  maxOutputBytes : Int
  network : Bool
  writableBinds : List (String × String)
  maskPaths : List String
  denyPatterns : List String

/-- What can stand between two slashes of a resolved path. -/
structure IsName (name : String) : Prop where
  slash : '/' ∉ name.toList
  empty : name ≠ ""
  here : name ≠ "."
  up : name ≠ ".."

/-- A directory of the host by its resolved path. -/
structure Directory where
  path : Path
  names : ∀ name ∈ path, IsName name

/-- `str(Path(raw).resolve())`, as parts. -/
def resolved (cwd : Directory) (raw : String) : Except Error Path :=
  if '\x00' ∈ raw.toList then .error (.valueError "embedded null byte")
  else .ok (resolve cwd.path raw)

/-- The options of `writable_binds`: every source is made a directory. -/
def bindOptions (cwd : Directory) (t : Tree) :
    List (String × String) → Except Error (List CliOption) × Tree
  | [] => (.ok [], t)
  | (guest, host) :: binds =>
      match resolved cwd host with
      | .error error => (.error error, t)
      | .ok source =>
          match Filesystem.mkdir t source with
          | .error error => (.error error, t)
          | .ok t =>
              let (rest, t) := bindOptions cwd t binds
              (rest.map (⟨"--bind", [showPath source, guest]⟩ :: ·), t)

/-- `path.is_dir()` -/
def isDir (t : Tree) (path : Path) : Bool :=
  match t.get path with
  | some (.node _) => true
  | _ => false

/-- The option of one of `mask_paths`. -/
def maskOption (t : Tree) (path : Path) : CliOption :=
  if isDir t path then ⟨"--tmpfs", [showPath path]⟩
  else ⟨"--bind", ["/dev/null", showPath path]⟩

/-- The options of `mask_paths`. -/
def maskOptions (cwd : Directory) (t : Tree) : List String → Except Error (List CliOption)
  | [] => .ok []
  | raw :: paths => do
      let path ← resolved cwd raw
      return maskOption t path :: (← maskOptions cwd t paths)

/-- The options that do not depend on the configured paths. -/
def fixedOptions (config : SandboxConfig) (ws : String) : List CliOption :=
  ⟨"--unshare-all", []⟩ :: (if config.network then [⟨"--share-net", []⟩] else []) ++
    [⟨"--unshare-user", []⟩, ⟨"--disable-userns", []⟩, ⟨"--die-with-parent", []⟩,
      ⟨"--new-session", []⟩, ⟨"--clearenv", []⟩, ⟨"--setenv", ["HOME", ws]⟩,
      ⟨"--setenv", ["PATH", ws ++ "/.local/bin:/usr/local/bin:/usr/bin:/bin"]⟩,
      ⟨"--ro-bind", ["/", "/"]⟩, ⟨"--proc", ["/proc"]⟩, ⟨"--dev", ["/dev"]⟩,
      ⟨"--tmpfs", ["/tmp"]⟩, ⟨"--bind", [ws, ws]⟩]

/-- `BwrapRunner._build_argv`, with the files after the sources of the binds were made. -/
def buildArgv (config : SandboxConfig) (cwd : Directory) (t : Tree) (command workspace : String) :
    Except Error (List String) × Tree :=
  match resolved cwd workspace with
  | .error error => (.error error, t)
  | .ok path =>
      let ws := showPath path
      match bindOptions cwd t config.writableBinds with
      | (.error error, t) => (.error error, t)
      | (.ok binds, t) =>
          ((maskOptions cwd t config.maskPaths).map fun masks =>
            "bwrap" :: CommandLine.render
              (fixedOptions config ws ++ binds ++ masks ++ [⟨"--chdir", [ws]⟩]) ++
                ["--", "/bin/sh", "-c", command], t)

/-- `re.compile(pattern, re.IGNORECASE).search`, or the reason that the pattern is invalid. -/
abbrev Compile := String → Except String (String → Bool)

/-- `ShellTool`, with Python's regular expressions, its `int` and the decoding of bytes that
are no UTF-8. -/
structure ShellTool where
  config : SandboxConfig
  py : Python
  toInt : Value → Except String Int
  replace : List UInt8 → String
  denied : List (String × (String → Bool))

/-- `ShellTool.__init__`. -/
def ShellTool.make (config : SandboxConfig) (py : Python) (toInt : Value → Except String Int)
    (replace : List UInt8 → String) (compile : Compile) : Except Error ShellTool := do
  let denied ← config.denyPatterns.mapM fun pattern =>
    match compile pattern with
    | .ok search => .ok (pattern, search)
    | .error reason => .error (.valueError
        ("shell: invalid deny_patterns regex " ++ py.repr (.str pattern) ++ ": " ++ reason))
  return ⟨config, py, toInt, replace, denied⟩

namespace ShellTool

variable (tool : ShellTool)

/-- The command of a call. -/
def commandOf (args : Args) : String :=
  Text.strip (tool.py.str ((Args.get? args "command").getD (.str "")))

/-- The seconds that a call is given. -/
def timeoutOf (args : Args) : Except Error Int :=
  match (Args.get? args "timeout_seconds").getD .null with
  | .null => .ok tool.config.timeoutSeconds
  | requested =>
      match tool.toInt requested with
      | .ok seconds => .ok (max 1 (min seconds tool.config.timeoutSeconds))
      | .error text => .error (.valueError text)

/-- What is to be run, and for how long. -/
structure Spawn where
  argv : List String
  timeout : Int

/-- `ShellTool.execute` and `BwrapRunner.run` up to the start of the process. -/
def request (cwd : Directory) (t : Tree) (args : Args) (workspace : String) :
    Except Error Spawn × Tree :=
  let command := tool.commandOf args
  if command = "" then (.error (.valueError "shell: command must not be empty"), t)
  else
    match tool.denied.find? fun pattern => pattern.2 command with
    | some pattern =>
        (.error (.valueError ("shell: command denied by sandbox policy (pattern: " ++
          tool.py.repr (.str pattern.1) ++ ")")), t)
    | none =>
        match tool.timeoutOf args with
        | .error error => (.error error, t)
        | .ok timeout =>
            match buildArgv tool.config cwd t command workspace with
            | (.error error, t) => (.error error, t)
            | (.ok argv, t) =>
                if argv.any fun word => '\x00' ∈ word.toList then
                  (.error (.valueError "embedded null byte"), t)
                else (.ok ⟨argv, timeout⟩, t)

/-- A process that has ended: by itself, or killed because its time was up. -/
structure Finished where
  stdout : List UInt8
  stderr : List UInt8
  returncode : Option Int
  timedOut : Bool

/-- `ExecResult`. -/
structure ExecResult where
  stdout : String
  stderr : String
  exitCode : Int

/-- `BwrapRunner.run` after the process has ended. -/
def execResult (timeout : Int) (finished : Finished) : ExecResult :=
  let out := Voice.decode tool.replace finished.stdout
  let err := Voice.decode tool.replace finished.stderr
  if finished.timedOut then
    ⟨out, "command timed out after " ++ toString timeout ++ "s\n" ++ err, -1⟩
  else ⟨out, err, finished.returncode.getD 0⟩

/-- The length of `encoded[:limit]`. -/
def cutAt (limit : Int) (length : ℕ) : ℕ :=
  if 0 ≤ limit then limit.toNat else length - limit.natAbs

/-- `ShellTool._truncate`. -/
def truncate (text : String) : String :=
  let limit := tool.config.maxOutputBytes
  let encoded := Utf8.encode text.toList
  if encoded.length ≤ limit then text
  else
    String.ofList (Utf8.decodeIgnore (encoded.take (cutAt limit encoded.length))) ++
      "\n...[truncated " ++ toString (encoded.length - limit) ++ " bytes]"

/-- What `ShellTool.execute` returns of a result. -/
def answer (result : ExecResult) : Args :=
  [("stdout", .str (tool.truncate result.stdout)), ("stderr", .str (tool.truncate result.stderr)),
    ("exit_code", .int result.exitCode)]

/-- `ShellTool.execute`, where `spawn` runs a process on the files. -/
def execute (spawn : Spawn → Tree → Except Error Finished × Tree) (cwd : Directory) (t : Tree)
    (args : Args) (workspace : String) : Except Error Args × Tree :=
  match tool.request cwd t args workspace with
  | (.error error, t) => (.error error, t)
  | (.ok process, t) =>
      let (finished, t) := spawn process t
      (finished.map fun finished => tool.answer (tool.execResult process.timeout finished), t)

end ShellTool

end Source

section Paths

/-- A part of a path is taken. -/
def descend (path : Path) (name : String) : Path :=
  if name = "" ∨ name = "." then path
  else if name = ".." then path.dropLast
  else path ++ [name]

theorem resolve_eq_foldl (base : Path) (raw : String) :
    resolve base raw = ((raw.toList.splitOn '/').map String.ofList).foldl descend
      (if raw.toList.head? = some '/' then [] else base) := rfl

theorem slash_not_mem_of_mem_splitOn {chars piece : List Char} (h : piece ∈ chars.splitOn '/') :
    '/' ∉ piece := by
  induction chars generalizing piece with
  | nil =>
      rw [List.splitOn_nil, List.mem_singleton] at h
      simp [h]
  | cons c rest ih =>
      rw [List.splitOn_cons_eq_if_modifyHead] at h
      split at h
      · rcases List.mem_cons.1 h with rfl | h
        · simp
        · exact ih h
      case isFalse hc =>
        cases hsplit : rest.splitOn '/' with
        | nil => exact absurd hsplit (List.splitOn_ne_nil _ _)
        | cons first others =>
            rw [hsplit] at h ih
            rcases List.mem_cons.1 h with rfl | h
            · have hfirst := ih List.mem_cons_self
              have hne : c ≠ '/' := by simpa using hc
              simp [hfirst, Ne.symm hne]
            · exact ih (List.mem_cons_of_mem _ h)

/-- Only names come into a path, and what is taken out of it leaves names. -/
theorem isName_descend {path : Path} {name : String} (hslash : '/' ∉ name.toList)
    (h : ∀ name ∈ path, IsName name) : ∀ name' ∈ descend path name, IsName name' := by
  unfold descend
  split_ifs with hhere hup
  · exact h
  · exact fun name' hmem => h name' (List.dropLast_subset _ hmem)
  · rw [not_or] at hhere
    rw [List.forall_mem_append, List.forall_mem_singleton]
    exact ⟨h, hslash, hhere.1, hhere.2, hup⟩

theorem isName_resolve {base : Path} (h : ∀ name ∈ base, IsName name) (raw : String) :
    ∀ name ∈ resolve base raw, IsName name := by
  have hparts : ∀ part ∈ (raw.toList.splitOn '/').map String.ofList, '/' ∉ part.toList := by
    intro part hmem
    obtain ⟨piece, hpiece, rfl⟩ := List.mem_map.1 hmem
    rw [String.toList_ofList]
    exact slash_not_mem_of_mem_splitOn hpiece
  rw [resolve_eq_foldl]
  generalize (raw.toList.splitOn '/').map String.ofList = parts at hparts
  have hstart : ∀ name ∈ if raw.toList.head? = some '/' then [] else base, IsName name := by
    split_ifs
    · simp
    · exact h
  generalize (if raw.toList.head? = some '/' then [] else base) = start at hstart
  induction parts generalizing start with
  | nil => exact hstart
  | cons part parts ih =>
      exact ih (fun part hmem => hparts part (List.mem_cons_of_mem _ hmem)) _
        (isName_descend (hparts part List.mem_cons_self) hstart)

theorem descend_of_isName {name : String} (h : IsName name) (path : Path) :
    descend path name = path ++ [name] := by
  rw [descend, if_neg (not_or.2 ⟨h.empty, h.here⟩), if_neg h.up]

theorem foldl_descend {names : Path} (h : ∀ name ∈ names, IsName name) (path : Path) :
    names.foldl descend path = path ++ names := by
  induction names generalizing path with
  | nil => exact (List.append_nil _).symm
  | cons name names ih =>
      rw [List.foldl_cons, descend_of_isName (h name List.mem_cons_self),
        ih fun name hmem => h name (List.mem_cons_of_mem _ hmem), List.append_assoc]
      rfl

theorem splitOn_intercalate {names : Path} (hne : names ≠ [])
    (h : ∀ name ∈ names, '/' ∉ name.toList) :
    ("/".intercalate names).toList.splitOn '/' = names.map String.toList := by
  induction names with
  | nil => exact absurd rfl hne
  | cons name names ih =>
      have hname := h name List.mem_cons_self
      cases names with
      | nil =>
          have hone : "/".intercalate [name] = name := by simp
          rw [hone, List.splitOn_eq_singleton hname]
          rfl
      | cons second names =>
          have htext : ("/".intercalate (name :: second :: names)).toList =
              name.toList ++ '/' :: ("/".intercalate (second :: names)).toList := by
            simp [String.toList_intercalate]
          rw [htext, List.splitOn_append_cons_self, List.splitOn_eq_singleton hname,
            ih (List.cons_ne_nil _ _) fun name hmem => h name (List.mem_cons_of_mem _ hmem)]
          rfl

/-- The text of a resolved path is read as the path. -/
theorem resolve_showPath {path : Path} (h : ∀ name ∈ path, IsName name) (base : Path) :
    resolve base (showPath path) = path := by
  have hslash : (showPath path).toList = '/' :: ("/".intercalate path).toList := by
    rw [showPath, String.toList_append]
    rfl
  have hparts : (((showPath path).toList.splitOn '/').map String.ofList).foldl descend [] =
      path := by
    rw [hslash, List.splitOn_cons_eq_if_modifyHead, if_pos (by simp), List.map_cons,
      List.foldl_cons]
    have hnothing : descend [] (String.ofList []) = [] := rfl
    rw [hnothing]
    cases path with
    | nil => rfl
    | cons name path =>
        rw [splitOn_intercalate (List.cons_ne_nil _ _) fun name hmem => (h name hmem).slash,
          List.map_map]
        have hid : String.ofList ∘ String.toList = id := funext fun _ => String.ofList_toList
        rw [hid, List.map_id, foldl_descend h, List.nil_append]
  rw [resolve_eq_foldl, hslash]
  rw [hslash] at hparts
  exact hparts

end Paths

section Jail

/-- The options of the sandbox with their numbers of arguments. -/
def optionArities : List (String × ℕ) :=
  [("--unshare-all", 0), ("--share-net", 0), ("--unshare-user", 0), ("--disable-userns", 0),
    ("--die-with-parent", 0), ("--new-session", 0), ("--clearenv", 0), ("--setenv", 2),
    ("--ro-bind", 2), ("--proc", 1), ("--dev", 1), ("--tmpfs", 1), ("--bind", 2), ("--chdir", 1)]

/-- The options that mount something. -/
def mountOptions : List String := ["--ro-bind", "--bind", "--proc", "--dev", "--tmpfs"]

/-- The sandbox: the number of arguments that an option has got, the mount that an option asks
for, and what is to be seen at a place when options have been followed. -/
structure Bubblewrap where
  arity : String → Option ℕ
  mountOf : CliOption → Option (Mount String)
  shows : List CliOption → Path → Option (Seen String)

/-- The devices of the host that stand in a `/dev` of the sandbox. -/
def sharedDevices : List String := ["null", "zero", "full", "random", "urandom", "tty"]

/-- Of the host a mount shows devices only, under their names. -/
def SharesDevices (mount : Mount String) : Prop :=
  ∀ names target writable, mount.seen names = .host target writable →
    ∃ device ∈ sharedDevices, names = [device] ∧ target = ["dev", device]

/-- The sandbox does what is documented of these options, on paths that have no links in them. -/
structure Documented (bwrap : Bubblewrap) : Prop where
  arity : ∀ entry ∈ optionArities, bwrap.arity entry.1 = some entry.2
  roBind : ∀ source point, bwrap.mountOf ⟨"--ro-bind", [source, point]⟩ =
    some (.bind (resolve [] source) (resolve [] point) false)
  bind : ∀ source point, bwrap.mountOf ⟨"--bind", [source, point]⟩ =
    some (.bind (resolve [] source) (resolve [] point) true)
  proc : ∀ point, bwrap.mountOf ⟨"--proc", [point]⟩ = some (.fresh (resolve [] point))
  tmpfs : ∀ point, bwrap.mountOf ⟨"--tmpfs", [point]⟩ = some (.fresh (resolve [] point))
  dev : ∀ point, ∃ mount, bwrap.mountOf ⟨"--dev", [point]⟩ = some mount ∧
    mount.point = resolve [] point ∧ SharesDevices mount
  others : ∀ entry ∈ optionArities, entry.1 ∉ mountOptions →
    ∀ arguments, bwrap.mountOf ⟨entry.1, arguments⟩ = none
  laid : Mounts.Laid bwrap.mountOf bwrap.shows

/-- The binds that can be written, each with its place in the sandbox and its source: the
workspace and `writable_binds`. -/
def bindsOf (config : SandboxConfig) (cwd : Directory) (ws : Path) : List (Path × Path) :=
  (ws, ws) :: config.writableBinds.map fun bind => (resolve [] bind.1, resolve cwd.path bind.2)

/-- What the file of a masked path is replaced by. -/
def devNull : Path := ["dev", "null"]

/-- The path leads to a device that the sandbox shares with the host. -/
def IsDevice (target : Path) : Prop := ∃ device ∈ sharedDevices, ["dev", device] <+: target

/-- The sandbox that options ask for: what it shares with the host, what stands in its
environment, and what its mounts show. -/
structure Confined (bwrap : Bubblewrap) (config : SandboxConfig) (cwd : Directory)
    (workspace : String) (options : List CliOption) : Prop where
  /-- The network is shared only where it is configured. -/
  unshared : ⟨"--unshare-all", []⟩ ∈ options
  shared : (∃ option ∈ options, option.name = "--share-net") ↔ config.network = true
  /-- The environment has got these two variables. -/
  environment :
    let ws := showPath (resolve cwd.path workspace)
    (options.filter fun option => option.name = "--clearenv" ∨ option.name = "--setenv") =
      [⟨"--clearenv", []⟩, ⟨"--setenv", ["HOME", ws]⟩,
        ⟨"--setenv", ["PATH", ws ++ "/.local/bin:/usr/local/bin:/usr/bin:/bin"]⟩]
  /-- Every place shows something. -/
  seen : ∀ place, (bwrap.shows options place).isSome
  /-- Below a masked path nothing of the host is seen but its `/dev/null`. -/
  masked : ∀ raw ∈ config.maskPaths, ∀ place target writable, resolve cwd.path raw <+: place →
    bwrap.shows options place = some (.host target writable) → devNull <+: target
  /-- What can be written of the host is a device, or in the workspace or the source of a bind. -/
  written : ∀ place target, bwrap.shows options place = some (.host target true) →
    IsDevice target ∨ ∃ bind ∈ bindsOf config cwd (resolve cwd.path workspace),
      ∃ names, place = bind.1 ++ names ∧ target = bind.2 ++ names
  /-- What can only be read of the host stands in its own place. -/
  read : ∀ place target, bwrap.shows options place = some (.host target false) → target = place
  /-- Where every bind stands in the place of its source, nothing masked is seen from anywhere. -/
  hidden : (∀ bind ∈ config.writableBinds, resolve [] bind.1 = resolve cwd.path bind.2) →
    ∀ raw ∈ config.maskPaths, ∀ place target writable, resolve cwd.path raw <+: target →
      bwrap.shows options place = some (.host target writable) → devNull <+: target

variable {bwrap : Bubblewrap} {config : SandboxConfig} {cwd : Directory} {t t' : Tree}
  {workspace : String}

/-- The options of the binds, one for each. -/
theorem bindOptions_eq {pairs : List (String × String)} {binds : List CliOption}
    (h : bindOptions cwd t pairs = (.ok binds, t')) :
    binds = pairs.map fun pair => ⟨"--bind", [showPath (resolve cwd.path pair.2), pair.1]⟩ := by
  induction pairs generalizing t binds with
  | nil =>
      cases h
      rfl
  | cons pair pairs ih =>
      obtain ⟨guest, host⟩ := pair
      rw [bindOptions, resolved] at h
      split_ifs at h
      · cases h
      · dsimp only at h
        cases hmade : Filesystem.mkdir t (resolve cwd.path host) with
        | error error =>
            rw [hmade] at h
            cases h
        | ok made =>
            rw [hmade] at h
            dsimp only at h
            generalize hrest : bindOptions cwd made pairs = result at h
            obtain ⟨rest, t''⟩ := result
            cases rest with
            | error error => cases h
            | ok rest =>
                obtain ⟨hbinds, rfl⟩ := Prod.mk.inj h
                rw [← Except.ok.inj hbinds, ih hrest]
                rfl

theorem maskOptions_eq {paths : List String} {masks : List CliOption}
    (h : maskOptions cwd t paths = .ok masks) :
    masks = paths.map fun raw => maskOption t (resolve cwd.path raw) := by
  induction paths generalizing masks with
  | nil =>
      cases h
      rfl
  | cons raw paths ih =>
      rw [maskOptions, resolved] at h
      split_ifs at h
      · cases h
      · cases hrest : maskOptions cwd t paths with
        | error error =>
            rw [hrest] at h
            cases h
        | ok rest =>
            rw [hrest] at h
            cases h
            rw [ih hrest]
            rfl

/-- The options of the command line. -/
def jailOptions (config : SandboxConfig) (cwd : Directory) (t : Tree) (workspace : String) :
    List CliOption :=
  let ws := showPath (resolve cwd.path workspace)
  fixedOptions config ws ++
    (config.writableBinds.map fun pair =>
      ⟨"--bind", [showPath (resolve cwd.path pair.2), pair.1]⟩) ++
    (config.maskPaths.map fun raw => maskOption t (resolve cwd.path raw)) ++ [⟨"--chdir", [ws]⟩]

/-- The command line is made of the options, and the command is its last word. -/
theorem buildArgv_eq {command : String} {argv : List String}
    (h : buildArgv config cwd t command workspace = (.ok argv, t')) :
    argv = "bwrap" :: (CommandLine.render (jailOptions config cwd t' workspace) ++
      "--" :: ["/bin/sh", "-c", command]) := by
  unfold buildArgv resolved at h
  split_ifs at h
  · cases h
  · dsimp only at h
    generalize hbinds : bindOptions cwd t config.writableBinds = result at h
    obtain ⟨binds, t''⟩ := result
    cases binds with
    | error error => cases h
    | ok binds =>
        dsimp only at h
        cases hmasks : maskOptions cwd t'' config.maskPaths with
        | error error =>
            rw [hmasks] at h
            cases h
        | ok masks =>
            rw [hmasks] at h
            obtain ⟨hargv, rfl⟩ := Prod.mk.inj h
            rw [← Except.ok.inj hargv, bindOptions_eq hbinds, maskOptions_eq hmasks]
            rfl

theorem known_of_mem (hbwrap : Documented bwrap) {option : CliOption}
    (h : (option.name, option.arguments.length) ∈ optionArities) : option.Known bwrap.arity := by
  refine ⟨hbwrap.arity _ h, ?_, ?_⟩
  · have hlooks : ∀ entry ∈ optionArities, ['-', '-'] <+: entry.1.toList := by decide +kernel
    exact hlooks _ h
  · have hother : ∀ entry ∈ optionArities, entry.1 ≠ "--" := by decide +kernel
    exact hother _ h

/-- Behind the fixed options nothing but mounts is asked for, and the directory to start in. -/
theorem exists_jailOptions (config : SandboxConfig) (cwd : Directory) (t : Tree)
    (workspace : String) :
    ∃ others, jailOptions config cwd t workspace =
        fixedOptions config (showPath (resolve cwd.path workspace)) ++ others ∧
      ∀ option ∈ others, option.name = "--bind" ∨ option.name = "--tmpfs" ∨
        option.name = "--chdir" := by
  refine ⟨_, by rw [jailOptions, List.append_assoc, List.append_assoc], ?_⟩
  simp only [List.forall_mem_append, List.forall_mem_map, List.forall_mem_singleton]
  refine ⟨fun pair _ => .inl trivial, fun raw _ => ?_, .inr (.inr trivial)⟩
  unfold maskOption
  split_ifs
  · exact .inr (.inl rfl)
  · exact .inl rfl

theorem mem_optionArities_of_fixed {ws : String} :
    ∀ option ∈ fixedOptions config ws,
      (option.name, option.arguments.length) ∈ optionArities := by
  unfold fixedOptions
  cases config.network <;> simp [optionArities]

theorem known_jailOptions (hbwrap : Documented bwrap) :
    ∀ option ∈ jailOptions config cwd t workspace, option.Known bwrap.arity := by
  intro option hmem
  apply known_of_mem hbwrap
  unfold jailOptions fixedOptions at hmem
  rcases List.mem_append.1 hmem with hmem | hmem
  · rcases List.mem_append.1 hmem with hmem | hmem
    · rcases List.mem_append.1 hmem with hmem | hmem
      · exact mem_optionArities_of_fixed option hmem
      · obtain ⟨pair, -, rfl⟩ := List.mem_map.1 hmem
        simp [optionArities]
    · obtain ⟨raw, -, rfl⟩ := List.mem_map.1 hmem
      unfold maskOption
      split_ifs <;> simp [optionArities]
  · rw [List.mem_singleton.1 hmem]
    simp [optionArities]

/-- The mounts that do not depend on the configured paths. -/
def systemMounts (dev : Mount String) : List (Mount String) :=
  [.bind [] [] false, .fresh ["proc"], dev, .fresh ["tmp"]]

/-- What is mounted over a masked path. -/
def maskMount (t : Tree) (path : Path) : Mount String :=
  if isDir t path then .fresh path else .bind devNull path true

/-- The mounts of the sandbox in their order. -/
def mountsOf (dev : Mount String) (config : SandboxConfig) (cwd : Directory) (t : Tree)
    (workspace : String) : List (Mount String) :=
  systemMounts dev ++
    ((bindsOf config cwd (resolve cwd.path workspace)).map fun bind => .bind bind.2 bind.1 true) ++
    config.maskPaths.map fun raw => maskMount t (resolve cwd.path raw)

/-- The other options of the sandbox mount nothing. -/
theorem filterMap_mountOf (hbwrap : Documented bwrap) {options : List CliOption}
    (h : ∀ option ∈ options, (option.name, option.arguments.length) ∈ optionArities) :
    options.filterMap bwrap.mountOf =
      (options.filter fun option => option.name ∈ mountOptions).filterMap bwrap.mountOf := by
  rw [List.filterMap_filter]
  apply List.filterMap_congr
  intro option hmem
  split_ifs with hname
  · rfl
  · exact hbwrap.others _ (h option hmem) (by simpa using hname) option.arguments

theorem mountOf_maskOption (hbwrap : Documented bwrap) {path : Path}
    (h : ∀ name ∈ path, IsName name) :
    bwrap.mountOf (maskOption t path) = some (maskMount t path) := by
  unfold maskOption maskMount
  split_ifs
  · rw [hbwrap.tmpfs, resolve_showPath h]
  · have hnull : resolve [] "/dev/null" = devNull := by decide +kernel
    rw [hbwrap.bind, resolve_showPath h, hnull]

theorem mounts_fixedOptions (hbwrap : Documented bwrap) {path : Path}
    (h : ∀ name ∈ path, IsName name) {dev : Mount String}
    (hdev : bwrap.mountOf ⟨"--dev", ["/dev"]⟩ = some dev) :
    (fixedOptions config (showPath path)).filterMap bwrap.mountOf =
      systemMounts dev ++ [.bind path path true] := by
  have hroot : resolve [] "/" = [] := by decide +kernel
  have hproc : resolve [] "/proc" = ["proc"] := by decide +kernel
  have htmp : resolve [] "/tmp" = ["tmp"] := by decide +kernel
  have hmounts : (fixedOptions config (showPath path)).filterMap bwrap.mountOf =
      [.bind (resolve [] "/") (resolve [] "/") false, .fresh (resolve [] "/proc"), dev,
        .fresh (resolve [] "/tmp"),
        .bind (resolve [] (showPath path)) (resolve [] (showPath path)) true] := by
    have hkept : (fixedOptions config (showPath path)).filter
        (fun option => option.name ∈ mountOptions) =
          [⟨"--ro-bind", ["/", "/"]⟩, ⟨"--proc", ["/proc"]⟩, ⟨"--dev", ["/dev"]⟩,
            ⟨"--tmpfs", ["/tmp"]⟩, ⟨"--bind", [showPath path, showPath path]⟩] := by
      unfold fixedOptions
      cases config.network <;> rfl
    rw [filterMap_mountOf hbwrap mem_optionArities_of_fixed, hkept]
    simp [hbwrap.roBind, hbwrap.bind, hbwrap.proc, hbwrap.tmpfs, hdev]
  rw [hmounts, hroot, hproc, htmp, resolve_showPath h]
  rfl

/-- The mounts that the options ask for. -/
theorem mounts_jailOptions (hbwrap : Documented bwrap) {dev : Mount String}
    (hdev : bwrap.mountOf ⟨"--dev", ["/dev"]⟩ = some dev) :
    (jailOptions config cwd t workspace).filterMap bwrap.mountOf =
      mountsOf dev config cwd t workspace := by
  have hws := isName_resolve cwd.names workspace
  have hbinds : (config.writableBinds.map fun pair =>
      (⟨"--bind", [showPath (resolve cwd.path pair.2), pair.1]⟩ : CliOption)).filterMap
        bwrap.mountOf = config.writableBinds.map fun pair =>
          .bind (resolve cwd.path pair.2) (resolve [] pair.1) true := by
    rw [List.filterMap_map, ← List.filterMap_eq_map]
    apply List.filterMap_congr
    intro pair _
    rw [Function.comp_apply, hbwrap.bind, resolve_showPath (isName_resolve cwd.names pair.2)]
    rfl
  have hmasks : (config.maskPaths.map fun raw =>
      maskOption t (resolve cwd.path raw)).filterMap bwrap.mountOf =
        config.maskPaths.map fun raw => maskMount t (resolve cwd.path raw) := by
    rw [List.filterMap_map, ← List.filterMap_eq_map]
    apply List.filterMap_congr
    intro raw _
    rw [Function.comp_apply, mountOf_maskOption hbwrap (isName_resolve cwd.names raw)]
    rfl
  have hchdir : [(⟨"--chdir", [showPath (resolve cwd.path workspace)]⟩ : CliOption)].filterMap
      bwrap.mountOf = [] :=
    List.filterMap_cons_none
      (hbwrap.others ("--chdir", 1) (by simp [optionArities]) (by simp [mountOptions]) _)
  unfold jailOptions mountsOf bindsOf
  rw [List.filterMap_append, List.filterMap_append, List.filterMap_append, hbinds, hmasks,
    mounts_fixedOptions hbwrap hws hdev, hchdir, List.append_nil, List.map_cons, List.map_map,
    List.append_assoc (systemMounts dev)]
  rfl

section Views

open Mounts (view exists_of_view view_append)

variable {dev : Mount String}

/-- What is seen is what the last mount above the place shows: a mask, else a bind, else one of
the first four. -/
theorem view_cases (hpoint : dev.point = ["dev"]) (hdev : SharesDevices dev) {place target : Path}
    {writable : Bool}
    (h : view (mountsOf dev config cwd t workspace) place = some (.host target writable)) :
    (devNull <+: target ∧ writable = true) ∨
    (∃ bind ∈ bindsOf config cwd (resolve cwd.path workspace), ∃ names,
      place = bind.1 ++ names ∧ target = bind.2 ++ names ∧ writable = true) ∨
    (target = place ∧ (writable = false ∨ IsDevice target)) := by
  obtain ⟨earlier, mount, later, names, hmounts, hplace, hseen, -⟩ := exists_of_view h
  have hmem : mount ∈ mountsOf dev config cwd t workspace := by simp [hmounts]
  unfold mountsOf at hmem
  rcases List.mem_append.1 hmem with hmem | hmem
  · rcases List.mem_append.1 hmem with hmem | hmem
    · right
      right
      simp only [systemMounts, List.mem_cons, List.not_mem_nil, or_false] at hmem
      rcases hmem with rfl | rfl | rfl | rfl
      · cases hseen
        exact ⟨hplace.symm, .inl rfl⟩
      · cases hseen
      · obtain ⟨device, hmem, rfl, rfl⟩ := hdev _ _ _ hseen.symm
        exact ⟨by rw [hplace, hpoint]; rfl, .inr ⟨device, hmem, List.prefix_rfl⟩⟩
      · cases hseen
    · obtain ⟨bind, hbind, rfl⟩ := List.mem_map.1 hmem
      cases hseen
      exact .inr (.inl ⟨bind, hbind, names, hplace, rfl, rfl⟩)
  · obtain ⟨raw, -, rfl⟩ := List.mem_map.1 hmem
    unfold maskMount at hseen
    split_ifs at hseen
    · cases hseen
    · cases hseen
      exact .inl ⟨List.prefix_append _ _, rfl⟩

/-- A masked place shows what a mask shows. -/
theorem view_masked {raw : String} (hraw : raw ∈ config.maskPaths) {place target : Path}
    {writable : Bool} (hbelow : resolve cwd.path raw <+: place)
    (h : view (mountsOf dev config cwd t workspace) place = some (.host target writable)) :
    devNull <+: target := by
  have hcovers : (maskMount t (resolve cwd.path raw)).Covers place := by
    unfold maskMount
    split_ifs <;> exact hbelow
  have hmem : maskMount t (resolve cwd.path raw) ∈
      config.maskPaths.map fun raw => maskMount t (resolve cwd.path raw) :=
    List.mem_map_of_mem hraw
  have hsome := Mounts.isSome_view hmem hcovers
  obtain ⟨seen, hseen⟩ := Option.isSome_iff_exists.1 hsome
  rw [mountsOf, view_append, hseen, Option.some_or] at h
  obtain ⟨earlier, mount, later, names, hmounts, -, hmount, -⟩ := exists_of_view hseen
  have hmem : mount ∈ config.maskPaths.map fun raw => maskMount t (resolve cwd.path raw) := by
    simp [hmounts]
  obtain ⟨other, -, rfl⟩ := List.mem_map.1 hmem
  rw [Option.some.inj h] at hmount
  unfold maskMount at hmount
  split_ifs at hmount
  · cases hmount
  · cases hmount
    exact List.prefix_append _ _

/-- The root shows at least the host. -/
theorem isSome_view_mountsOf (place : Path) :
    (view (mountsOf dev config cwd t workspace) place).isSome := by
  have hroot : Mount.bind [] [] false ∈ mountsOf dev config cwd t workspace := by
    simp [mountsOf, systemMounts]
  exact Mounts.isSome_view hroot List.nil_prefix

/-- The places of the sandbox show what its mounts show. -/
theorem exists_shows (hbwrap : Documented bwrap) (config : SandboxConfig) (cwd : Directory)
    (t : Tree) (workspace : String) :
    ∃ dev : Mount String, dev.point = ["dev"] ∧ SharesDevices dev ∧
      ∀ place, bwrap.shows (jailOptions config cwd t workspace) place =
        view (mountsOf dev config cwd t workspace) place := by
  obtain ⟨dev, hdev, hpoint, hshares⟩ := hbwrap.dev "/dev"
  refine ⟨dev, hpoint.trans (by decide +kernel), hshares, fun place => ?_⟩
  rw [hbwrap.laid.eq_view, mounts_jailOptions hbwrap hdev]

/-- The network is shared only by the option that the configuration asks for. -/
theorem shared_jailOptions (config : SandboxConfig) (cwd : Directory) (t : Tree)
    (workspace : String) :
    (∃ option ∈ jailOptions config cwd t workspace, option.name = "--share-net") ↔
      config.network = true := by
  obtain ⟨others, hsplit, hothers⟩ := exists_jailOptions config cwd t workspace
  have hnone : ¬ ∃ option ∈ others, option.name = "--share-net" := by
    rintro ⟨option, hmem, hname⟩
    have hother := hothers option hmem
    rw [hname] at hother
    revert hother
    decide
  have hfixed : (∃ option ∈ fixedOptions config (showPath (resolve cwd.path workspace)),
      option.name = "--share-net") ↔ config.network = true := by
    unfold fixedOptions
    cases config.network <;> simp
  simp only [hsplit, List.mem_append, or_and_right, exists_or, hfixed, or_iff_left hnone]

/-- Two variables are set after the environment was cleared, and nothing else touches it. -/
theorem environment_jailOptions (config : SandboxConfig) (cwd : Directory) (t : Tree)
    (workspace : String) :
    let ws := showPath (resolve cwd.path workspace)
    ((jailOptions config cwd t workspace).filter fun option =>
      option.name = "--clearenv" ∨ option.name = "--setenv") =
        [⟨"--clearenv", []⟩, ⟨"--setenv", ["HOME", ws]⟩,
          ⟨"--setenv", ["PATH", ws ++ "/.local/bin:/usr/local/bin:/usr/bin:/bin"]⟩] := by
  obtain ⟨others, hsplit, hothers⟩ := exists_jailOptions config cwd t workspace
  have hnone : (others.filter fun option => option.name = "--clearenv" ∨
      option.name = "--setenv") = [] := by
    rw [List.filter_eq_nil_iff]
    intro option hmem
    have hother := hothers option hmem
    rcases hother with hname | hname | hname <;> simp [hname]
  dsimp only
  rw [hsplit, List.filter_append, hnone, List.append_nil, fixedOptions]
  cases config.network <;> simp

/-- The command line of a call jails its command. -/
theorem confined_jailOptions (hbwrap : Documented bwrap) (config : SandboxConfig) (cwd : Directory)
    (t : Tree) (workspace : String) :
    Confined bwrap config cwd workspace (jailOptions config cwd t workspace) := by
  obtain ⟨dev, hpoint, hdev, hshows⟩ := exists_shows hbwrap config cwd t workspace
  constructor
  case unshared => simp [jailOptions, fixedOptions]
  case shared => exact shared_jailOptions config cwd t workspace
  case environment => exact environment_jailOptions config cwd t workspace
  case seen =>
    intro place
    rw [hshows]
    exact isSome_view_mountsOf place
  case masked =>
    intro raw hraw place target writable hbelow h
    rw [hshows] at h
    exact view_masked hraw hbelow h
  case written =>
    intro place target h
    rw [hshows] at h
    rcases view_cases hpoint hdev h with
      ⟨hnull, -⟩ | ⟨bind, hbind, names, hplace, htarget, -⟩ | ⟨-, hfalse | hdevice⟩
    · exact .inl ⟨"null", by simp [sharedDevices], hnull⟩
    · exact .inr ⟨bind, hbind, names, hplace, htarget⟩
    · cases hfalse
    · exact .inl hdevice
  case read =>
    intro place target h
    rw [hshows] at h
    rcases view_cases hpoint hdev h with
      ⟨-, hfalse⟩ | ⟨_, _, _, _, _, hfalse⟩ | ⟨htarget, -⟩
    · cases hfalse
    · cases hfalse
    · exact htarget
  case hidden =>
    intro hplaces raw hraw place target writable hbelow h
    rw [hshows] at h
    rcases view_cases hpoint hdev h with
      ⟨hnull, -⟩ | ⟨bind, hbind, names, hplace, htarget, -⟩ | ⟨htarget, -⟩
    · exact hnull
    · have hsame : bind.1 = bind.2 := by
        rcases List.mem_cons.1 hbind with rfl | hbind
        · rfl
        · obtain ⟨pair, hpair, rfl⟩ := List.mem_map.1 hbind
          exact hplaces pair hpair
      have hplace : place = target := by rw [hplace, htarget, hsame]
      exact view_masked hraw (hplace ▸ hbelow) h
    · exact view_masked hraw (htarget ▸ hbelow) h

end Views

/-- A process that a call may start: its command is not refused, its time is bounded, and its
words are read in one way, as a sandbox around the command. -/
structure Jailed (bwrap : Bubblewrap) (tool : ShellTool) (cwd : Directory) (args : Args)
    (workspace : String) (process : ShellTool.Spawn) : Prop where
  command : tool.commandOf args ≠ ""
  allowed : ∀ pattern ∈ tool.denied, pattern.2 (tool.commandOf args) = false
  timeout : process.timeout ≤ max 1 tool.config.timeoutSeconds
  readable : ∃ words options, process.argv = "bwrap" :: words ∧
    (∀ options' command', CommandLine.Reads bwrap.arity words options' command' ↔
      options' = options ∧ command' = ["/bin/sh", "-c", tool.commandOf args]) ∧
    Confined bwrap tool.config cwd workspace options

variable {tool : ShellTool} {args : Args} {process : ShellTool.Spawn}

theorem timeoutOf_le {timeout : Int} (h : tool.timeoutOf args = .ok timeout) :
    timeout ≤ max 1 tool.config.timeoutSeconds := by
  unfold ShellTool.timeoutOf at h
  split at h
  · cases h
    exact le_max_right _ _
  · split at h
    · cases h
      exact max_le_max_left 1 (min_le_right _ _)
    · cases h

/-- Where a process is started, the checks have passed. -/
theorem request_eq_ok (h : tool.request cwd t args workspace = (.ok process, t')) :
    tool.commandOf args ≠ "" ∧ (∀ pattern ∈ tool.denied, pattern.2 (tool.commandOf args) = false) ∧
      tool.timeoutOf args = .ok process.timeout ∧
      buildArgv tool.config cwd t (tool.commandOf args) workspace = (.ok process.argv, t') := by
  unfold ShellTool.request at h
  dsimp only at h
  split_ifs at h with hempty
  · cases h
  · split at h
    · cases h
    · next hdenied =>
        have hallowed : ∀ pattern ∈ tool.denied, pattern.2 (tool.commandOf args) = false := by
          intro pattern hmem
          simpa using List.find?_eq_none.1 hdenied pattern hmem
        split at h
        · cases h
        · next timeout htimeout =>
            split at h
            · cases h
            · next argv t'' hargv =>
                split_ifs at h
                · cases h
                · obtain ⟨hprocess, rfl⟩ := Prod.mk.inj h
                  obtain rfl := Except.ok.inj hprocess
                  exact ⟨hempty, hallowed, htimeout, hargv⟩

/-- Whatever the arguments, the configuration and the files are: a call starts nothing but a
jailed process. -/
theorem request_jailed (hbwrap : Documented bwrap)
    (h : tool.request cwd t args workspace = (.ok process, t')) :
    Jailed bwrap tool cwd args workspace process := by
  obtain ⟨hcommand, hallowed, htimeout, hargv⟩ := request_eq_ok h
  refine ⟨hcommand, hallowed, timeoutOf_le htimeout, _, jailOptions tool.config cwd t' workspace,
    buildArgv_eq hargv, fun options' command' => ?_, confined_jailOptions hbwrap _ _ _ _⟩
  have hknown : ∀ option ∈ jailOptions tool.config cwd t' workspace, option.Known bwrap.arity :=
    known_jailOptions hbwrap
  have hread := CommandLine.reads_render hknown ["/bin/sh", "-c", tool.commandOf args]
  constructor
  · exact fun hother => hother.unique hread
  · rintro ⟨rfl, rfl⟩
    exact hread

/-- A tool with a bind and a masked file. -/
def maskingTool : ShellTool where
  config := ⟨120, 4, false, [("/usr/local", "/opt/local")], ["/srv/.env"], ["sudo"]⟩
  py := ⟨id, fun _ => true, fun _ => "'sudo'"⟩
  toInt
    | .int n => .ok n
    | _ => .error "int() argument"
  replace _ := ""
  denied := [("sudo", fun command => decide ("sudo".toList <:+: command.toList))]

/-- The files of its host. -/
def maskedFiles : Tree := .node [("srv", .node [(".env", .leaf [])])]

/-- The directory `/srv`. -/
def srv : Directory where
  path := ["srv"]
  names := by
    rw [List.forall_mem_singleton]
    exact ⟨by decide, by decide, by decide, by decide⟩

/-- A `/dev` with the devices of the host. -/
def devMount (point : Path) : Mount String where
  point := point
  seen
    | [device] => if device ∈ sharedDevices then .host ["dev", device] true else .own
    | _ => .own

/-- The mount of an option, from its arguments. -/
def mountOf (option : CliOption) : Option (Mount String) :=
  match option.arguments with
  | [source, point] =>
      if option.name = "--ro-bind" then
        some (.bind (resolve [] source) (resolve [] point) false)
      else if option.name = "--bind" then
        some (.bind (resolve [] source) (resolve [] point) true)
      else none
  | [point] =>
      if option.name = "--proc" ∨ option.name = "--tmpfs" then
        some (.fresh (resolve [] point))
      else if option.name = "--dev" then some (devMount (resolve [] point))
      else none
  | _ => none

/-- A sandbox that knows these options only. -/
def plainBwrap : Bubblewrap where
  arity name := (optionArities.find? fun entry => entry.1 = name).map Prod.snd
  mountOf := mountOf
  shows options := Mounts.view (options.filterMap mountOf)

theorem sharesDevices_devMount (point : Path) : SharesDevices (devMount point) := by
  intro names target writable h
  match names with
  | [] => cases h
  | [device] =>
      change (if device ∈ sharedDevices then Seen.host ["dev", device] true else .own) = _ at h
      split_ifs at h with hdevice
      cases h
      exact ⟨device, hdevice, rfl, rfl⟩
  | _ :: _ :: _ => cases h

theorem documented_plainBwrap : Documented plainBwrap where
  arity := by decide +kernel
  roBind _ _ := rfl
  bind _ _ := rfl
  proc _ := rfl
  tmpfs _ := rfl
  dev point := ⟨devMount (resolve [] point), rfl, rfl, sharesDevices_devMount _⟩
  others entry hmem hname arguments := by
    simp only [mountOptions, List.mem_cons, List.not_mem_nil, or_false, not_or] at hname
    obtain ⟨hro, hbind, hproc, hdev, htmpfs⟩ := hname
    change mountOf ⟨entry.1, arguments⟩ = none
    unfold mountOf
    split <;> simp [hro, hbind, hproc, hdev, htmpfs]
  laid := Mounts.laid_view mountOf

/-- A command made of options of the sandbox is started as a command. -/
theorem request_jailed_masked :
    let args : Args := [("command", .str " ls -- --bind / / "), ("timeout_seconds", .int 900)]
    ∃ process t', maskingTool.request srv maskedFiles args "work" = (.ok process, t') ∧
      Jailed plainBwrap maskingTool srv args "work" process := by
  intro args
  have hok : (maskingTool.request srv maskedFiles args "work").1.toBool = true := by
    decide +kernel
  cases hrequest : maskingTool.request srv maskedFiles args "work" with
  | mk result t' =>
      cases result with
      | error error =>
          rw [hrequest] at hok
          cases hok
      | ok process => exact ⟨process, t', rfl, request_jailed documented_plainBwrap hrequest⟩

end Jail

section Output

/-- What is returned of a text: the text, where it fits, and otherwise the longest front of whole
characters that does, with a note of the bytes that are too many. -/
inductive Shown (limit : Int) (text : String) : String → Prop
  | whole (fits : (Utf8.encode text.toList).length ≤ limit) : Shown limit text text
  | cut {front : List Char} {length : ℕ} (size : (Utf8.encode text.toList).length = length)
      (long : limit < length) (isFront : front <+: text.toList)
      (fits : (Utf8.encode front).length ≤ ShellTool.cutAt limit length)
      (longest : ∀ other, other <+: text.toList →
        (Utf8.encode other).length ≤ ShellTool.cutAt limit length → other <+: front) :
      Shown limit text
        (String.ofList front ++ "\n...[truncated " ++ toString (length - limit) ++ " bytes]")

variable {tool : ShellTool}

theorem shown_truncate (text : String) :
    Shown tool.config.maxOutputBytes text (tool.truncate text) := by
  unfold ShellTool.truncate
  dsimp only
  split_ifs with hfits
  · exact .whole hfits
  · rw [Utf8.decodeIgnore_take]
    exact .cut rfl (not_le.1 hfits) (Utf8.fitting_prefix _ _) (Utf8.length_fitting_le _ _)
      fun other hother hlength => Utf8.prefix_fitting hother hlength

/-- What a call has returned comes of one process, and of its two outputs it is the longest
fronts within the limit. -/
def Answered (tool : ShellTool)
    (spawn : ShellTool.Spawn → Tree → Except Error ShellTool.Finished × Tree) (cwd : Directory)
    (t t' : Tree) (args : Args) (workspace : String) (result : Args) : Prop :=
  ∃ process t₁ finished out err,
    tool.request cwd t args workspace = (.ok process, t₁) ∧
    spawn process t₁ = (.ok finished, t') ∧
    result = [("stdout", .str out), ("stderr", .str err),
      ("exit_code", .int (if finished.timedOut then -1 else finished.returncode.getD 0))] ∧
    Shown tool.config.maxOutputBytes (Voice.decode tool.replace finished.stdout) out ∧
    Shown tool.config.maxOutputBytes
      ((if finished.timedOut then
        "command timed out after " ++ toString process.timeout ++ "s\n" else "") ++
          Voice.decode tool.replace finished.stderr) err

theorem execute_shown {spawn : ShellTool.Spawn → Tree → Except Error ShellTool.Finished × Tree}
    {cwd : Directory} {t t' : Tree} {args result : Args} {workspace : String}
    (h : tool.execute spawn cwd t args workspace = (.ok result, t')) :
    Answered tool spawn cwd t t' args workspace result := by
  unfold ShellTool.execute at h
  unfold Answered
  generalize tool.request cwd t args workspace = asked at h ⊢
  obtain ⟨asked, t₁⟩ := asked
  cases asked with
  | error error => cases h
  | ok process =>
      dsimp only at h
      generalize hspawn : spawn process t₁ = ended at h
      obtain ⟨ended, t₂⟩ := ended
      cases ended with
      | error error => cases h
      | ok finished =>
          obtain ⟨hresult, rfl⟩ := Prod.mk.inj h
          refine ⟨process, t₁, finished, _, _, rfl, hspawn, (Except.ok.inj hresult).symm.trans ?_,
            shown_truncate _, shown_truncate _⟩
          cases htimed : finished.timedOut <;>
            simp [ShellTool.answer, ShellTool.execResult, htimed]

/-- The output is cut inside its last character. -/
theorem execute_shown_cut :
    let args : Args := [("command", .str "echo aéé")]
    let spawn : ShellTool.Spawn → Tree → Except Error ShellTool.Finished × Tree := fun _ t =>
      (.ok ⟨[97, 195, 169, 195, 169], [], some 0, false⟩, t)
    ∃ result t', maskingTool.execute spawn srv maskedFiles args "work" = (.ok result, t') ∧
      Answered maskingTool spawn srv maskedFiles t' args "work" result := by
  intro args spawn
  have hok : (maskingTool.execute spawn srv maskedFiles args "work").1.toBool = true := by
    decide +kernel
  cases hexecute : maskingTool.execute spawn srv maskedFiles args "work" with
  | mk result t' =>
      cases result with
      | error error =>
          rw [hexecute] at hok
          cases hok
      | ok result => exact ⟨result, t', rfl, execute_shown hexecute⟩

end Output

end GraphAgent.Shell
