import GraphAgent.Tools.Filesystem
import Mathlib.Logic.Function.Basic

/-!
# The workspace as a store of files

What the calls of the filesystem tool do to the contents of files alone: the tree with its
directories refines a map from paths to contents, in which a call writes, removes or relocates
contents or leaves them as they are. A text consists of characters here, so that it can always be
encoded: `write_text` of one with a lone surrogate would empty the file and then raise.
-/

namespace GraphAgent.Filesystem

section Store

/-- The contents of the files that there are. -/
abbrev Files := Path → Option (List UInt8)

/-- `text.encode()` -/
def encoded (text : String) : List UInt8 := text.toList.flatMap String.utf8EncodeChar

/-- Everything at the source goes to the target. -/
def Files.relocate (files : Files) (source target : Path) : Files := fun q =>
  if target <+: q then files (source ++ q.drop target.length)
  else if source <+: q then none
  else files q

/-- A file stands on the way to a directory, or in its place. -/
def Blocked (files : Files) (path : Path) : Prop := ∃ p, p <+: path ∧ (files p).isSome

/-- There is no file at a path or below it. -/
def Vacant (files : Files) (path : Path) : Prop := ∀ q, path <+: q → files q = none

/-- Why a command raises, as far as the files tell: whether there is a directory where there is
no file they do not. -/
inductive Refused (files : Files) : Command → Error → Prop
  | unreadable {path : Path} (errno : Errno) (missing : files path = none) :
      Refused files (.readFile path) (.osError errno path)
  | undecodable {path : Path} {bytes : List UInt8} (stored : files path = some bytes)
      (invalid : String.fromUTF8? bytes.toByteArray = none) :
      Refused files (.readFile path) .decodeError
  | writeBlocked {path q : Path} {content : Value} (errno : Errno)
      (blocked : Blocked files path.dropLast) :
      Refused files (.writeFile path content) (.osError errno q)
  | notText {path : Path} {content : Value} (other : ∀ text, content ≠ .str text) :
      Refused files (.writeFile path content) .typeError
  | overDirectory {path : Path} {text : String} (missing : files path = none) :
      Refused files (.writeFile path (.str text)) (.osError .isADirectory path)
  | unlisted {path : Path} (nothing : ∀ q, path <+: q → q ≠ path → files q = none) :
      Refused files (.listDir path) (.notADirectory path)
  | mkdirBlocked {path q : Path} (errno : Errno) (blocked : Blocked files path) :
      Refused files (.mkdir path) (.osError errno q)
  | moveBlocked {path destination q : Path} {name : Option String} (errno : Errno)
      (blocked : Blocked files destination.dropLast) :
      Refused files (.move path name destination) (.osError errno q)
  | unmoved {path destination : Path} {name : Option String} (errno : Errno)
      (missing : Vacant files path) :
      Refused files (.move path name destination) (.osError errno path)
  | taken {path destination : Path} {name : Option String} :
      Refused files (.move path name destination)
        (.destinationExists (destination ++ name.toList))
  | overFile {path destination : Path} {name : Option String} (missing : files path = none)
      (stored : (files destination).isSome) :
      Refused files (.move path name destination) (.osError .exists destination)
  | intoItself {path destination target : Path} {name : Option String}
      (arrives : target = destination ∨ target = destination ++ name.toList)
      (below : path <+: target) :
      Refused files (.move path name destination) (.intoItself path destination)
  | directory {path : Path} (missing : files path = none) :
      Refused files (.delete path) (.cannotDelete path)
  | undeleted {path : Path} (errno : Errno) (missing : files path = none) :
      Refused files (.delete path) (.osError errno path)

/-- What a call may do to the files, by what it returns or raises. -/
inductive FileStep (py : Python) (root : Path) (files : Files) (args : Args) :
    Except Error Value → Files → Prop
  | rejected {error : Error} (parsed : parse py root args = .error error) :
      FileStep py root files args (.error error) files
  | raised {command : Command} {error : Error} (parsed : parse py root args = .ok command)
      (refused : Refused files command error) : FileStep py root files args (.error error) files
  | read {path : Path} {bytes : List UInt8} {text : String}
      (parsed : parse py root args = .ok (.readFile path)) (stored : files path = some bytes)
      (decoded : String.fromUTF8? bytes.toByteArray = some text) :
      FileStep py root files args (.ok (.str (String.ofList (universalNewlines text.toList)))) files
  | listed {path : Path} {names : List String}
      (parsed : parse py root args = .ok (.listDir path))
      (shown : ∀ x rest, (files (path ++ x :: rest)).isSome → x ∈ names) :
      FileStep py root files args (.ok (.arr (names.map .str))) files
  | made {path : Path} (parsed : parse py root args = .ok (.mkdir path)) :
      FileStep py root files args (.ok .null) files
  | wrote {path : Path} {text : String}
      (parsed : parse py root args = .ok (.writeFile path (.str text))) :
      FileStep py root files args (.ok (.str (relativeText root path)))
        (Function.update files path (some (encoded text)))
  | deleted {path : Path} {bytes : List UInt8} (parsed : parse py root args = .ok (.delete path))
      (stored : files path = some bytes) :
      FileStep py root files args (.ok .null) (Function.update files path none)
  | stayed {path : Path} {name : Option String}
      (parsed : parse py root args = .ok (.move path name path)) :
      FileStep py root files args (.ok .null) files
  | moved {path destination target : Path} {name : Option String}
      (parsed : parse py root args = .ok (.move path name destination))
      (arrives : target = destination ∨ target = destination ++ name.toList)
      (outside : ¬ path <+: target)
      (vacant : ∀ q, target <+: q → q ≠ target → files q = none) :
      FileStep py root files args (.ok .null) (files.relocate path target)

/-- Calls on the files, one after the other. -/
inductive FileRun (py : Python) (root : Path) :
    Files → List Args → List (Except Error Value) → Files → Prop
  | nil (files : Files) : FileRun py root files [] [] files
  | cons {files next last : Files} {args : Args} {calls : List Args} {result : Except Error Value}
      {results : List (Except Error Value)} (step : FileStep py root files args result next)
      (rest : FileRun py root next calls results last) :
      FileRun py root files (args :: calls) (result :: results) last

/-- The files of a tree. -/
def filesOf (t : Tree) : Files := fun p => (t.get p).bind NamedTree.content

end Store

section Trees

variable {t s : Tree} {v : Option Tree} {d p q : Path} {x : String}

theorem filesOf_eq_join (t : Tree) (p : Path) : filesOf t p = (t.look p).join := by
  unfold filesOf NamedTree.look
  cases t.get p <;> rfl

theorem filesOf_append (h : t.get p = some s) (q : Path) : filesOf t (p ++ q) = filesOf s q := by
  unfold filesOf
  rw [NamedTree.get_append, h]
  rfl

/-- There is no file below anything that is not a directory. -/
theorem filesOf_below (h : ∀ c, t.get p = some c → c.isNode = false) (hq : q ≠ []) :
    filesOf t (p ++ q) = none := by
  by_contra hsome
  have hget : t.get (p ++ q) ≠ none := fun hnone => hsome (by rw [filesOf, hnone]; rfl)
  obtain ⟨c, hc, hnode⟩ := NamedTree.isNode_of_get_append hget hq
  rw [h c hc] at hnode
  cases hnode

/-- What is put below a directory is there, and everywhere else the files are as they were. -/
theorem filesOf_put (h : t.get d = some s) (hs : s.isNode = true) (q : Path) :
    filesOf (NamedTree.put v t (d ++ [x])) q =
      if d ++ [x] <+: q then v.bind fun c => filesOf c (q.drop (d ++ [x]).length)
      else filesOf t q := by
  split
  · next hbelow =>
      obtain ⟨rest, rfl⟩ := hbelow
      unfold filesOf
      rw [NamedTree.get_append, NamedTree.get_put_self h hs, List.drop_left, Option.bind_assoc]
  · next hbelow =>
      rw [filesOf_eq_join, filesOf_eq_join, NamedTree.look_put_of_outside (by simp) hbelow]

/-- A directory stays one when something is put that is not above it. -/
theorem isNode_get_put (h : t.get q = some s) (hs : s.isNode = true) (hp : p ≠ [])
    (hbelow : ¬ p <+: q) : ∃ c, (NamedTree.put v t p).get q = some c ∧ c.isNode = true := by
  have hlook := NamedTree.look_put_of_outside (v := v) (t := t) hp hbelow
  unfold NamedTree.look at hlook
  rw [h, Option.map_some] at hlook
  obtain ⟨c, hc, hcontent⟩ := Option.map_eq_some_iff.1 hlook
  refine ⟨c, hc, ?_⟩
  cases s with
  | leaf content => cases hs
  | node children =>
      cases c with
      | leaf content => cases hcontent
      | node children => rfl

/-- New directories are no files. -/
theorem mkdir_spec (ht : t.isNode = true) (h : mkdir t p = .ok s) :
    filesOf s = filesOf t ∧ s.isNode = true ∧ ∃ c, s.get p = some c ∧ c.isNode = true := by
  induction p using List.reverseRecOn generalizing s with
  | nil =>
      rw [mkdir_of_isNode rfl ht] at h
      obtain rfl := Except.ok.inj h
      exact ⟨rfl, ht, t, rfl, ht⟩
  | append_singleton p x ih =>
      rw [mkdir_concat] at h
      split at h
      · next children hget =>
          obtain rfl := Except.ok.inj h
          exact ⟨rfl, ht, _, hget, rfl⟩
      · cases h
      · next hnone =>
          split at h
          · cases h
          · generalize hmade : mkdir t p = made at h
            cases made with
            | error error => cases h
            | ok t' =>
                obtain rfl := Except.ok.inj h
                obtain ⟨hfiles, hnode, c, hc, hdir⟩ := ih hmade
                have hself := NamedTree.get_put_self (v := some (.node [])) (x := x) hc hdir
                refine ⟨?_, by rw [NamedTree.isNode_put (by simp)]; exact hnode, _, hself, rfl⟩
                funext q
                rw [filesOf_put hc hdir]
                split
                · next hbelow =>
                    obtain ⟨rest, rfl⟩ := hbelow
                    have hempty : filesOf (.node [] : Tree) rest = none := by cases rest <;> rfl
                    rw [List.drop_left, Option.bind_some, hempty, filesOf, NamedTree.get_append,
                      hnone]
                    rfl
                · rw [hfiles]

theorem filesOf_of_isNode (h : t.get p = some s) (hs : s.isNode = true) : filesOf t p = none := by
  unfold filesOf
  rw [h]
  cases s with
  | leaf content => cases hs
  | node children => rfl

theorem filesOf_of_none (h : t.get p = none) : filesOf t p = none := by rw [filesOf, h]; rfl

theorem vacant_of_none (h : t.get p = none) : Vacant (filesOf t) p := by
  rintro q ⟨rest, rfl⟩
  rw [filesOf, NamedTree.get_append, h]
  rfl

/-- Where a path leads through a file, there is one. -/
theorem blocked_of_errnoOf (h : errnoOf t p = .notADirectory) : Blocked (filesOf t) p := by
  induction p generalizing t with
  | nil => cases h
  | cons x p ih =>
      rw [errnoOf] at h
      split_ifs at h with hnode
      · split at h
        · next c hc =>
            obtain ⟨q, hq, hsome⟩ := ih h
            refine ⟨x :: q, List.cons_prefix_cons.2 ⟨rfl, hq⟩, ?_⟩
            rwa [filesOf, NamedTree.get_cons, hc]
        · cases h
      · refine ⟨[], List.nil_prefix, ?_⟩
        cases t with
        | leaf content => rfl
        | node children => exact absurd rfl hnode

/-- A directory is not made only where a file is in the way. -/
theorem mkdir_blocked {error : Error} (h : mkdir t p = .error error) :
    ∃ errno q, error = .osError errno q ∧ Blocked (filesOf t) p := by
  induction p using List.reverseRecOn generalizing error with
  | nil => cases h
  | append_singleton p x ih =>
      rw [mkdir_concat] at h
      split at h
      · cases h
      · next bytes hget =>
          obtain rfl := Except.error.inj h
          refine ⟨_, _, rfl, p ++ [x], List.prefix_rfl, ?_⟩
          rw [filesOf, hget]
          rfl
      · split at h
        · next herrno =>
            obtain rfl := Except.error.inj h
            exact ⟨_, _, rfl, blocked_of_errnoOf herrno⟩
        · generalize hmade : mkdir t p = made at h
          cases made with
          | ok t' => cases h
          | error error' =>
              obtain rfl := Except.error.inj h
              obtain ⟨errno, q, rfl, above, habove, hsome⟩ := ih hmade
              exact ⟨errno, q, rfl, above, habove.trans (List.prefix_append p [x]), hsome⟩

end Trees

section Steps

variable {t s : Tree} {path source target destination : Path}

theorem not_isNode_of_none (h : t.get path = none) : ∀ c, t.get path = some c → c.isNode = false :=
  fun _ hc => nomatch h.symm.trans hc

theorem not_isNode_of_ne (h : ∀ children, t.get path ≠ some (.node children)) :
    ∀ c, t.get path = some c → c.isNode = false := by
  intro c hc
  cases c with
  | leaf content => rfl
  | node children => exact absurd hc (h children)

theorem exists_concat (ht : t.isNode = true) (h : ∀ c, t.get path = some c → c.isNode = false) :
    ∃ d x, path = d ++ [x] := by
  rcases List.eq_nil_or_concat' path with rfl | ⟨d, x, rfl⟩
  · rw [h t rfl] at ht
    cases ht
  · exact ⟨d, x, rfl⟩

theorem update_of_below {files : Files} {c : Option (List UInt8)}
    (h : ∀ q, path <+: q → q ≠ path → files q = none) (q : Path) :
    Function.update files path c q =
      if path <+: q then if q = path then c else none else files q := by
  by_cases hq : q = path
  · subst hq
    simp
  · rw [Function.update_of_ne hq, if_neg hq]
    split
    · next hbelow => exact h q hbelow hq
    · rfl

theorem filesOf_below_leaf (h : ∀ c, t.get path = some c → c.isNode = false) (q : Path)
    (hbelow : path <+: q) (hq : q ≠ path) : filesOf t q = none := by
  obtain ⟨rest, rfl⟩ := hbelow
  exact filesOf_below h fun hnil => hq (by rw [hnil, List.append_nil])

theorem writeText_spec {text : String} (ht : t.isNode = true)
    (hparent : ∃ c, t.get path.dropLast = some c ∧ c.isNode = true)
    (h : writeText t path text = .ok s) :
    s.isNode = true ∧ filesOf s = Function.update (filesOf t) path (some (encoded text)) := by
  have hleaf : ∀ c, t.get path = some c → c.isNode = false := by
    intro c hc
    unfold writeText at h
    rw [hc] at h
    cases c with
    | leaf content => rfl
    | node children => cases h
  have hput : NamedTree.put (some (.leaf (encoded text))) t path = s := by
    unfold writeText at h
    split at h
    · cases h
    · exact Except.ok.inj h
  subst hput
  obtain ⟨d, x, rfl⟩ := exists_concat ht hleaf
  rw [List.dropLast_concat] at hparent
  obtain ⟨c, hc, hdir⟩ := hparent
  refine ⟨by rw [NamedTree.isNode_put (by simp)]; exact ht, ?_⟩
  funext q
  rw [filesOf_put hc hdir, update_of_below (filesOf_below_leaf hleaf)]
  split
  · next hbelow =>
      obtain ⟨rest, rfl⟩ := hbelow
      rw [List.drop_left, Option.bind_some]
      cases rest with
      | nil => simp [filesOf, NamedTree.content]
      | cons y rest =>
          rw [if_neg (by simp)]
          rfl
  · rfl

theorem unlink_spec (ht : t.isNode = true) (h : unlink t path = .ok s) :
    s.isNode = true ∧ (∃ bytes, filesOf t path = some bytes) ∧
      filesOf s = Function.update (filesOf t) path none := by
  unfold unlink at h
  split at h
  · cases h
  · next bytes hget =>
      have hleaf : ∀ c, t.get path = some c → c.isNode = false := by
        intro c hc
        rw [hget] at hc
        obtain rfl := Option.some.inj hc
        rfl
      obtain rfl := Except.ok.inj h
      obtain ⟨d, x, rfl⟩ := exists_concat ht hleaf
      obtain ⟨c, hc, hdir⟩ := NamedTree.isNode_of_get_append (t := t) (p := d) (q := [x])
        (by simp [hget]) (by simp)
      refine ⟨by rw [NamedTree.isNode_put (by simp)]; exact ht,
        ⟨bytes, by rw [filesOf, hget]; rfl⟩, ?_⟩
      funext q
      rw [filesOf_put hc hdir, update_of_below (filesOf_below_leaf hleaf)]
      split
      · simp
      · rfl
  · cases h

/-- Taking something away and putting it elsewhere relocates the files. -/
theorem relocate_spec {moved : Tree} (ht : t.isNode = true) (hmoved : t.get source = some moved)
    (hvacant : ∀ c, t.get target = some c → c.isNode = false)
    (hparent : ∃ c, t.get target.dropLast = some c ∧ c.isNode = true)
    (houtside : ¬ source <+: target) :
    (NamedTree.put (some moved) (NamedTree.put none t source) target).isNode = true ∧
      filesOf (NamedTree.put (some moved) (NamedTree.put none t source) target) =
        (filesOf t).relocate source target := by
  obtain ⟨d, x, rfl⟩ := exists_concat ht hvacant
  rw [List.dropLast_concat] at hparent
  obtain ⟨c, hc, hdir⟩ := hparent
  have hsource : source ≠ [] := fun hnil => houtside (hnil ▸ List.nil_prefix)
  obtain ⟨c', hc', hdir'⟩ := isNode_get_put (v := none) hc hdir hsource fun hbelow =>
    houtside (hbelow.trans (List.prefix_append d [x]))
  obtain ⟨e, y, rfl⟩ := (List.eq_nil_or_concat' source).resolve_left hsource
  obtain ⟨c'', hc'', hdir''⟩ := NamedTree.isNode_of_get_append (t := t) (p := e) (q := [y])
    (by simp [hmoved]) (by simp)
  refine ⟨?_, ?_⟩
  · rw [NamedTree.isNode_put (by simp), NamedTree.isNode_put (by simp)]
    exact ht
  · funext q
    rw [filesOf_put hc' hdir', filesOf_put hc'' hdir'', Files.relocate, Option.bind_some,
      filesOf_append hmoved, Option.bind_none]

/-- Nothing that a file is renamed to lies below it. -/
theorem not_prefix_of_leaf {bytes : List UInt8} (hmoved : t.get source = some (.leaf bytes))
    (hparent : ∃ c, t.get target.dropLast = some c ∧ c.isNode = true) (hne : source ≠ target) :
    ¬ source <+: target := by
  rintro ⟨rest, rfl⟩
  obtain ⟨c, hc, hdir⟩ := hparent
  rcases List.eq_nil_or_concat' rest with rfl | ⟨front, x, rfl⟩
  · exact hne (List.append_nil _).symm
  · rw [← List.append_assoc, List.dropLast_concat] at hc
    cases front with
    | nil =>
        rw [List.append_nil, hmoved] at hc
        obtain rfl := Option.some.inj hc
        cases hdir
    | cons y front =>
        obtain ⟨c', hc', hdir'⟩ := NamedTree.isNode_of_get_append (t := t) (p := source)
          (q := y :: front) (by simp [hc]) (by simp)
        rw [hmoved] at hc'
        obtain rfl := Option.some.inj hc'
        cases hdir'

/-- A renaming takes what is at the source to a target below a directory. -/
theorem rename_spec (ht : t.isNode = true) (hvacant : ∀ c, t.get target = some c → c.isNode = false)
    (hparent : ∃ c, t.get target.dropLast = some c ∧ c.isNode = true)
    (h : rename t source target destination = .ok s) :
    s.isNode = true ∧ (source = target ∧ s = t ∨
      ¬ source <+: target ∧ filesOf s = (filesOf t).relocate source target) := by
  unfold rename at h
  split at h
  · cases h
  · next moved hmoved =>
      split at h
      · next hsame =>
          obtain rfl := Except.ok.inj h
          exact ⟨ht, Or.inl ⟨hsame, rfl⟩⟩
      · next hne =>
          cases moved with
          | leaf bytes =>
              obtain rfl := Except.ok.inj h
              have houtside := not_prefix_of_leaf hmoved hparent hne
              obtain ⟨hnode, hfiles⟩ := relocate_spec ht hmoved hvacant hparent houtside
              exact ⟨hnode, Or.inr ⟨houtside, hfiles⟩⟩
          | node children =>
              dsimp only at h
              split_ifs at h with hbelow hexists
              obtain rfl := Except.ok.inj h
              obtain ⟨hnode, hfiles⟩ := relocate_spec ht hmoved hvacant hparent hbelow
              exact ⟨hnode, Or.inr ⟨hbelow, hfiles⟩⟩

/-- A renaming fails where there is nothing, or a directory would come below itself or in the
place of a file. -/
theorem rename_refused {error : Error}
    (hvacant : ∀ c, t.get target = some c → c.isNode = false)
    (h : rename t source target destination = .error error) :
    (∃ errno, error = .osError errno source ∧ Vacant (filesOf t) source) ∨
      (error = .intoItself source destination ∧ source <+: target) ∨
      error = .osError .exists target ∧ filesOf t source = none ∧ (filesOf t target).isSome := by
  unfold rename at h
  split at h
  · next hnone =>
      obtain rfl := Except.error.inj h
      exact Or.inl ⟨_, rfl, vacant_of_none hnone⟩
  · next moved hmoved =>
      split at h
      · cases h
      · cases moved with
        | leaf bytes => cases h
        | node children =>
            dsimp only at h
            split_ifs at h with hbelow hexists
            · obtain rfl := Except.error.inj h
              exact Or.inr (Or.inl ⟨rfl, hbelow⟩)
            · obtain rfl := Except.error.inj h
              refine Or.inr (Or.inr ⟨rfl, filesOf_of_isNode hmoved rfl, ?_⟩)
              obtain ⟨c, hc⟩ := Option.isSome_iff_exists.1 hexists
              have hleaf := hvacant c hc
              cases c with
              | node children => cases hleaf
              | leaf bytes =>
                  rw [filesOf, hc]
                  rfl

/-- Where a move to a directory arrives there is nothing, or a file. -/
theorem get_eq_none_of_not_isSome {name : Option String} {children : List (String × Tree)}
    (hget : t.get destination = some (.node children))
    (h : ¬ (t.get (destination ++ name.toList)).isSome = true) :
    ∃ last, name = some last ∧ t.get (destination ++ [last]) = none := by
  cases name with
  | none => simp [hget] at h
  | some last => exact ⟨last, rfl, Option.not_isSome_iff_eq_none.1 h⟩

/-- A move arrives at its destination or, where that is a directory, below it. -/
theorem move_spec {name : Option String} (ht : t.isNode = true)
    (hparent : ∃ c, t.get destination.dropLast = some c ∧ c.isNode = true)
    (h : move t source name destination = .ok s) :
    s.isNode = true ∧ (source = destination ∧ s = t ∨ ∃ target,
      (target = destination ∨ target = destination ++ name.toList) ∧ ¬ source <+: target ∧
        (∀ q, target <+: q → q ≠ target → filesOf t q = none) ∧
          filesOf s = (filesOf t).relocate source target) := by
  unfold move at h
  split at h
  · next children hget =>
      dsimp only at h
      split_ifs at h with hsame hexists
      · obtain rfl := Except.ok.inj h
        exact ⟨ht, Or.inl ⟨hsame, rfl⟩⟩
      · obtain ⟨last, rfl, hnone⟩ := get_eq_none_of_not_isSome hget hexists
        have hvacant := not_isNode_of_none hnone
        obtain ⟨hs, ⟨rfl, -⟩ | ⟨houtside, hfiles⟩⟩ := rename_spec ht hvacant
          ⟨_, by rw [List.dropLast_concat]; exact hget, rfl⟩ h
        · rw [rename, hnone] at h
          cases h
        · exact ⟨hs, Or.inr ⟨_, Or.inr rfl, houtside, filesOf_below_leaf hvacant, hfiles⟩⟩
  · next hnode =>
      have hvacant := not_isNode_of_ne hnode
      obtain ⟨hs, hfiles⟩ := rename_spec ht hvacant hparent h
      exact ⟨hs, hfiles.imp id fun ⟨houtside, hfiles⟩ =>
        ⟨destination, Or.inl rfl, houtside, filesOf_below_leaf hvacant, hfiles⟩⟩

theorem move_refused {name : Option String} {error : Error}
    (h : move t source name destination = .error error) :
    Refused (filesOf t) (.move source name destination) error := by
  unfold move at h
  split at h
  · next children hget =>
      dsimp only at h
      split_ifs at h with hsame hexists
      · obtain rfl := Except.error.inj h
        exact .taken
      · obtain ⟨last, rfl, hnone⟩ := get_eq_none_of_not_isSome hget hexists
        have hvacant := not_isNode_of_none hnone
        rcases rename_refused hvacant h with
          ⟨errno, rfl, hmissing⟩ | ⟨rfl, hbelow⟩ | ⟨rfl, hmissing, hstored⟩
        · exact .unmoved errno hmissing
        · exact .intoItself (.inr rfl) hbelow
        · rw [filesOf_of_none hnone] at hstored
          cases hstored
  · next hnode =>
      have hvacant := not_isNode_of_ne hnode
      rcases rename_refused hvacant h with
        ⟨errno, rfl, hmissing⟩ | ⟨rfl, hbelow⟩ | ⟨rfl, hmissing, hstored⟩
      · exact .unmoved errno hmissing
      · exact .intoItself (.inl rfl) hbelow
      · exact .overFile hmissing hstored

/-- What a file holds is read if it can be decoded. -/
theorem readText_spec {text : String} (h : readText t path = .ok text) :
    ∃ bytes decoded, filesOf t path = some bytes ∧
      String.fromUTF8? bytes.toByteArray = some decoded ∧
        text = String.ofList (universalNewlines decoded.toList) := by
  unfold readText at h
  split at h
  · next bytes hget =>
      split at h
      · next decoded hdecoded =>
          exact ⟨bytes, decoded, by rw [filesOf, hget]; rfl, hdecoded, (Except.ok.inj h).symm⟩
      · cases h
  · cases h
  · cases h

theorem readText_refused {error : Error} (h : readText t path = .error error) :
    Refused (filesOf t) (.readFile path) error := by
  unfold readText at h
  split at h
  · next bytes hget =>
      split at h
      · cases h
      · next hinvalid =>
          obtain rfl := Except.error.inj h
          exact .undecodable (by rw [filesOf, hget]; rfl) hinvalid
  · next children hget =>
      obtain rfl := Except.error.inj h
      exact .unreadable _ (filesOf_of_isNode hget rfl)
  · next hnone =>
      obtain rfl := Except.error.inj h
      exact .unreadable _ (filesOf_of_none hnone)

theorem writeText_refused {text : String} {error : Error}
    (h : writeText t path text = .error error) :
    Refused (filesOf t) (.writeFile path (.str text)) error := by
  unfold writeText at h
  split at h
  · next children hget =>
      obtain rfl := Except.error.inj h
      exact .overDirectory (filesOf_of_isNode hget rfl)
  · cases h

/-- A listing shows where the files below the directory are. -/
theorem listDir_spec {names : List String} (h : listDir t path = .ok names) (x : String)
    (rest : Path) (hstored : (filesOf t (path ++ x :: rest)).isSome) : x ∈ names := by
  unfold listDir at h
  split at h
  · next children hget =>
      obtain rfl := Except.ok.inj h
      rw [filesOf_append hget, filesOf, NamedTree.get_cons] at hstored
      cases hchild : (NamedTree.node children).child x with
      | none =>
          rw [hchild] at hstored
          cases hstored
      | some c =>
          obtain ⟨entry, hentry, -⟩ := Option.map_eq_some_iff.1 hchild
          have hname : entry.1 = x := by simpa using List.find?_some hentry
          rw [List.mem_insertionSort, ← hname]
          exact List.mem_map_of_mem (List.mem_of_find?_eq_some hentry)
  · cases h

theorem listDir_refused {error : Error} (h : listDir t path = .error error) :
    Refused (filesOf t) (.listDir path) error := by
  unfold listDir at h
  split at h
  · cases h
  · next hnode =>
      obtain rfl := Except.error.inj h
      exact .unlisted (filesOf_below_leaf (not_isNode_of_ne hnode))

theorem unlink_refused {error : Error} (h : unlink t path = .error error) :
    Refused (filesOf t) (.delete path) error := by
  unfold unlink at h
  split at h
  · next children hget =>
      obtain rfl := Except.error.inj h
      exact .directory (filesOf_of_isNode hget rfl)
  · cases h
  · next hnone =>
      obtain rfl := Except.error.inj h
      exact .undeleted _ (filesOf_of_none hnone)

variable (py : Python) (root : Path)

/-- The tool does to the files what the store does. -/
theorem execute_refines (args : Args) (ht : t.isNode = true) :
    (execute py root t args).2.isNode = true ∧
      FileStep py root (filesOf t) args (execute py root t args).1
        (filesOf (execute py root t args).2) := by
  unfold execute
  split
  · next error parsed => exact ⟨ht, .rejected parsed⟩
  · next command parsed =>
      cases command with
      | readFile path =>
          refine ⟨ht, ?_⟩
          unfold run
          dsimp only
          cases hread : readText t path with
          | error error => exact .raised parsed (readText_refused hread)
          | ok text =>
              obtain ⟨bytes, decoded, hstored, hdecoded, rfl⟩ := readText_spec hread
              exact .read parsed hstored hdecoded
      | writeFile path content =>
          unfold run
          dsimp only
          cases hmade : mkdir t path.dropLast with
          | error error =>
              obtain ⟨errno, q, rfl, hblocked⟩ := mkdir_blocked hmade
              exact ⟨ht, .raised parsed (.writeBlocked errno hblocked)⟩
          | ok s =>
              obtain ⟨hfiles, hs, hparent⟩ := mkdir_spec ht hmade
              rw [← hfiles]
              cases content with
              | str text =>
                  dsimp only
                  cases hwritten : writeText s path text with
                  | error error => exact ⟨hs, .raised parsed (writeText_refused hwritten)⟩
                  | ok s' =>
                      obtain ⟨hs', hfiles'⟩ := writeText_spec hs hparent hwritten
                      refine ⟨hs', ?_⟩
                      rw [finish, hfiles']
                      exact .wrote parsed
              | _ => exact ⟨hs, .raised parsed (.notText fun text hother => nomatch hother)⟩
      | listDir path =>
          refine ⟨ht, ?_⟩
          unfold run
          dsimp only
          cases hlisted : listDir t path with
          | error error => exact .raised parsed (listDir_refused hlisted)
          | ok names => exact .listed parsed (listDir_spec hlisted)
      | mkdir path =>
          unfold run
          dsimp only
          cases hmade : mkdir t path with
          | error error =>
              obtain ⟨errno, q, rfl, hblocked⟩ := mkdir_blocked hmade
              exact ⟨ht, .raised parsed (.mkdirBlocked errno hblocked)⟩
          | ok s =>
              obtain ⟨hfiles, hs, -⟩ := mkdir_spec ht hmade
              refine ⟨hs, ?_⟩
              rw [finish, hfiles]
              exact .made parsed
      | move path name destination =>
          unfold run
          dsimp only
          cases hmade : mkdir t destination.dropLast with
          | error error =>
              obtain ⟨errno, q, rfl, hblocked⟩ := mkdir_blocked hmade
              exact ⟨ht, .raised parsed (.moveBlocked errno hblocked)⟩
          | ok s =>
              obtain ⟨hfiles, hs, hparent⟩ := mkdir_spec ht hmade
              rw [← hfiles]
              dsimp only
              cases hmoved : move s path name destination with
              | error error => exact ⟨hs, .raised parsed (move_refused hmoved)⟩
              | ok s' =>
                  obtain ⟨hs', ⟨rfl, rfl⟩ | ⟨target, harrives, houtside, hvacant, hfiles'⟩⟩ :=
                    move_spec hs hparent hmoved
                  · exact ⟨hs', .stayed parsed⟩
                  · refine ⟨hs', ?_⟩
                    rw [finish, hfiles']
                    exact .moved parsed harrives houtside hvacant
      | delete path =>
          unfold run
          dsimp only
          cases hunlinked : unlink t path with
          | error error => exact ⟨ht, .raised parsed (unlink_refused hunlinked)⟩
          | ok s =>
              obtain ⟨hs, ⟨bytes, hstored⟩, hfiles⟩ := unlink_spec ht hunlinked
              refine ⟨hs, ?_⟩
              rw [finish, hfiles]
              exact .deleted parsed hstored

/-- Whatever the calls are, in whatever order, the tool with its directories refines the store
of files: what is returned or raised and what the files hold afterwards is a run of the store. -/
theorem executeAll_refines (ht : t.isNode = true) (calls : List Args) :
    FileRun py root (filesOf t) calls (executeAll py root t calls).1
      (filesOf (executeAll py root t calls).2) := by
  induction calls generalizing t with
  | nil => exact .nil _
  | cons args calls ih =>
      obtain ⟨hs, hstep⟩ := execute_refines py root args ht
      exact .cons hstep (ih hs)

/-- Python's text functions on ASCII. -/
def asciiPython : Python := ⟨Text.lower, fun c => c.isAlphanum || c = '_', fun _ => ""⟩

/-- A disk with an empty workspace. -/
def disk : Tree := .node [("ws", .node []), ("key", .leaf [66])]

/-- A note is written, its directory is renamed, and the note is read in its new place. -/
def relocation : List Args :=
  [[("action", .str "write_file"), ("path", .str "notes/a"), ("content", .str "x")],
    [("action", .str "move"), ("path", .str "notes"), ("destination", .str "old/2024")],
    [("action", .str "read_file"), ("path", .str "old/2024/a")]]

theorem executeAll_refines_relocation :
    FileRun asciiPython ["ws"] (filesOf disk) relocation
      [.ok (.str "notes/a"), .ok .null, .ok (.str "x")]
      (filesOf (executeAll asciiPython ["ws"] disk relocation).2) :=
  executeAll_refines asciiPython ["ws"] rfl relocation

end Steps

section Reading

variable {py : Python} {root : Path} {files last : Files} {path : Path}

/-- The action writes to the path, takes away what is there or puts something in its place. -/
def Command.Touches (path : Path) : Command → Prop
  | .writeFile written _ => written = path
  | .delete deleted => deleted = path
  | .move source name destination =>
      source <+: path ∨ destination = path ∨ destination ++ name.toList = path
  | _ => False

/-- A file that no action touches stays as it is. -/
theorem FileStep.keeps {args : Args} {result : Except Error Value} {bytes : List UInt8}
    (h : FileStep py root files args result last) (hstored : files path = some bytes)
    (htouches : ∀ command, parse py root args = .ok command → ¬ command.Touches path) :
    last path = some bytes := by
  cases h with
  | rejected => exact hstored
  | raised => exact hstored
  | read => exact hstored
  | listed => exact hstored
  | made => exact hstored
  | wrote parsed =>
      have hne := htouches _ parsed
      exact (Function.update_of_ne (Ne.symm hne) _ _).trans hstored
  | deleted parsed =>
      have hne := htouches _ parsed
      exact (Function.update_of_ne (Ne.symm hne) _ _).trans hstored
  | stayed => exact hstored
  | @moved source destination target name parsed arrives outside vacant =>
      have hnot := htouches _ parsed
      simp only [Command.Touches, not_or] at hnot
      have htarget : ¬ target <+: path := by
        intro hbelow
        have hne : path ≠ target := by
          rintro rfl
          rcases arrives with rfl | rfl
          · exact hnot.2.1 rfl
          · exact hnot.2.2 rfl
        rw [vacant path hbelow hne] at hstored
        cases hstored
      rw [Files.relocate, if_neg htarget, if_neg hnot.1]
      exact hstored

theorem FileRun.keeps {calls : List Args} {results : List (Except Error Value)}
    {bytes : List UInt8} (h : FileRun py root files calls results last)
    (hstored : files path = some bytes) (htouches : ∀ args ∈ calls, ∀ command,
      parse py root args = .ok command → ¬ command.Touches path) : last path = some bytes := by
  induction h with
  | nil => exact hstored
  | cons step rest ih =>
      exact ih (step.keeps hstored (htouches _ List.mem_cons_self))
        fun args hargs => htouches args (List.mem_cons_of_mem _ hargs)

/-- A call that has returned from writing has written. -/
theorem FileStep.written {args : Args} {text : String} {value : Value}
    (h : FileStep py root files args (.ok value) last)
    (hparsed : parse py root args = .ok (.writeFile path (.str text))) :
    last path = some (encoded text) := by
  cases h with
  | wrote parsed =>
      obtain ⟨rfl, htext⟩ := Command.writeFile.inj (Except.ok.inj (hparsed.symm.trans parsed))
      obtain rfl := Value.str.inj htext
      exact Function.update_self _ _ _
  | read parsed => cases hparsed.symm.trans parsed
  | listed parsed => cases hparsed.symm.trans parsed
  | made parsed => cases hparsed.symm.trans parsed
  | deleted parsed => cases hparsed.symm.trans parsed
  | stayed parsed => cases hparsed.symm.trans parsed
  | moved parsed => cases hparsed.symm.trans parsed

theorem fromUTF8?_encoded (text : String) :
    String.fromUTF8? (encoded text).toByteArray = some text := by
  have hbytes : (encoded text).toByteArray = text.toByteArray := String.utf8Encode_toList
  rw [hbytes, String.fromUTF8?, dif_pos text.isValidUTF8]
  rfl

theorem readText_of_stored {t : Tree} {text : String}
    (h : filesOf t path = some (encoded text)) :
    readText t path = .ok (String.ofList (universalNewlines text.toList)) := by
  obtain ⟨c, hc, hcontent⟩ := Option.bind_eq_some_iff.1 h
  cases c with
  | node children => cases hcontent
  | leaf content =>
      obtain rfl := Option.some.inj hcontent
      unfold readText
      rw [hc]
      dsimp only
      rw [fromUTF8?_encoded]

/-- What a call has written to a file, a later call reads there, whatever is done in between
that does not touch the file: other files and directories may be written, made, moved and
deleted, and calls may fail. -/
theorem read_returns_written {t : Tree} {writing reading : Args} {between : List Args}
    {text : String} {value : Value} (ht : t.isNode = true)
    (hwriting : parse py root writing = .ok (.writeFile path (.str text)))
    (hwritten : (execute py root t writing).1 = .ok value)
    (htouches : ∀ args ∈ between, ∀ command, parse py root args = .ok command →
      ¬ command.Touches path)
    (hreading : parse py root reading = .ok (.readFile path)) :
    (execute py root (executeAll py root t (writing :: between)).2 reading).1 =
      .ok (.str (String.ofList (universalNewlines text.toList))) := by
  obtain ⟨hs, hstep⟩ := execute_refines py root writing ht
  have hstored : filesOf (execute py root t writing).2 path = some (encoded text) := by
    rw [hwritten] at hstep
    exact hstep.written hwriting
  have hrun := executeAll_refines py root hs between
  have hread := readText_of_stored (hrun.keeps hstored htouches)
  unfold execute
  rw [hreading]
  unfold run
  dsimp only
  exact congrArg (Except.map Value.str) hread

/-- A note is read back after another one has been deleted in vain and its directory listed. -/
theorem read_returns_written_note :
    let writing : Args :=
      [("action", .str "write_file"), ("path", .str "notes/a"), ("content", .str "x")]
    let between : List Args := [[("action", .str "delete"), ("path", .str "notes/b")],
      [("action", .str "list_dir"), ("path", .str "notes")]]
    (execute asciiPython ["ws"] (executeAll asciiPython ["ws"] disk (writing :: between)).2
      [("action", .str "read_file"), ("path", .str "./notes/a")]).1 = .ok (.str "x") := by
  intro writing between
  have htouches : ∀ args ∈ between, ∀ command, parse asciiPython ["ws"] args = .ok command →
      ¬ command.Touches ["ws", "notes", "a"] := by
    intro args hargs command hcommand
    rcases List.mem_cons.1 hargs with rfl | hargs
    · obtain rfl : .delete ["ws", "notes", "b"] = command := Except.ok.inj hcommand
      simp [Command.Touches]
    · obtain rfl := List.mem_singleton.1 hargs
      obtain rfl : .listDir ["ws", "notes"] = command := Except.ok.inj hcommand
      simp [Command.Touches]
  have hreading : parse asciiPython ["ws"]
      [("action", .str "read_file"), ("path", .str "./notes/a")] =
        .ok (.readFile ["ws", "notes", "a"]) := rfl
  have hwritten : (execute asciiPython ["ws"] disk writing).1 = .ok (.str "notes/a") := rfl
  have hdisk : disk.isNode = true := rfl
  exact read_returns_written hdisk rfl hwritten htouches hreading

end Reading

end GraphAgent.Filesystem
