import Mathlib.Data.List.Basic

/-!
# Command lines

A command line is a list of words: options, each with the number of arguments that its name
calls for, and behind them a command. The reader takes an option's arguments without looking
at them, so what was written as an argument is read as one, whatever its text is.
-/

namespace GraphAgent.CommandLine

/-- An option with its arguments. -/
structure CliOption where
  name : String
  arguments : List String
  deriving DecidableEq, Repr

/-- The words of options, one after the other. -/
def render (options : List CliOption) : List String :=
  options.flatMap fun option => option.name :: option.arguments

variable (arity : String → Option ℕ)

/-- The words are read as options and a command behind them: behind `--`, or from the first word
on that does not look like an option. -/
inductive Reads : List String → List CliOption → List String → Prop
  | command (words : List String) : Reads ("--" :: words) [] words
  | bare (word : String) (words : List String) (h : ¬ ['-', '-'] <+: word.toList) :
      Reads (word :: words) [] (word :: words)
  | option {name : String} {arguments words : List String} {options : List CliOption}
      {command : List String} (complete : arity name = some arguments.length)
      (looks : ['-', '-'] <+: name.toList) (other : name ≠ "--")
      (rest : Reads words options command) :
      Reads (name :: (arguments ++ words)) (⟨name, arguments⟩ :: options) command

variable {arity}

/-- Words are read in one way only. -/
theorem Reads.unique {words : List String} {options options' : List CliOption}
    {command command' : List String} (h : Reads arity words options command)
    (h' : Reads arity words options' command') : options = options' ∧ command = command' := by
  induction h generalizing options' with
  | command words =>
      cases h' with
      | command => exact ⟨rfl, rfl⟩
      | bare _ _ hbare => exact absurd (by decide) hbare
      | option _ _ other _ => exact absurd rfl other
  | bare word words hbare =>
      cases h' with
      | command => exact absurd (by decide) hbare
      | bare => exact ⟨rfl, rfl⟩
      | option _ looks _ _ => exact absurd looks hbare
  | @option name arguments words options command complete looks other rest ih =>
      generalize hwords : name :: (arguments ++ words) = all at h'
      cases h' with
      | command => exact absurd (List.cons.inj hwords).1 other
      | bare word _ hbare => exact absurd looks ((List.cons.inj hwords).1 ▸ hbare)
      | @option name' arguments' words' options' _ complete' _ _ rest' =>
          obtain ⟨rfl, htail⟩ := List.cons.inj hwords
          have hlength : arguments.length = arguments'.length :=
            Option.some.inj (complete.symm.trans complete')
          obtain ⟨rfl, rfl⟩ := List.append_inj htail hlength
          obtain ⟨rfl, rfl⟩ := ih rest'
          exact ⟨rfl, rfl⟩

/-- An option with as many arguments as the reader expects behind its name. -/
structure CliOption.Known (arity : String → Option ℕ) (option : CliOption) : Prop where
  complete : arity option.name = some option.arguments.length
  looks : ['-', '-'] <+: option.name.toList
  other : option.name ≠ "--"

/-- Options that are written out are read back, and what stands behind `--` is the command. -/
theorem reads_render {options : List CliOption} (h : ∀ option ∈ options, option.Known arity)
    (command : List String) :
    Reads arity (render options ++ "--" :: command) options command := by
  induction options with
  | nil => exact .command command
  | cons option options ih =>
      obtain ⟨complete, looks, other⟩ := h option List.mem_cons_self
      have hrest := ih fun option hmem => h option (List.mem_cons_of_mem _ hmem)
      have hwords : render (option :: options) ++ "--" :: command =
          option.name :: (option.arguments ++ (render options ++ "--" :: command)) := by
        simp [render]
      rw [hwords]
      exact .option complete looks other hrest

end GraphAgent.CommandLine
