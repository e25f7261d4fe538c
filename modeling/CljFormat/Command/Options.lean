/-
CljFormat.Command.Options — the arguments of the command line.

Arguments are taken from left to right. Options and paths may be mixed; short flags may share one
dash; the value of an option stands behind `=` or in the next argument; behind `--` everything is a
path, and a lone `-` is one anywhere.

## When values are checked

A value in an argument of its own, and a run of paths, wait until the next flag or option or the
end of the arguments: only then are they checked (`State.settle`). An unknown option, or a value
given to a flag, ends everything at once, so it is reported even if what waits is wrong too. Of the
faults of one option a missing value comes before a repetition, and that before a bad value.
-/
import CljFormat.Transform

namespace CljFormat.Command

/-- A switch without a value. -/
inductive Flag
  | list | write | diff | help | version
deriving DecidableEq, Repr

/-- An option with a value. -/
inductive Setting
  | indentChar | config | transform
deriving DecidableEq, Repr

/-- What the arguments ask for. -/
structure Options where
  /-- The files and directories to format. -/
  paths : List String := []
  /-- Show the files that would change. -/
  list : Bool := false
  /-- Write the new texts to the files that change. -/
  write : Bool := false
  /-- Show what would change. -/
  diff : Bool := false
  indentChar? : Option Char := none
  /-- The settings file. -/
  config? : Option String := none
  /-- The transforms, in the order in which they are asked for. -/
  transforms : List Transform := []
deriving DecidableEq, Repr

namespace Options

/-- What indentation is made of. -/
def indentChar (o : Options) : Char :=
  o.indentChar?.getD ' '

/-- Whether files are formatted where they are, rather than printed. -/
def batch (o : Options) : Bool :=
  o.list || o.write || o.diff

end Options

/-- Why arguments are refused. -/
inductive UsageError
  | unknownArgument
  /-- An option that may be given once is given twice. -/
  | argumentConflict
  /-- A value is missing, or empty where that cannot be. -/
  | invalidValue
  /-- A value is not one of those that the option takes. -/
  | valueValidation
  /-- A flag is given a value. -/
  | tooManyValues
deriving DecidableEq, Repr

/-- What ends the taking of arguments before their end. -/
inductive Interruption
  | refused (e : UsageError)
  | help
  | version
deriving DecidableEq, Repr

/-- What waits to be checked. -/
inductive Waiting
  | nothing
  /-- An option, and its value if it has been given. -/
  | setting (s : Setting) (value? : Option String)
  /-- A run of paths, latest first. -/
  | paths (latest : List String)
deriving DecidableEq, Repr

/-- The state between two arguments. -/
structure State where
  options : Options := {}
  waiting : Waiting := .nothing
  /-- Whether `--` lies behind. -/
  onlyPaths : Bool := false
deriving DecidableEq, Repr

/-- Refuses the arguments. -/
def refuse {α : Type} (e : UsageError) : Except Interruption α :=
  .error (.refused e)

/-- The flag of a long name. -/
def Flag.ofLong? : String → Option Flag
  | "list" => some list
  | "write" => some write
  | "diff" => some diff
  | "help" => some help
  | "version" => some version
  | _ => none

/-- The flag of a short name. -/
def Flag.ofShort? : Char → Option Flag
  | 'l' => some list
  | 'w' => some write
  | 'h' => some help
  | 'V' => some version
  | _ => none

/-- The option of a long name. -/
def Setting.ofLong? : String → Option Setting
  | "indent-char" => some indentChar
  | "config" => some config
  | "transform" => some transform
  | _ => none

namespace Options

/-- Turns on a flag that may be given once. -/
def turnOn (given : Bool) (o : Options) : Except Interruption Options :=
  if given then refuse .argumentConflict else .ok o

/-- Applies a flag. -/
def applyFlag (o : Options) : Flag → Except Interruption Options
  | .list => turnOn o.list { o with list := true }
  | .write => turnOn o.write { o with write := true }
  | .diff => turnOn o.diff { o with diff := true }
  | .help => .error .help
  | .version => .error .version

/-- Applies an option with a value. -/
def applySetting (o : Options) (s : Setting) (value : String) : Except Interruption Options :=
  match s with
  | .indentChar =>
    if o.indentChar?.isSome then refuse .argumentConflict
    else
      match value.toList with
      | [c] => .ok { o with indentChar? := some c }
      | _ => refuse .valueValidation
  | .config =>
    if o.config?.isSome then refuse .argumentConflict
    else if value.isEmpty then refuse .invalidValue
    else .ok { o with config? := some value }
  | .transform =>
    match Transform.ofName? value with
    | some transform => .ok { o with transforms := o.transforms ++ [transform] }
    | none => refuse .valueValidation

end Options

namespace State

/-- Checks and applies what waits. -/
def settle (σ : State) : Except Interruption State :=
  match σ.waiting with
  | .nothing => .ok σ
  | .setting _ none => refuse .invalidValue
  | .setting s (some value) => do
    return { σ with options := ← σ.options.applySetting s value, waiting := .nothing }
  | .paths latest =>
    if latest.any String.isEmpty then refuse .invalidValue
    else
      .ok { σ with
        options := { σ.options with paths := σ.options.paths ++ latest.reverse }
        waiting := .nothing }

/-- Takes a flag. -/
def flag (σ : State) (f : Flag) : Except Interruption State := do
  let σ ← σ.settle
  return { σ with options := ← σ.options.applyFlag f }

/-- Takes the flags that share a dash. -/
def flags (σ : State) : List Char → Except Interruption State
  | [] => .ok σ
  | c :: cs =>
    match Flag.ofShort? c with
    | none => refuse .unknownArgument
    | some f =>
      match σ.flag f with
      | .ok σ => flags σ cs
      | .error e => .error e

/-- Takes a long option, with the value attached to it if there is one. -/
def long (σ : State) (name : String) (value? : Option String) : Except Interruption State :=
  match Setting.ofLong? name, Flag.ofLong? name with
  | some s, _ => do
    let σ ← σ.settle
    match value? with
    | some value => return { σ with options := ← σ.options.applySetting s value }
    | none => return { σ with waiting := .setting s none }
  | none, some f => if value?.isSome then refuse .tooManyValues else σ.flag f
  | none, none => refuse .unknownArgument

/-- Takes a path. -/
def path (σ : State) (arg : String) : Except Interruption State :=
  match σ.waiting with
  | .paths latest => .ok { σ with waiting := .paths (arg :: latest) }
  | _ => do return { ← σ.settle with waiting := .paths [arg] }

/-- Takes an argument that is no option: a value that is waited for, or a path. -/
def plain (σ : State) (arg : String) : Except Interruption State :=
  match σ.waiting with
  | .setting s none => .ok { σ with waiting := .setting s (some arg) }
  | _ => σ.path arg

/-- Takes one argument. -/
def step (σ : State) (arg : String) : Except Interruption State :=
  if σ.onlyPaths then σ.path arg
  else
    match arg.toList with
    | ['-', '-'] => .ok { σ with onlyPaths := true }
    | '-' :: '-' :: rest =>
      let name := String.ofList (rest.takeWhile (· != '='))
      match rest.dropWhile (· != '=') with
      | _ :: value => σ.long name (some (String.ofList value))
      | [] => σ.long name none
    | '-' :: c :: cs => σ.flags (c :: cs)
    | _ => σ.plain arg

end State

/-- What the arguments ask for. -/
def Options.ofArgs (args : List String) : Except Interruption Options := do
  let σ ← args.foldlM State.step {}
  let σ ← σ.settle
  return σ.options

end CljFormat.Command
