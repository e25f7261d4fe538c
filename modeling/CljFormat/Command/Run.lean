/-
CljFormat.Command.Run — a run of the command.

A run is a function of the disk, the standard input and the arguments. It formats the standard input
or one file to the standard output; or, as a batch, it takes every file that the paths name, shows
those that change, shows how, and stores their new texts, as the flags say. A batch goes on after a
file that cannot be read or formatted.

Settings come from the file that the arguments name, which has to be there, or else from the file
`.cljfmt` in the working directory if there is one.
-/
import CljFormat.Command.Options
import CljFormat.Command.Walk
import CljFormat.DotConfig
import CljFormat.Format

namespace CljFormat.Command

/-- Something said about a run besides its output. -/
inductive Notice
  | line (message : String)
  /-- A syntax error in the source called `name`. -/
  | report (name : String) (e : SyntaxError)
deriving DecidableEq, Repr

/-- What a run leaves behind. -/
structure Outcome where
  exitCode : Nat
  output : String := ""
  notices : List Notice := []
  /-- The files written, as the paths name them, with their texts. -/
  written : List (String × String) := []
  disk : Disk

/-- The settings file that is used without being named. -/
def defaultConfigPath : String := ".cljfmt"

/-- The name of the standard input. -/
def inputName : String := "<stdin>"

/-- The line that shows the version. -/
def versionLine : String := "cljfmt 0.1.0-alpha.4\n"

/-- What `--help` shows. -/
def helpText : String :=
  "Format Clojure source files\n\n" ++
  "Usage: cljfmt [OPTIONS] [PATH]...\n\n" ++
  "Options:\n" ++
  "  -l, --list                Print files whose formatting would change\n" ++
  "  -w, --write               Write the result to the source file\n" ++
  "      --diff                Show a line diff of formatting changes\n" ++
  "      --indent-char <C>     Character to use for indenting\n" ++
  "      --config <FILE>       Path to a .cljfmt file\n" ++
  "      --transform <NAME>    Enable a transform (repeatable)\n" ++
  "  -h, --help                Print help\n" ++
  "  -V, --version             Print version\n"

/-- The wording of a refusal of the arguments. -/
def UsageError.message : UsageError → String
  | unknownArgument => "error: unexpected argument"
  | argumentConflict => "error: an option is given more than once"
  | invalidValue => "error: a value is missing or empty"
  | valueValidation => "error: a value is not one that its option takes"
  | tooManyValues => "error: a flag is given a value"

/-- The notice of an error about the source called `name`. -/
def noticeOf (name : String) : FormatError → Notice
  | .malformed e => .report name e
  | e => .line (e.message name)

/-- A run that fails with one notice. -/
def failure (disk : Disk) (notice : Notice) : Outcome :=
  { exitCode := 1, notices := [notice], disk }

/-- The settings in the file at `path`, or the message that refuses them. -/
def loadConfig (disk : Disk) (config : Config) (path : String) : Except String Config :=
  match disk.readText path with
  | .error e => .error s!"Error loading {path}: error reading {path}: {e.message}"
  | .ok source =>
    match DotConfig.load source with
    | .error e => .error s!"Error loading {path}: {e.message path}"
    | .ok styles => .ok (config.withStyles styles)

/-- The settings of a run, or the message that refuses them. -/
def configOf (disk : Disk) (o : Options) : Except String Config :=
  let config : Config := { indentChar := o.indentChar, transforms := o.transforms }
  match o.config? with
  | some path => loadConfig disk config path
  | none =>
    if disk.isFile defaultConfigPath then loadConfig disk config defaultConfigPath else .ok config

/-! ## One source -/

/-- Formats one source to the standard output. -/
def formatOne (disk : Disk) (config : Config) (name : String)
    (source : Except FileError String) : Outcome :=
  match source with
  | .error e => failure disk (.line s!"Error reading {name}: {e.message}")
  | .ok source =>
    match format config source with
    | .error e => failure disk (noticeOf name e)
    | .ok text => { exitCode := 0, output := text, disk }

/-! ## Batches -/

/-- What a batch does with files that change. -/
structure BatchMode where
  list : Bool := false
  write : Bool := false
  diff : Bool := false
deriving DecidableEq, Repr

/-- A batch between two files. -/
structure Batch where
  disk : Disk
  output : String := ""
  notices : List Notice := []
  written : List (String × String) := []
  /-- How many files would change. -/
  changed : Nat := 0
  /-- How many files were given up. -/
  errors : Nat := 0

namespace Batch

/-- Gives up a file. -/
def giveUp (b : Batch) (notice : Notice) : Batch :=
  { b with notices := b.notices ++ [notice], errors := b.errors + 1 }

/-- What is shown of a file that changes. -/
def shown (mode : BatchMode) (path difference : String) : String :=
  (if mode.list then path ++ "\n" else "") ++
    (if mode.diff then s!"--- {path}\n{difference}\n" else "")

/-- Stores the new text of a file. -/
def store (b : Batch) (path text : String) : Batch :=
  match b.disk.writeText path text with
  | .ok disk => { b with disk, written := b.written ++ [(path, text)] }
  | .error e => b.giveUp (.line s!"Error writing {path}: {e.message}")

/-- Takes the file at `path`. -/
def step (mode : BatchMode) (config : Config) (b : Batch) (path : String) : Batch :=
  match b.disk.readText path with
  | .error e => b.giveUp (.line s!"Error reading {path}: {e.message}")
  | .ok source =>
    match format config source with
    | .error e => b.giveUp (noticeOf path e)
    | .ok text =>
      match lineDiff source text with
      | none => b
      | some difference =>
        let b := { b with
          changed := b.changed + 1
          output := b.output ++ shown mode path difference }
        if mode.write then b.store path text else b

end Batch

/-- Whether a batch fails for what it found. -/
def batchFails (mode : BatchMode) (b : Batch) : Bool :=
  0 < b.errors || ((mode.list || mode.diff) && 0 < b.changed)

/-- Formats every file that `paths` name. -/
def formatFiles (disk : Disk) (mode : BatchMode) (config : Config) (paths : List String) :
    Outcome :=
  let b := (paths.flatMap (collect disk)).foldl (Batch.step mode config) { disk }
  { exitCode := if batchFails mode b then 1 else 0
    output := b.output
    notices := b.notices
    written := b.written
    disk := b.disk }

/-! ## The command -/

/-- Whether a run reads the standard input. -/
def readsInput (o : Options) : Bool :=
  !o.batch && o.paths.isEmpty

/-- A run with these options. -/
def execute (disk : Disk) (input : ByteArray) (o : Options) : Outcome :=
  match configOf disk o with
  | .error message => failure disk (.line message)
  | .ok config =>
    if o.batch then
      if o.paths.isEmpty then
        failure disk (.line "Error: -l, -w, and --diff require at least one path")
      else formatFiles disk ⟨o.list, o.write, o.diff⟩ config o.paths
    else
      match o.paths with
      | [] => formatOne disk config inputName (decodeText input)
      | [path] => formatOne disk config path (disk.readText path)
      | _ =>
        failure disk
          (.line "Error: must provide a single file unless -l, -w, or --diff is given")

/-- A run with these arguments. -/
def run (disk : Disk) (input : ByteArray) (args : List String) : Outcome :=
  match Options.ofArgs args with
  | .ok o => execute disk input o
  | .error .help => { exitCode := 0, output := helpText, disk }
  | .error .version => { exitCode := 0, output := versionLine, disk }
  | .error (.refused e) => { exitCode := 2, notices := [.line e.message], disk }

end CljFormat.Command
