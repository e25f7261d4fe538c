/-
CljFormat.Command.Walk — the files to format in a directory.

A directory is walked in the order of the names in it. Files count by their extension. Directories
in it are walked at their place, except hidden ones and those that hold what a build or a package
manager left there.
-/
import CljFormat.Disk

namespace CljFormat.Command

/-- The extensions of source files. -/
def extensions : List String :=
  ["clj", "cljs", "cljc", "edn"]

/-- Whether a file of this name is a source file. -/
def isSourceName (name : String) : Bool :=
  (Path.extension? name).any extensions.contains

/-- Whether a directory of this name is passed over. -/
def isSkippedName (name : String) : Bool :=
  name.toList.head? == some '.' || name == "target" || name == "node_modules"

/-- Adds an entry at its place in the order of names. -/
def insertByName {β : Type} (entry : String × β) : List (String × β) → List (String × β)
  | [] => [entry]
  | other :: rest =>
    if entry.1 ≤ other.1 then entry :: other :: rest else other :: insertByName entry rest

mutual

/-- The source files that each of the entries of the directory `path` holds, in the order of their
names. -/
def walkAll (path : String) : List (String × Entry) → List (String × List String)
  | [] => []
  | entry :: rest => insertByName (walkEntry path entry) (walkAll path rest)

/-- The source files that one entry of the directory `path` holds, under its name. -/
def walkEntry (path : String) : String × Entry → String × List String
  | (name, e) => (name, walkNamed (Path.join path name) name e)

/-- The source files that an entry holds which has the name `name` and is at `path`. -/
def walkNamed (path name : String) : Entry → List String
  | .file _ => if isSourceName name then [path] else []
  | .dir entries => if isSkippedName name then [] else (walkAll path entries).flatMap Prod.snd

end

/-- The source files in a directory that is at `path` and has these entries. -/
def walk (path : String) (entries : List (String × Entry)) : List String :=
  (walkAll path entries).flatMap Prod.snd

/-- The files to format for the path `path`: those in it if it is a directory, otherwise it
itself. -/
def collect (d : Disk) (path : String) : List String :=
  match d.find path with
  | .ok (.dir entries) => walk path entries
  | _ => [path]

end CljFormat.Command
