/-
CljFormat.Main — the program.

The files that the arguments name are read into a `Disk`, the run is computed, and what it shows and
writes is shown and written. Directories that a walk passes over, and files that are no source
files, are not read.
-/
import CljFormat.Command.Run

namespace CljFormat.Main

open CljFormat.Command

/-- The names of an absolute path, without those that stay in or leave a directory. -/
def plainNames (path : String) : List String :=
  let step (names : List String) (name : String) : List String :=
    if name = "" ∨ name = "." then names
    else if name = ".." then names.dropLast
    else names ++ [name]
  (Path.names path).foldl step []

/-- Every beginning of a path that ends before one of its `/`, and the path. -/
def beginnings (path : String) : List String :=
  let names := Path.names path
  (List.range names.length).map fun i => "/".intercalate (names.take (i + 1))

/-- The source files below the directory `path`, or the file there. -/
partial def load (path : String) : IO Entry := do
  let place := (← IO.currentDir) / path
  if ← place.isDir then
    let mut entries := []
    for child in ← place.readDir do
      let isDir ← child.path.isDir
      if if isDir then !isSkippedName child.fileName else isSourceName child.fileName then
        entries := (child.fileName, ← load child.path.toString) :: entries
    return .dir entries
  else return .file (← IO.FS.readBinFile place)

/-- What is in either of two directories, or the first of two entries that are not. -/
partial def overlay : Entry → Entry → Entry
  | .dir upper, .dir lower =>
    let merged := upper.map fun (name, e) =>
      (name, ((lower.lookup name).map (overlay e)).getD e)
    .dir (merged ++ lower.filter fun (name, _) => (upper.lookup name).isNone)
  | upper, _ => upper

/-- Puts an entry at `names`, and directories on the way to it. -/
def graft (e : Entry) : List String → Entry → Entry
  | [], below => overlay e below
  | name :: names, .dir entries =>
    let below := (entries.lookup name).getD (.dir [])
    .dir ((name, graft e names below) :: entries.filter (·.1 != name))
  | name :: names, .file _ => .dir [(name, graft e names (.dir []))]

/-- Adds what is at `path` to a disk, and the directories that its names pass through. -/
def addPath (disk : Disk) (path : String) : IO Disk := do
  let here ← IO.currentDir
  let mut disk := disk
  for beginning in beginnings path do
    let place := here / (if beginning.isEmpty then "/" else beginning)
    if ← place.pathExists then
      let names := plainNames place.toString
      if beginning = path then disk := { disk with root := graft (← load path) names disk.root }
      else if (disk.root.at? names).isNone then
        if ← place.isDir then disk := { disk with root := graft (.dir []) names disk.root }
  return disk

/-- The files that a run with these options looks at. -/
def lookedAt (o : Options) : List String :=
  o.config?.getD defaultConfigPath :: o.paths

/-- The disk that a run with these arguments sees. -/
def diskOf (args : List String) : IO Disk := do
  let cwd := plainNames (← IO.currentDir).toString
  let disk : Disk := { root := graft (.dir []) cwd (.dir []), cwd }
  match Options.ofArgs args with
  | .ok o => (lookedAt o).foldlM addPath disk
  | .error _ => return disk

/-- The standard input, if a run with these arguments reads it. -/
def inputOf (args : List String) : IO ByteArray := do
  match Options.ofArgs args with
  | .ok o => if readsInput o then (← IO.getStdin).readBinToEnd else return ByteArray.empty
  | .error _ => return ByteArray.empty

/-- The text of a notice. -/
def noticeText : Notice → String
  | .line message => message
  | .report name e => e.message name

end CljFormat.Main

open CljFormat in
/-- Runs the command with the arguments `args`. -/
def main (args : List String) : IO UInt32 := do
  let outcome := Command.run (← Main.diskOf args) (← Main.inputOf args) args
  for (path, text) in outcome.written do
    IO.FS.writeFile path text
  for notice in outcome.notices do
    IO.eprintln (Main.noticeText notice)
  (← IO.getStdout).putStr outcome.output
  return outcome.exitCode.toUInt32
