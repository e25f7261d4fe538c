/-
CljFormat.Disk — files and directories.

A disk is a tree of directories and files and a working directory in it. Paths are texts: their
names are separated by `/`, an empty name or `.` stays in a directory, and `..` leaves it. Every
name but the last has to be that of a directory, and so has the last if a `/` follows it.
-/
import CljFormat.Text.Lines

namespace CljFormat

/-- A file or a directory. -/
inductive Entry
  | file (content : ByteArray)
  | dir (entries : List (String × Entry))

/-- Why a file cannot be used. -/
inductive FileError
  | notFound | isDirectory | notDirectory
  /-- The content is not text. -/
  | notText
deriving DecidableEq, Repr

/-- The wording of a file error. -/
def FileError.message : FileError → String
  | notFound => "No such file or directory (os error 2)"
  | isDirectory => "Is a directory (os error 21)"
  | notDirectory => "Not a directory (os error 20)"
  | notText => "stream did not contain valid UTF-8"

/-- The text that some bytes encode. -/
def decodeText (content : ByteArray) : Except FileError String :=
  match String.fromUTF8? content with
  | some text => .ok text
  | none => .error .notText

namespace Path

/-- The names of a path, cut at every `/`. -/
def names (path : String) : List String :=
  let (first, rest) := Text.pieces '/' path.toList
  (first :: rest).map String.ofList

/-- Whether a path starts at the root. -/
def isAbsolute (path : String) : Bool :=
  path.toList.head? == some '/'

/-- The path of `name` in the directory `path`. -/
def join (path name : String) : String :=
  if path.isEmpty || path.toList.getLast? == some '/' then path ++ name else path ++ "/" ++ name

/-- The part of a file name behind its last dot, unless that dot starts the name. -/
def extension? (name : String) : Option String :=
  let reversed := name.toList.reverse
  match reversed.dropWhile (· != '.') with
  | '.' :: _ :: _ => some (String.ofList (reversed.takeWhile (· != '.')).reverse)
  | _ => none

end Path

namespace Entry

/-- The file or directory at `names` below `e`. -/
def at? : List String → Entry → Option Entry
  | [], e => some e
  | _ :: _, file _ => none
  | name :: names, dir entries => (entries.lookup name).bind (at? names)

/-- Puts a file at `names` below an entry, and the directories on the way to it. -/
def put (content : ByteArray) : List String → Entry → Entry
  | [], _ => file content
  | name :: names, file _ => dir [(name, put content names (dir []))]
  | name :: names, dir entries =>
    if (entries.lookup name).isSome then
      dir (entries.map fun entry =>
        if entry.1 = name then (entry.1, put content names entry.2) else entry)
    else dir (entries ++ [(name, put content names (dir []))])

end Entry

mutual

/-- The files of an entry that is at `path`, with their contents. -/
def Entry.files (path : String) : Entry → List (String × ByteArray)
  | .file content => [(path, content)]
  | .dir entries => Entry.filesAmong path entries

/-- The files among the entries of the directory `path`. -/
def Entry.filesAmong (path : String) : List (String × Entry) → List (String × ByteArray)
  | [] => []
  | entry :: rest => Entry.filesOf path entry ++ Entry.filesAmong path rest

/-- The files of one entry of the directory `path`. -/
def Entry.filesOf (path : String) : String × Entry → List (String × ByteArray)
  | (name, e) => Entry.files (Path.join path name) e

end

/-- A tree of files and the names that lead from its root to the working directory. -/
structure Disk where
  root : Entry := .dir []
  cwd : List String := []

namespace Disk

/-- Follows names from the directory at `place`, which names lead to from the root. -/
def follow (root : Entry) (place : List String) : List String → Except FileError (List String)
  | [] => .ok place
  | name :: names =>
    match root.at? place with
    | none => .error .notFound
    | some (.file _) => .error .notDirectory
    | some (.dir entries) =>
      if name = "" ∨ name = "." then follow root place names
      else if name = ".." then follow root place.dropLast names
      else if (entries.lookup name).isSome then follow root (place ++ [name]) names
      else .error .notFound

/-- The names that lead from the root to what is at `path`. -/
def locate (d : Disk) (path : String) : Except FileError (List String) :=
  if path.isEmpty then .error .notFound
  else follow d.root (if Path.isAbsolute path then [] else d.cwd) (Path.names path)

/-- What is at `path`. -/
def find (d : Disk) (path : String) : Except FileError Entry := do
  match d.root.at? (← d.locate path) with
  | some e => return e
  | none => throw .notFound

/-- Whether a file is at `path`. -/
def isFile (d : Disk) (path : String) : Bool :=
  match d.find path with
  | .ok (.file _) => true
  | _ => false

/-- The text of the file at `path`. -/
def readText (d : Disk) (path : String) : Except FileError String := do
  match ← d.find path with
  | .file content => decodeText content
  | .dir _ => throw .isDirectory

/-- Replaces the text of the file at `path`. -/
def writeText (d : Disk) (path text : String) : Except FileError Disk := do
  let place ← d.locate path
  match d.root.at? place with
  | some (.dir _) => throw .isDirectory
  | _ => return { d with root := d.root.put text.toUTF8 place }

end Disk

end CljFormat
