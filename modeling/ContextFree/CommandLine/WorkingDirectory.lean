import ContextFree.CommandLine.Run

/-!
# A working directory in memory

A run may read its file from a small tree of files held in memory in place of a disk.  A path is
walked step by step: every step but the last has to be a directory, and the last one too if the path
ends with a slash.  A new entry is put where its path leads, so several paths may name one entry.
What lies above the tree is a directory without known entries.  Names and paths beyond a number of
bytes are refused.
-/

namespace ContextFree.CommandLine

/-- Ways down from the root of the tree, each to a file with its content or to a directory.  Of two
entries for one way the earlier counts. -/
structure WorkingDirectory where
  entries : List (List String × Option ByteArray)

namespace WorkingDirectory

/-- What a path leads to. -/
inductive Node where
  | missing
  | directory
  | file (content : ByteArray)

/-- The entry under a path from the root of the tree. -/
def node (tree : WorkingDirectory) (path : List String) : Node :=
  match tree.entries.lookup path with
  | some (some content) => .file content
  | some none => .directory
  | none => if path = [] then .directory else .missing

/-- A place on the way along a path. -/
inductive Place where
  | inside (path : List String)
  | above

/-- Goes one step on from a directory. -/
def step (place : Place) (name : String) : Option Place :=
  match place, name with
  | place, "" => some place
  | place, "." => some place
  | .above, ".." => some .above
  | .above, _ => none
  | .inside [], ".." => some .above
  | .inside path, ".." => some (.inside path.dropLast)
  | .inside path, name => some (.inside (path ++ [name]))

/-- The bytes that one name of a path may take. -/
def maxNameBytes : Nat := 255

/-- The bytes that a path may take. -/
def maxPathBytes : Nat := 4095

/-- Reads the file at the end of a way. -/
def readFrom (tree : WorkingDirectory) (place : Place) :
    List String → Except InputFault ByteArray
  | [] =>
    match place with
    | .above => .error .isDirectory
    | .inside path =>
      match tree.node path with
      | .missing => .error .noSuchFile
      | .directory => .error .isDirectory
      | .file content => .ok content
  | name :: names =>
    let walk : Except InputFault ByteArray :=
      if maxNameBytes < name.utf8ByteSize then .error .nameTooLong
      else
        match step place name with
        | none => .error .noSuchFile
        | some next => tree.readFrom next names
    match place with
    | .above => walk
    | .inside path =>
      match tree.node path with
      | .missing => .error .noSuchFile
      | .file _ => .error .notDirectory
      | .directory => walk

/-- The names on a path. -/
def steps (path : String) : List String :=
  (Text.pieces (· == '/') path.toList).map String.ofList

/-- Puts an entry at a place.  What lies above the tree is not kept. -/
def insertAt (tree : WorkingDirectory) (content : Option ByteArray) : Place → WorkingDirectory
  | .above => tree
  | .inside path => ⟨(path, content) :: tree.entries⟩

/-- Puts an entry at the end of a way, and directories on the way to it. -/
def insertFrom (content : Option ByteArray) (tree : WorkingDirectory) (place : Place) :
    List String → WorkingDirectory
  | [] => tree.insertAt content place
  | name :: names =>
    match step place name with
    | none => tree
    | some next => insertFrom content (tree.insertAt none place) next names

/-- Adds an entry under a relative path. -/
def insert (tree : WorkingDirectory) (path : String) (content : Option ByteArray) :
    WorkingDirectory :=
  insertFrom content tree (.inside []) (steps path)

/-- Reads the file under a path.  An absolute path leads out of the tree. -/
def read (tree : WorkingDirectory) (path : String) : Except InputFault ByteArray :=
  if maxPathBytes < path.utf8ByteSize then .error .nameTooLong
  else
    match steps path with
    | [""] => .error .noSuchFile
    | "" :: names => tree.readFrom .above names
    | names => tree.readFrom (.inside []) names

/-- The input of a run in the directory. -/
def input (tree : WorkingDirectory) (stdin : ByteArray) :
    Option String → Except InputFault ByteArray
  | some path => tree.read path
  | none => .ok stdin

end WorkingDirectory

end ContextFree.CommandLine
