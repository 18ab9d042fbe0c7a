import MustacheJsx.CommandLine.Run

/-!
# Trees of files in memory

A tree holds files by their names from its top on. A directory is there as long as it holds a file.
What is above the top is a directory that cannot be looked into.

Models the directory walk of `compile_tree` and the file operations of `run` on trees in memory.
-/

namespace MustacheJsx

/-- Files in memory, with a standard input. -/
structure FileTree where
  files : List (List String × String)
  input : String := ""
  deriving DecidableEq

namespace FileTree

def isFile (tree : FileTree) (names : List String) : Bool :=
  tree.files.any fun (file, _) => file == names

def isDirectory (tree : FileTree) (names : List String) : Bool :=
  names.isEmpty || tree.files.any fun (file, _) => file != names && names.isPrefixOf file

/-- The names of a place from the top on, when missing directories may still be made. Two points are
a step back. -/
def placeAfter (steps : List String) : List String → Option (List String)
  | [] => some steps.reverse
  | part :: parts =>
    if part = ".." then
      match steps with
      | [] => none
      | _ :: steps => placeAfter steps parts
    else placeAfter (part :: steps) parts

/-- The names of a written place from the top on, when missing directories may still be made. -/
def place? (path : String) : Option (List String) :=
  if path.toList.head? = some '/' then none else placeAfter [] (Location.parts path)

/-- The names of a place that is reached through directories of the tree only. A step onto nothing,
as after a slash at the end, stays where it is. -/
def reachedAfter (tree : FileTree) (steps : List String) : List String → Option (List String)
  | [] => some steps.reverse
  | part :: parts =>
    if !tree.isDirectory steps.reverse then none
    else if part = "" || part = "." then reachedAfter tree steps parts
    else if part = ".." then
      match steps with
      | [] => none
      | _ :: steps => reachedAfter tree steps parts
    else reachedAfter tree (part :: steps) parts

/-- The names of a written place that is reached through directories of the tree only. -/
def reached? (tree : FileTree) (path : String) : Option (List String) :=
  if path.isEmpty || path.toList.head? = some '/' then none
  else reachedAfter tree [] ((Text.splitOn '/' path.toList).map String.ofList)

/-- Whether one of the places from the top down to `names` is a file. -/
def blocked (tree : FileTree) (names : List String) : Bool :=
  tree.files.any fun (file, _) => file.isPrefixOf names

def text? (tree : FileTree) (names : List String) : Option String :=
  (tree.files.find? fun (file, _) => file == names).map Prod.snd

def store (tree : FileTree) (names : List String) (text : String) : FileTree :=
  { tree with files := (names, text) :: tree.files.filter fun (file, _) => file != names }

/-! ### A tree as a disk -/

def refusal : String := "io error"

def readPath (path : String) (tree : FileTree) : Except String String :=
  match (tree.reached? path).bind tree.text? with
  | some text => .ok text
  | none => .error refusal

def walkPath (path : String) (tree : FileTree) : List (Except Failure (List String)) :=
  match tree.reached? path with
  | none => [.error (.disk path refusal)]
  | some names =>
    (tree.files.filter fun (file, _) => names.isPrefixOf file).map fun (file, _) =>
      .ok (file.drop names.length)

/-- Directories can be made wherever no file is in the way. -/
def makePath (path : String) (tree : FileTree) : Except String Unit :=
  match place? path with
  | none => .error refusal
  | some names => if tree.blocked names then .error refusal else .ok ()

/-- A file can be written unless there is a directory in its place or a file above it. -/
def writePath (path text : String) (tree : FileTree) : Except String Unit × FileTree :=
  match place? path with
  | none => (.error refusal, tree)
  | some names =>
    if tree.isDirectory names || tree.blocked names.dropLast then (.error refusal, tree)
    else (.ok (), tree.store names text)

/-- Whether a written place is a directory. Steps back alone lead above the top. -/
def holdsDirectory (path : String) (tree : FileTree) : Bool :=
  match tree.reached? path with
  | some names => tree.isDirectory names
  | none => !path.isEmpty && (Location.parts path).all (· == "..")

def disk : Disk (StateM FileTree) where
  standardInput := return .ok (← get).input
  isDirectory path := return holdsDirectory path (← get)
  read path := return readPath path (← get)
  walk path := return walkPath path (← get)
  makeDirectories path := return makePath path (← get)
  write path text := modifyGet (writePath path text)

def run (arguments : Arguments) (tree : FileTree) : Outcome × FileTree :=
  (disk.run arguments).run tree

end FileTree

end MustacheJsx
