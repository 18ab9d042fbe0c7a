import MustacheJsx.Text.Blank

/-!
# Places in a file tree

A place is written as names with slashes between them. Empty names and single points stand for no
step. The extension of a file is what follows the last point of its name, if there is something
before the point.

Models `is_template`, `TEMPLATE_EXTENSIONS` and the paths that `compile_tree` joins.
-/

namespace MustacheJsx.Location

def parts (path : String) : List String :=
  ((Text.splitOn '/' path.toList).filter fun part => !part.isEmpty && part != ['.']).map
    String.ofList

def ofParts (parts : List String) : String :=
  String.ofList (Text.joinWith '/' (parts.map String.toList))

def join (directory inside : String) : String :=
  if directory.isEmpty || directory.toList.getLast? == some '/' then directory ++ inside
  else directory ++ "/" ++ inside

def parent (path : String) : String :=
  let before := path.toList.reverse.dropWhile (· != '/')
  String.ofList (before.dropWhile (· == '/')).reverse

def splitExtension (name : String) : String × Option String :=
  let backwards := name.toList.reverse
  match backwards.dropWhile (· != '.') with
  | '.' :: stem =>
    if stem.isEmpty then (name, none)
    else
      (String.ofList stem.reverse, some (String.ofList (backwards.takeWhile (· != '.')).reverse))
  | _ => (name, none)

def withExtension (name extension : String) : String :=
  (splitExtension name).1 ++ "." ++ extension

def templateExtensions : List String := ["hbs", "handlebars"]

def isTemplate (name : String) : Bool :=
  match (splitExtension name).2 with
  | some extension => templateExtensions.contains extension
  | none => false

def outputParts (parts : List String) : List String :=
  parts.dropLast ++
    match parts.getLast? with
    | some name => [withExtension name "jsx"]
    | none => []

end MustacheJsx.Location
