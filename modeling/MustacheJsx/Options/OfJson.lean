import MustacheJsx.Error
import MustacheJsx.Options
import MustacheJsx.Json.Scan

/-!
# Options in JSON

Options are an object of switches. A switch that is missing keeps its default, a key that is no
switch is ignored with its value, and a switch that is given twice is refused. A list of switches
stands for the first of them in their order.

Models `from_json`.
-/

namespace MustacheJsx.Options

/-! ### Switches -/

def switchNames : List String :=
  ["isComponent", "isModule", "includeImport", "alwaysIncludeContext",
   "includeExperimentalFeatures", "verifyOutput"]

def set (options : Options) (name : String) (value : Bool) : Options :=
  match name with
  | "isComponent" => { options with isComponent := value }
  | "isModule" => { options with isModule := value }
  | "includeImport" => { options with includeImport := value }
  | "alwaysIncludeContext" => { options with alwaysIncludeContext := value }
  | "includeExperimentalFeatures" => { options with includeExperimentalFeatures := value }
  | "verifyOutput" => { options with verifyOutput := value }
  | _ => options

def readSwitch (cs : List Char) : Option (Bool × List Char) :=
  match Json.skipBlanks cs with
  | 't' :: 'r' :: 'u' :: 'e' :: rest => some (true, rest)
  | 'f' :: 'a' :: 'l' :: 's' :: 'e' :: rest => some (false, rest)
  | _ => none

/-! ### Objects and lists -/

def readMember (options : Options) (seen : List String) (key : String) (cs : List Char) :
    Option (Options × List String × List Char) :=
  if switchNames.contains key then do
    if seen.contains key then none
    else
      let (value, rest) ← readSwitch cs
      return (options.set key value, key :: seen, rest)
  else (Json.skipValue cs).map fun rest => (options, seen, rest)

/-- Reads the members of an object from a key on; `seen` are the switches that are set. -/
def readMembers : Nat → Options → List String → List Char → Option (Options × List Char)
  | 0, _, _, _ => none
  | fuel + 1, options, seen, cs =>
    match Json.skipBlanks cs with
    | '"' :: rest => do
      let (key, rest) ← Json.readString rest
      match Json.skipBlanks rest with
      | ':' :: rest =>
        let (options, seen, rest) ← readMember options seen (String.ofList key) rest
        match Json.skipBlanks rest with
        | '}' :: rest => return (options, rest)
        | ',' :: rest => readMembers fuel options seen rest
        | _ => none
      | _ => none
    | _ => none

def readElements (options : Options) : List String → List Char → Option (Options × List Char)
  | [], _ => none
  | name :: names, cs => do
    let (value, rest) ← readSwitch cs
    let options := options.set name value
    match Json.skipBlanks rest with
    | ']' :: rest => return (options, rest)
    | ',' :: rest => readElements options names rest
    | _ => none

def readAll (cs : List Char) : Option (Options × List Char) :=
  match Json.skipBlanks cs with
  | '{' :: rest =>
    match Json.skipBlanks rest with
    | '}' :: rest => some ({}, rest)
    | rest => readMembers rest.length {} [] rest
  | '[' :: rest =>
    match Json.skipBlanks rest with
    | ']' :: rest => some ({}, rest)
    | rest => readElements {} switchNames rest
  | _ => none

/-- Reads options; nothing but blanks may follow. -/
def ofJson (text : List Char) : Except CompileError Options :=
  match readAll text with
  | some (options, rest) =>
    if (Json.skipBlanks rest).isEmpty then .ok options else .error .invalidOptions
  | none => .error .invalidOptions

end MustacheJsx.Options
