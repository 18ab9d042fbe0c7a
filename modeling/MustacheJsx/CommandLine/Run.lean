import MustacheJsx.CommandLine.Arguments
import MustacheJsx.CommandLine.Location
import MustacheJsx.Compile

/-!
# Running the program

A run reads its templates from a disk and writes code to it, or reads the standard input and prints.
`Disk` says what the program needs of a disk, so that a run on files and a run on a tree of files in
memory are one definition. A failure does not keep other templates of a directory from being
compiled.

Models `CliError`, `read_template`, `compile_file`, `compile_tree` and `run`.
-/

namespace MustacheJsx

/-- What can go wrong with a template. -/
inductive Failure where
  /-- The disk refused; it tells why. -/
  | disk (path reason : String)
  | template (path : String) (error : CompileError)
  | noOutDir
  deriving DecidableEq

def Failure.message : Failure → String
  | .disk path reason => path ++ ": " ++ reason
  | .template path error => path ++ ": [" ++ error.code ++ "] " ++ error.message
  | .noOutDir => "--out-dir is required when compiling a directory"

/-- What the program needs of a disk. A refusal comes with a reason. -/
structure Disk (m : Type → Type) where
  /-- All of the standard input. -/
  standardInput : m (Except String String)
  isDirectory : String → m Bool
  /-- The text of a file. -/
  read : String → m (Except String String)
  /-- All files below a directory, by their names from there on. -/
  walk : String → m (List (Except Failure (List String)))
  /-- Makes a directory and those that hold it. -/
  makeDirectories : String → m (Except String Unit)
  write : String → String → m (Except String Unit)

/-- What a run tells. -/
structure Outcome where
  printed : String := ""
  failures : List Failure := []

def Outcome.status (outcome : Outcome) : Nat := if outcome.failures.isEmpty then 0 else 1

/-- The code of the template at `path`, without the blanks at its end. -/
def codeOf (options : Options) (path source : String) : Except Failure String :=
  match compile (Text.trimEnd source.toList) options with
  | .ok code => .ok (String.ofList code ++ "\n")
  | .error e => .error (.template path e)

namespace Disk

variable {m : Type → Type} [Monad m]

def compileFile (disk : Disk m) (options : Options) (path : String) :
    m (Except Failure String) := do
  match ← disk.read path with
  | .ok source => return codeOf options path source
  | .error reason => return .error (.disk path reason)

def print : Except Failure String → Outcome
  | .ok code => { printed := code }
  | .error failure => { failures := [failure] }

/-- Writes the code of a single file; the output directory is made if it is not there. -/
def writeSingle (disk : Disk m) (outDir target code : String) : m Outcome := do
  match ← disk.makeDirectories outDir with
  | .error reason => return { failures := [.disk target reason] }
  | .ok () =>
    match ← disk.write target code with
    | .error reason => return { failures := [.disk target reason] }
    | .ok () => return {}

def runFile (disk : Disk m) (options : Options) (path : String) (outDir : Option String) :
    m Outcome := do
  let code ← disk.compileFile options path
  match code, outDir with
  | .ok code, some outDir =>
    let name := (Location.parts path).getLast?.toList
    disk.writeSingle outDir (Location.join outDir (Location.ofParts (Location.outputParts name)))
      code
  | code, _ => return print code

/-- Writes code to `target`; the directories around it are made if they are not there. -/
def writeInside (disk : Disk m) (target code : String) : m (Option Failure) := do
  let directory := Location.parent target
  match ← disk.makeDirectories directory with
  | .error reason => return some (.disk directory reason)
  | .ok () =>
    match ← disk.write target code with
    | .error reason => return some (.disk target reason)
    | .ok () => return none

/-- Compiles the file with the names `parts` below `root` to the same place below `outDir`. -/
def compileInside (disk : Disk m) (options : Options) (root outDir : String)
    (parts : List String) : m (Option Failure) := do
  match ← disk.compileFile options (Location.join root (Location.ofParts parts)) with
  | .error failure => return some failure
  | .ok code =>
    disk.writeInside (Location.join outDir (Location.ofParts (Location.outputParts parts))) code

def compileFound (disk : Disk m) (options : Options) (root outDir : String) :
    Except Failure (List String) → m (Option Failure)
  | .error failure => return some failure
  | .ok parts =>
    if parts.getLast?.any Location.isTemplate then disk.compileInside options root outDir parts
    else return none

def runTree (disk : Disk m) (options : Options) (root outDir : String) : m Outcome := do
  let found ← disk.walk root
  let failures ← found.mapM (disk.compileFound options root outDir)
  return { failures := failures.filterMap id }

def runInput (disk : Disk m) (options : Options) : m Outcome := do
  match ← disk.standardInput with
  | .ok source => return print (codeOf options "<stdin>" source)
  | .error reason => return { failures := [.disk "<stdin>" reason] }

def run (disk : Disk m) (arguments : Arguments) : m Outcome := do
  match arguments.input with
  | none => disk.runInput arguments.options
  | some input =>
    if ← disk.isDirectory input then
      match arguments.outDir with
      | some outDir => disk.runTree arguments.options input outDir
      | none => return { failures := [.noOutDir] }
    else disk.runFile arguments.options input arguments.outDir

end Disk

end MustacheJsx
