import MustacheJsx.Options

/-!
# Arguments

The arguments name an input and an output directory and set switches. Each may be given once. Short
switches may be written together, and a value may follow its option directly.

Models the reading of arguments into `Cli`, and `options`.
-/

namespace MustacheJsx

/-- A switch. -/
inductive Switch where
  | noComponent
  | asModule
  | includeImport
  | alwaysIncludeContext
  | experimental
  | verify
  deriving DecidableEq

/-- What the arguments ask for. -/
structure Arguments where
  /-- A file or a directory; without one, the standard input is read. -/
  input : Option String := none
  outDir : Option String := none
  switches : List Switch := []
  deriving DecidableEq

/-- What is done with the arguments. -/
inductive Request where
  | compile (arguments : Arguments)
  | help
  | version
  deriving DecidableEq

/-- Why arguments are refused. -/
inductive UsageFault where
  | unexpected (argument : String)
  | repeated (option : String)
  | missingValue (option : String)
  deriving DecidableEq

def UsageFault.message : UsageFault → String
  | .unexpected argument => "unexpected argument '" ++ argument ++ "' found"
  | .repeated option => "the argument '" ++ option ++ "' cannot be used multiple times"
  | .missingValue option => "a value is required for '" ++ option ++ "' but none was supplied"

namespace Arguments

def options (arguments : Arguments) : Options :=
  let given (switch : Switch) : Bool := arguments.switches.contains switch
  { isComponent := !given .noComponent
    isModule := given .asModule
    includeImport := given .includeImport
    alwaysIncludeContext := given .alwaysIncludeContext
    includeExperimentalFeatures := given .experimental
    verifyOutput := given .verify }

/-! ### Single arguments -/

def give (arguments : Arguments) (switch : Switch) (spelling : String) :
    Except UsageFault Arguments :=
  if arguments.switches.contains switch then .error (.repeated spelling)
  else .ok { arguments with switches := switch :: arguments.switches }

def setOutDir (arguments : Arguments) (value : String) : Except UsageFault Arguments :=
  if arguments.outDir.isSome then .error (.repeated "--out-dir <DIR>")
  else if value.isEmpty then .error (.missingValue "--out-dir <DIR>")
  else .ok { arguments with outDir := some value }

def setInput (arguments : Arguments) (value : String) : Except UsageFault Arguments :=
  if arguments.input.isSome then .error (.unexpected value)
  else if value.isEmpty then .error (.missingValue "[INPUT]")
  else .ok { arguments with input := some value }

def longSwitch? : String → Option Switch
  | "--no-component" => some .noComponent
  | "--module" => some .asModule
  | "--include-import" => some .includeImport
  | "--always-include-context" => some .alwaysIncludeContext
  | "--experimental" => some .experimental
  | "--verify" => some .verify
  | _ => none

def shortSwitch? : Char → Option Switch
  | 'm' => some .asModule
  | 'i' => some .includeImport
  | 'x' => some .experimental
  | _ => none

/-- What an argument leads to. -/
inductive Step where
  | done (arguments : Arguments)
  /-- The next argument is the output directory. -/
  | awaitOutDir (arguments : Arguments)
  | stop (request : Request)

def readShort (arguments : Arguments) : List Char → Except UsageFault Step
  | [] => .ok (.done arguments)
  | 'o' :: rest =>
    match rest with
    | [] => .ok (.awaitOutDir arguments)
    | '=' :: value => (arguments.setOutDir (String.ofList value)).map .done
    | value => (arguments.setOutDir (String.ofList value)).map .done
  | 'h' :: _ => .ok (.stop .help)
  | 'V' :: _ => .ok (.stop .version)
  | c :: rest =>
    match shortSwitch? c with
    | some switch => do
      let arguments ← arguments.give switch (String.ofList ['-', c])
      readShort arguments rest
    | none => .error (.unexpected (String.ofList ['-', c]))

def readLong (arguments : Arguments) (argument : String) : Except UsageFault Step :=
  match argument with
  | "--help" => .ok (.stop .help)
  | "--version" => .ok (.stop .version)
  | "--out-dir" => .ok (.awaitOutDir arguments)
  | _ =>
    match longSwitch? argument with
    | some switch => (arguments.give switch argument).map .done
    | none =>
      let name := argument.toList.takeWhile (· != '=')
      match argument.toList.dropWhile (· != '=') with
      | '=' :: value =>
        if String.ofList name = "--out-dir" then
          (arguments.setOutDir (String.ofList value)).map .done
        else .error (.unexpected argument)
      | _ => .error (.unexpected argument)

def readOne (arguments : Arguments) (argument : String) : Except UsageFault Step :=
  match argument.toList with
  | '-' :: '-' :: _ => readLong arguments argument
  | '-' :: c :: cs => readShort arguments (c :: cs)
  | _ => (arguments.setInput argument).map .done

/-- Whether an argument looks like an option, so that it is no value. -/
def isOption (argument : String) : Bool :=
  match argument.toList with
  | '-' :: _ :: _ => true
  | _ => false

/-! ### All arguments -/

/-- Reads the arguments after `--`, none of which is an option. -/
def readInputs (arguments : Arguments) : List String → Except UsageFault Request
  | [] => .ok (.compile arguments)
  | value :: rest => do
    let arguments ← arguments.setInput value
    readInputs arguments rest

/-- Reads arguments; `awaiting` tells that the output directory comes next. -/
def readFrom (awaiting : Bool) (arguments : Arguments) :
    List String → Except UsageFault Request
  | [] => if awaiting then .error (.missingValue "--out-dir <DIR>") else .ok (.compile arguments)
  | argument :: rest =>
    if awaiting then
      if isOption argument then .error (.missingValue "--out-dir <DIR>")
      else do
        let arguments ← arguments.setOutDir argument
        readFrom false arguments rest
    else if argument = "--" then readInputs arguments rest
    else do
      match ← readOne arguments argument with
      | .done arguments => readFrom false arguments rest
      | .awaitOutDir arguments => readFrom true arguments rest
      | .stop request => return request

end Arguments

def Request.read (arguments : List String) : Except UsageFault Request :=
  Arguments.readFrom false {} arguments

/-! ### Information -/

def programName : String := "hbs2jsx"

def versionText : String := programName ++ " 0.1.0\n"

/-- What the program tells about its arguments, in lines of a hundred characters. -/
def helpText : String :=
  "Compile Handlebars templates to JSX\n\nUsage: " ++ programName ++ " [OPTIONS] [INPUT]\n\n" ++
  "Arguments:\n" ++
  "  [INPUT]  Template file or directory. Reads stdin when omitted\n\n" ++
  "Options:\n" ++
  "  -o, --out-dir <DIR>           Output directory for compiled `.jsx` files (required for directory\n" ++
  "                                input)\n" ++
  "      --no-component            Emit a bare JSX expression instead of a `(props) => ...` component\n" ++
  "  -m, --module                  Export the result as the module default\n" ++
  "  -i, --include-import          Emit framework, partial and helper imports (with --module)\n" ++
  "      --always-include-context  Read template data from `props.context`\n" ++
  "  -x, --experimental            Rewrite blocks inside attributes and attribute-generating helpers\n" ++
  "      --verify                  Re-parse the generated code and fail on syntax errors\n" ++
  "  -h, --help                    Print help\n" ++
  "  -V, --version                 Print version\n"

end MustacheJsx
