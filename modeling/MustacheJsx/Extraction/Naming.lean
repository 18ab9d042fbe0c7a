import MustacheJsx.Text.Classes
import MustacheJsx.Text.Blank

/-!
# Names of helpers and of their parameters

A helper is named after the attribute and the block that it stands for, a parameter after the last
segment of the path that it takes. A name that is taken gets the next free number.

Models `HelperNames` with `unique`, `helper_base_name`, `NAME_SEPARATOR_RE`, `capitalize`,
`lowercase_first`, `CONDITION_PATH_RE`, `RESERVED` and `param_name`.
-/

namespace MustacheJsx

/-! ### Free names -/

abbrev HelperNames := List String

namespace HelperNames

/-- The candidates for a name: the name itself, and then the name with 2, 3 and so on. -/
def candidate (base : String) : Nat → String
  | 0 => base
  | n + 1 => base ++ (n + 2).repr

/-- The first candidate from the `n`th on that is free; after `fuel` of them the next one is. -/
def firstFree (taken : HelperNames) (base : String) (n : Nat) : Nat → String
  | 0 => candidate base n
  | fuel + 1 =>
    if taken.contains (candidate base n) then firstFree taken base (n + 1) fuel
    else candidate base n

/-- A free name, which is taken from now on. So many names are taken that not all candidates are. -/
def unique (taken : HelperNames) (base : String) : String × HelperNames :=
  let name := firstFree taken base 0 taken.length
  (name, name :: taken)

end HelperNames

/-! ### Names after attributes -/

/-- A name in small letters without the characters that a helper may not have. A letter after
hyphens or colons becomes a capital. -/
def camelName (capital : Bool) : List Char → List Char
  | [] => []
  | c :: cs =>
    if c = '-' ∨ c = ':' then camelName true cs
    else if Text.isAsciiAlphanumeric c then
      (if capital then c.toUpper else c) :: camelName false cs
    else if c = '_' then c :: camelName false cs
    else camelName false cs

/-- What a block is called: `if`, or `unless` when it is negated. -/
def conditionName (negated : Bool) : String := if negated then "unless" else "if"

def helperBase (name : List Char) (negated : Bool) : String :=
  String.ofList (camelName false (name.flatMap Text.smallForm)) ++
    (if negated then "Unless" else "If") ++ "Helper"

/-! ### Names after paths -/

def reservedNames : List String :=
  ["this", "class", "default", "delete", "new", "function", "return", "var", "let", "const",
   "if", "else", "for", "while", "do", "in", "of", "typeof", "void", "null", "true", "false",
   "undefined", "switch", "case", "break", "continue", "with", "yield", "await", "import",
   "export", "extends", "super", "throw", "try", "catch", "finally", "instanceof", "enum"]

def isPathChar (c : Char) : Bool := Text.isWordChar c || c == '.'

def isPlainPath (argument : List Char) : Bool :=
  let segments := match argument with
    | '@' :: rest => rest
    | _ => argument
  !segments.isEmpty && segments.all isPathChar

def smallFirst : List Char → List Char
  | [] => []
  | c :: cs => Text.smallForm c ++ cs

/-- The parameter for an argument: its last segment with a small first letter, or else
`fallback`. -/
def paramName (argument : List Char) (fallback : String) : String :=
  if isPlainPath argument then
    let last := ((Text.splitOn '.' argument).getLast?.getD []).dropWhile (· == '@')
    let name := smallFirst last
    if Text.isIdentifier name && !reservedNames.contains (String.ofList name) then
      String.ofList name
    else fallback
  else fallback

end MustacheJsx
