import MustacheJsx.Mustache.Path

/-!
# Reading expressions

The inside of a mustache is a head followed by positional arguments and then named ones. An argument
is a string, a literal, a path, or a helper call in parentheses. A reader returns what it read and
the characters after it. When it fails it tells the characters that were left, which fixes the
position; path numbers that were handed out before a failure stay used.

Models `parse_call`, `parse_arguments`, `at_block_params`, `try_hash_key`, `parse_expression`,
`parse_string`, `read_token` and `NUMBER_RE`.
-/

namespace MustacheJsx

/-- Why reading failed, and the characters that were left there. -/
structure Halt where
  fault : SyntaxFault
  rest : List Char
  deriving DecidableEq

abbrev ReadM := ExceptT Halt (StateM Nat)

def nextId : ReadM Nat := modifyGet fun n => (n, n + 1)

def halt {α : Type} (fault : SyntaxFault) (rest : List Char) : ReadM α := throw { fault, rest }

namespace Expression

/-! ### Tokens -/

def endsToken (c : Char) : Bool :=
  Text.isBlank c || c == '(' || c == ')' || c == '=' || c == '|' || c == '}'

/-- A bare token and what follows it. Between brackets any character may stand. -/
def takeToken (bracket : Bool) : List Char → List Char × List Char
  | [] => ([], [])
  | c :: cs =>
    if bracket then
      let (token, rest) := takeToken (c != ']') cs
      (c :: token, rest)
    else if c = '[' then
      let (token, rest) := takeToken true cs
      (c :: token, rest)
    else if endsToken c then ([], c :: cs)
    else
      let (token, rest) := takeToken false cs
      (c :: token, rest)

theorem takeToken_append (bracket : Bool) (cs : List Char) :
    (takeToken bracket cs).1 ++ (takeToken bracket cs).2 = cs := by
  induction cs generalizing bracket with
  | nil => rfl
  | cons c cs ih =>
    rw [takeToken]
    split
    · simp [ih]
    · split
      · simp [ih]
      · split <;> simp [ih]

/-- The value of a string literal after its opening quote, and what follows the closing one. A
backslash stands for the character after it. -/
def takeString (quote : Char) : List Char → Option (List Char × List Char)
  | [] => none
  | '\\' :: [] => none
  | '\\' :: c :: cs => (takeString quote cs).map fun (value, rest) => (c :: value, rest)
  | c :: cs =>
    if c = quote then some ([], cs)
    else (takeString quote cs).map fun (value, rest) => (c :: value, rest)

def readString (quote : Char) (cs : List Char) : ReadM (String × List Char) :=
  match takeString quote cs with
  | some (value, rest) => pure (String.ofList value, rest)
  | none => halt .unterminatedString []

def number? (token : List Char) : Option Double :=
  let (negative, digits) := match token with
    | '-' :: rest => (true, rest)
    | rest => (false, rest)
  let whole := digits.takeWhile Text.isAsciiDigit
  match whole, digits.dropWhile Text.isAsciiDigit with
  | [], _ => none
  | _, [] => some (Double.ofDecimal negative (Double.digitsValue whole) 0)
  | _, '.' :: places =>
    if !places.isEmpty && places.all Text.isAsciiDigit then
      some (Double.ofDecimal negative (Double.digitsValue (whole ++ places)) places.length)
    else none
  | _, _ => none

def literal? (token : List Char) : Option Literal :=
  if token = "true".toList then some (.boolean true)
  else if token = "false".toList then some (.boolean false)
  else if token = "null".toList then some .null
  else if token = "undefined".toList then some .undefined
  else (number? token).map .number

/-- Reads a bare token: a literal, or a path with a number of its own. -/
def readBare (cs : List Char) : ReadM (Expression × List Char) := do
  let (token, rest) := takeToken false cs
  if token.isEmpty then halt .expectedExpression rest
  else
    match literal? token with
    | some value => pure (.literal value, rest)
    | none =>
      let id ← nextId
      match Path.ofToken? id token with
      | some p => pure (.path p, rest)
      | none => halt (.invalidPath (String.ofList token)) cs

/-! ### Named arguments and block parameters -/

def isKeyChar (c : Char) : Bool := Text.isAlphanumeric c || c == '_' || c == '-' || c == '@'

def takeKey? (cs : List Char) : Option (String × List Char) :=
  let key := cs.takeWhile isKeyChar
  match Text.trimStart (cs.dropWhile isKeyChar) with
  | '=' :: rest => if key.isEmpty then none else some (String.ofList key, Text.trimStart rest)
  | _ => none

def atBlockParameters (cs : List Char) : Bool :=
  match cs with
  | 'a' :: 's' :: c :: rest => Text.isBlank c && (Text.trimStart rest).head? == some '|'
  | _ => false

/-! ### Expressions and arguments -/

mutual

/-- Reads one expression; `fuel` bounds the nesting and the number of arguments. -/
def readWith : Nat → List Char → ReadM (Expression × List Char)
  | 0, cs => halt .expectedExpression cs
  | fuel + 1, cs =>
    match cs with
    | '(' :: cs => do
      let (callee, rest) ← readWith fuel (Text.trimStart cs)
      let (params, hash, rest) ← readArguments fuel false rest
      match Text.trimStart rest with
      | ')' :: rest => pure (.call callee params hash, rest)
      | _ :: rest => halt .unterminatedCall rest
      | [] => halt .unterminatedCall []
    | '"' :: cs => do
      let (value, rest) ← readString '"' cs
      pure (.literal (.string value), rest)
    | '\'' :: cs => do
      let (value, rest) ← readString '\'' cs
      pure (.literal (.string value), rest)
    | cs => readBare cs

/-- Reads arguments up to the end or a closing parenthesis. After a named argument (`named`) no
positional one may stand. -/
def readArguments : Nat → Bool → List Char → ReadM (List Expression × Hash × List Char)
  | 0, _, cs => halt .expectedExpression cs
  | fuel + 1, named, cs =>
    match Text.trimStart cs with
    | [] => pure ([], [], [])
    | ')' :: rest => pure ([], [], ')' :: rest)
    | rest => do
      if atBlockParameters rest then halt .blockParameters rest
      else
        match takeKey? rest with
        | some (key, rest) =>
          let (value, rest) ← readWith fuel rest
          let (params, hash, rest) ← readArguments fuel true rest
          pure (params, (key, value) :: hash, rest)
        | none =>
          if named then halt .positionalAfterHash rest
          else
            let (param, rest) ← readWith fuel rest
            let (params, hash, rest) ← readArguments fuel false rest
            pure (param :: params, hash, rest)

end

/-- As many steps as a reading of `cs` can nest: each but the last two goes past a character. -/
def fuelFor (cs : List Char) : Nat := cs.length + 2

def readCall (cs : List Char) : ReadM (Expression × List Expression × Hash) := do
  let (head, rest) ← readWith (fuelFor cs) (Text.trimStart cs)
  let (params, hash, rest) ← readArguments (fuelFor cs) false rest
  match rest with
  | [] => pure (head, params, hash)
  | c :: _ => halt (.unexpected c) rest

end Expression

end MustacheJsx
