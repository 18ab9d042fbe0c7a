import MustacheJsx.Text.Blank
import MustacheJsx.Text.Classes

/-!
# The smallest parts of code

Code is read from its start on. A reader answers with what follows the part that it has read, or
with nothing if the part is not there. Blanks and comments may stand between parts.

Models the tokens of the parser behind `verify_output`.
-/

namespace MustacheJsx.Jsx

/-! ### Blanks and comments -/

def isLineEnd (c : Char) : Bool := c == '\n' || c == '\r' || c == '\u2028' || c == '\u2029'

/-- The blank characters of code: all but the next-line control, and the byte order mark. -/
def isCodeBlank (c : Char) : Bool := (Text.isBlank c && c != '\u0085') || c == '\ufeff'

/-- What stands between two parts of code. -/
inductive Gap where
  | blank
  | line
  | comment

/-- Skips blanks and comments. A comment that does not end is left over. -/
def skipGap : Gap → List Char → List Char
  | .blank, [] => []
  | .line, [] => []
  | .comment, [] => ['/', '*']
  | .blank, '/' :: '/' :: cs => skipGap .line cs
  | .blank, '/' :: '*' :: cs => skipGap .comment cs
  | .blank, c :: cs => if isCodeBlank c then skipGap .blank cs else c :: cs
  | .line, c :: cs => if isLineEnd c then skipGap .blank cs else skipGap .line cs
  | .comment, '*' :: '/' :: cs => skipGap .blank cs
  | .comment, _ :: cs => skipGap .comment cs

def skip (cs : List Char) : List Char := skipGap .blank cs

def readChar (wanted : Char) (cs : List Char) : Option (List Char) :=
  match skip cs with
  | c :: rest => if c = wanted then some rest else none
  | [] => none

/-! ### Words -/

/-- The name or keyword at the start of code; there may be none. -/
def takeWord : List Char → List Char × List Char
  | [] => ([], [])
  | c :: cs =>
    if Text.isIdentifierStart c then
      (c :: cs.takeWhile Text.isIdentifierPart, cs.dropWhile Text.isIdentifierPart)
    else ([], c :: cs)

def reservedWords : List String :=
  ["break", "case", "catch", "class", "const", "continue", "debugger", "default", "delete", "do",
   "else", "enum", "export", "extends", "false", "finally", "for", "function", "if", "import", "in",
   "instanceof", "new", "null", "return", "super", "switch", "this", "throw", "true", "try",
   "typeof", "var", "void", "while", "with"]

/-- Whether a word is a name. Where code can wait, `await` is none. -/
def isName (awaits : Bool) (word : List Char) : Bool :=
  !word.isEmpty && !reservedWords.contains (String.ofList word) &&
    !(awaits && word == ['a', 'w', 'a', 'i', 't'])

def readName (awaits : Bool) (cs : List Char) : Option (List Char) :=
  let (word, rest) := takeWord (skip cs)
  if isName awaits word then some rest else none

def readWord (wanted : String) (cs : List Char) : Option (List Char) :=
  let (word, rest) := takeWord (skip cs)
  if String.ofList word = wanted then some rest else none

/-! ### Literals -/

/-- Reads a string after its opening quote. It may not hold a line end. -/
def readQuoted (quote : Char) : List Char → Option (List Char)
  | [] => none
  | '\\' :: _ :: cs => readQuoted quote cs
  | c :: cs =>
    if c = quote then some cs
    else if c = '\n' ∨ c = '\r' then none
    else readQuoted quote cs

def readString (cs : List Char) : Option (List Char) :=
  match cs with
  | '"' :: rest => readQuoted '"' rest
  | '\'' :: rest => readQuoted '\'' rest
  | _ => none

def isHexDigit (c : Char) : Bool :=
  Text.isAsciiDigit c || ('a' ≤ c && c ≤ 'f') || ('A' ≤ c && c ≤ 'F')

def readDigits (isDigit : Char → Bool) (cs : List Char) : Option (List Char) :=
  match cs with
  | c :: rest => if isDigit c then some (rest.dropWhile isDigit) else none
  | [] => none

def readExponent (cs : List Char) : Option (List Char) :=
  match cs with
  | 'e' :: rest => signed rest
  | 'E' :: rest => signed rest
  | _ => some cs
where
  /-- Reads digits after a sign or without one. -/
  signed (cs : List Char) : Option (List Char) :=
    match cs with
    | '+' :: rest => readDigits Text.isAsciiDigit rest
    | '-' :: rest => readDigits Text.isAsciiDigit rest
    | _ => readDigits Text.isAsciiDigit cs

def readNumeral (cs : List Char) : Option (List Char) :=
  match cs with
  | '0' :: 'x' :: rest => readDigits isHexDigit rest
  | '0' :: 'X' :: rest => readDigits isHexDigit rest
  | '.' :: rest => do readExponent (← readDigits Text.isAsciiDigit rest)
  | _ => do
    let rest ← readDigits Text.isAsciiDigit cs
    match rest with
    | '.' :: places => readExponent (places.dropWhile Text.isAsciiDigit)
    | _ => readExponent rest

/-- Reads a number. No name may follow it without a blank. -/
def readNumber (cs : List Char) : Option (List Char) := do
  let rest ← readNumeral cs
  match rest with
  | c :: _ => if Text.isIdentifierStart c || c == '\\' then none else some rest
  | [] => some rest

/-! ### Operators -/

def operators : List String :=
  [">>>=", "...", "===", "!==", "**=", "<<=", ">>=", ">>>", "&&=", "||=", "??=", "=>", "==", "!=",
   "<=", ">=", "&&", "||", "??", "?.", "++", "--", "+=", "-=", "*=", "/=", "%=", "&=", "|=", "^=",
   "<<", ">>", "**", "+", "-", "*", "/", "%", "&", "|", "^", "!", "~", "<", ">", "=", "?"]

def operator? (cs : List Char) : Option (String × List Char) :=
  operators.findSome? fun op => (Text.afterLead? op.toList cs).map (op, ·)

def isAssignment (op : String) : Bool :=
  ["=", "+=", "-=", "*=", "/=", "%=", "**=", "<<=", ">>=", ">>>=", "&=", "|=", "^=", "&&=", "||=",
   "??="].contains op

def isBinary (op : String) : Bool :=
  ["+", "-", "*", "/", "%", "**", "==", "!=", "===", "!==", "<", ">", "<=", ">=", "<<", ">>", ">>>",
   "&", "|", "^", "&&", "||", "??"].contains op

/-- The operator between two operands at the start of code; two of them are words. -/
def binary? (cs : List Char) : Option (String × List Char) :=
  let (word, rest) := takeWord cs
  if word = ['i', 'n'] then some ("in", rest)
  else if word = "instanceof".toList then some ("instanceof", rest)
  else
    match operator? cs with
    | some (op, rest) => if isBinary op then some (op, rest) else none
    | none => none

/-- What stands before an operand: the answer tells whether it changes the operand. -/
def leading? (awaits : Bool) (cs : List Char) : Option (Bool × List Char) :=
  let (word, rest) := takeWord cs
  if ["typeof", "void", "delete"].contains (String.ofList word) ||
      (awaits && word == ['a', 'w', 'a', 'i', 't']) then some (false, rest)
  else
    match operator? cs with
    | some (op, rest) =>
      if op = "++" ∨ op = "--" then some (true, rest)
      else if ["+", "-", "!", "~"].contains op then some (false, rest)
      else none
    | none => none

def readSpread (cs : List Char) : Option (List Char) := Text.afterLead? ['.', '.', '.'] (skip cs)

def skipSpread (cs : List Char) : List Char := (readSpread cs).getD cs

/-- Reads the end of a statement: a semicolon, or nothing before the end of a line, of a block or of
the code. -/
def readEnd (cs : List Char) : Option (List Char) :=
  let rest := skip cs
  match rest with
  | ';' :: rest => some rest
  | [] => some []
  | '}' :: _ => some rest
  | _ => if (cs.take (cs.length - rest.length)).any isLineEnd then some rest else none

/-! ### Names of elements -/

/-- The name part at the start of code: like a name, but with hyphens, and any word will do. -/
def takeTagWord : List Char → List Char × List Char
  | [] => ([], [])
  | c :: cs =>
    if Text.isIdentifierStart c then
      let isPart (d : Char) : Bool := Text.isIdentifierPart d || d == '-'
      (c :: cs.takeWhile isPart, cs.dropWhile isPart)
    else ([], c :: cs)

def readTagWord (cs : List Char) : Option (List Char × List Char) :=
  let (word, rest) := takeTagWord (skip cs)
  if word.isEmpty then none else some (word, rest)

def readAttributeName (cs : List Char) : Option (List (List Char) × List Char) := do
  let (first, rest) ← readTagWord cs
  match readChar ':' rest with
  | some more => do
    let (second, rest) ← readTagWord more
    return ([first, [':'], second], rest)
  | none => return ([first], rest)

def readMembers : Nat → List Char → Option (List (List Char) × List Char)
  | 0, _ => none
  | fuel + 1, cs =>
    match readChar '.' cs with
    | none => some ([], cs)
    | some more => do
      let (word, rest) ← readTagWord more
      let (words, rest) ← readMembers fuel rest
      return (word :: words, rest)

/-- Reads the name of an element: that of an attribute, or parts with points between them. -/
def readTagName (cs : List Char) : Option (List (List Char) × List Char) := do
  let (name, rest) ← readAttributeName cs
  match name with
  | [first] => do
    let (members, rest) ← readMembers (rest.length + 1) rest
    return (first :: members, rest)
  | _ => return (name, rest)

end MustacheJsx.Jsx
