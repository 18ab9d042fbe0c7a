import MustacheJsx.Text.Blank

/-!
# Reading JSON text

JSON is read piece by piece: blanks, strings, and whole values that are skipped without being
decoded. `skipValue` accepts any well-formed value, however deep, whatever the size of its numbers;
in strings that are skipped an escaped surrogate may stand alone. `readString` decodes a string and
then wants its surrogates in pairs. Each reader returns what follows.

Models the reading of text under `from_json`.
-/

namespace MustacheJsx.Json

/-! ### Blanks and words -/

def isBlank (c : Char) : Bool := c == ' ' || c == '\n' || c == '\t' || c == '\r'

def skipBlanks (cs : List Char) : List Char := cs.dropWhile isBlank

def isDigit (c : Char) : Bool := '0' ≤ c && c ≤ '9'

/-! ### Numbers -/

def skipDigits (cs : List Char) : Option (List Char) :=
  match cs with
  | c :: rest => if isDigit c then some (rest.dropWhile isDigit) else none
  | [] => none

def skipExponent : List Char → Option (List Char)
  | 'e' :: '+' :: rest | 'e' :: '-' :: rest | 'E' :: '+' :: rest | 'E' :: '-' :: rest
  | 'e' :: rest | 'E' :: rest => skipDigits rest
  | cs => some cs

def skipFraction : List Char → Option (List Char)
  | '.' :: rest => (skipDigits rest).bind skipExponent
  | cs => skipExponent cs

/-- Drops a number without its sign. No digit may follow a leading zero. -/
def skipNumber : List Char → Option (List Char)
  | '0' :: c :: rest => if isDigit c then none else skipFraction (c :: rest)
  | cs => (skipDigits cs).bind skipFraction

/-! ### Strings -/

def hexValue? (c : Char) : Option Nat :=
  if isDigit c then some (c.toNat - '0'.toNat)
  else if 'a' ≤ c ∧ c ≤ 'f' then some (c.toNat - 'a'.toNat + 10)
  else if 'A' ≤ c ∧ c ≤ 'F' then some (c.toNat - 'A'.toNat + 10)
  else none

def unit? (a b c d : Char) : Option Nat := do
  return ((← hexValue? a) * 16 + (← hexValue? b)) * 256 + (← hexValue? c) * 16 + (← hexValue? d)

/-- Drops the rest of a string after its opening quote. Control characters must be escaped. -/
def skipString : List Char → Option (List Char)
  | [] => none
  | '"' :: rest => some rest
  | '\\' :: 'u' :: a :: b :: c :: d :: rest =>
    if (unit? a b c d).isSome then skipString rest else none
  | '\\' :: c :: rest =>
    if ['"', '\\', '/', 'b', 'f', 'n', 'r', 't'].contains c then skipString rest else none
  | c :: rest => if c.toNat < 32 ∨ c = '\\' then none else skipString rest

def escaped? (c : Char) : Option Char :=
  match c with
  | '"' => some '"'
  | '\\' => some '\\'
  | '/' => some '/'
  | 'b' => some '\x08'
  | 'f' => some '\x0c'
  | 'n' => some '\n'
  | 'r' => some '\r'
  | 't' => some '\t'
  | _ => none

def readString : List Char → Option (List Char × List Char)
  | [] => none
  | '"' :: rest => some ([], rest)
  | '\\' :: 'u' :: a :: b :: c :: d :: '\\' :: 'u' :: a' :: b' :: c' :: d' :: rest => do
    let high ← unit? a b c d
    if 0xD800 ≤ high ∧ high ≤ 0xDBFF then
      let low ← unit? a' b' c' d'
      if 0xDC00 ≤ low ∧ low ≤ 0xDFFF then
        let (value, rest) ← readString rest
        return (Char.ofNat ((high - 0xD800) * 0x400 + (low - 0xDC00) + 0x10000) :: value, rest)
      else none
    else if 0xDC00 ≤ high ∧ high ≤ 0xDFFF then none
    else
      let (value, rest) ← readString ('\\' :: 'u' :: a' :: b' :: c' :: d' :: rest)
      return (Char.ofNat high :: value, rest)
  | '\\' :: 'u' :: a :: b :: c :: d :: rest => do
    let n ← unit? a b c d
    if 0xD800 ≤ n ∧ n ≤ 0xDFFF then none
    else
      let (value, rest) ← readString rest
      return (Char.ofNat n :: value, rest)
  | '\\' :: c :: rest => do
    let c ← escaped? c
    let (value, rest) ← readString rest
    return (c :: value, rest)
  | c :: rest =>
    if c.toNat < 32 ∨ c = '\\' then none
    else (readString rest).map fun (value, rest) => (c :: value, rest)

/-! ### Values -/

/-- What may come next in a value that is skipped. -/
inductive Expecting where
  | value
  | valueOrEnd
  | keyOrEnd
  | key
  | commaOrEnd
  deriving DecidableEq

def skipKey : List Char → Option (List Char)
  | '"' :: rest => do
    match skipBlanks (← skipString rest) with
    | ':' :: rest => some rest
    | _ => none
  | _ => none

def skipScalar : List Char → Option (List Char)
  | '"' :: rest => skipString rest
  | '-' :: rest => skipNumber rest
  | 't' :: 'r' :: 'u' :: 'e' :: rest => some rest
  | 'f' :: 'a' :: 'l' :: 's' :: 'e' :: rest => some rest
  | 'n' :: 'u' :: 'l' :: 'l' :: rest => some rest
  | cs => skipNumber cs

/-- Drops a value. `open_` are the closing brackets that are due, the innermost first. -/
def skipFrom : Nat → List Char → Expecting → List Char → Option (List Char)
  | 0, _, _, _ => none
  | fuel + 1, open_, expecting, cs =>
    match expecting, open_, skipBlanks cs with
    | .commaOrEnd, [], _ => some cs
    | .commaOrEnd, close :: open_, c :: rest =>
      if c = close then skipFrom fuel open_ .commaOrEnd rest
      else if c = ',' then
        skipFrom fuel (close :: open_) (if close = '}' then .key else .value) rest
      else none
    | .valueOrEnd, close :: open_, c :: rest =>
      if c = close then skipFrom fuel open_ .commaOrEnd rest
      else skipFrom fuel (close :: open_) .value (c :: rest)
    | .keyOrEnd, close :: open_, c :: rest =>
      if c = close then skipFrom fuel open_ .commaOrEnd rest
      else skipFrom fuel (close :: open_) .key (c :: rest)
    | .key, open_, cs => (skipKey cs).bind (skipFrom fuel open_ .value)
    | .value, open_, '[' :: rest => skipFrom fuel (']' :: open_) .valueOrEnd rest
    | .value, open_, '{' :: rest => skipFrom fuel ('}' :: open_) .keyOrEnd rest
    | .value, open_, cs => (skipScalar cs).bind (skipFrom fuel open_ .commaOrEnd)
    | _, _, _ => none

/-- Drops a value. Of every two steps one goes past a character. -/
def skipValue (cs : List Char) : Option (List Char) := skipFrom (2 * cs.length + 2) [] .value cs

end MustacheJsx.Json
