import MustacheJsx.Extraction.Naming
import MustacheJsx.Text.Cut

/-!
# Conditional blocks in the text of a tag

The tags of `if` and `unless` blocks are recognised in text: their openings with a condition, their
ends, plain mustaches and the beginnings of other branches.

Models the patterns `CONTAINS_BLOCK_RE`, `VALUE_BLOCK_RE`, `CHILD_MUSTACHE_RE` and `INVERSE_RE`,
each as it is matched at a place of the text.
-/

namespace MustacheJsx

/-- The opening of a conditional block. -/
structure BlockOpening where
  negated : Bool
  condition : List Char
  deriving DecidableEq

namespace BlockOpening

def word? (cs : List Char) : Option (Bool × List Char) :=
  match Text.afterLead? ['i', 'f'] cs with
  | some rest => some (false, rest)
  | none => (Text.afterLead? ['u', 'n', 'l', 'e', 's', 's'] cs).map (true, ·)

/-- The opening at the start of `cs`, and what follows it. Its condition holds no closing brace. -/
def at? (cs : List Char) : Option (BlockOpening × List Char) := do
  let rest ← Text.afterLead? ['{', '{', '#'] cs
  let (negated, rest) ← word? rest
  if rest.head?.any Text.isBlank then
    let condition := Text.trim (rest.takeWhile (· != '}'))
    let after ← Text.afterLead? ['}', '}'] (rest.dropWhile (· != '}'))
    return ({ negated, condition }, after)
  else none

/-- The last opening before the first closing brace: what is before it, and what follows it. -/
def last? : List Char → Option (List Char × BlockOpening × List Char)
  | [] => none
  | c :: cs =>
    if c = '}' then none
    else
      match last? cs with
      | some (lead, found) => some (c :: lead, found)
      | none => (at? (c :: cs)).map ([], ·)

end BlockOpening

/-- The end of a block at the start of `cs`: whether that of `unless`, and what follows it. -/
def blockEnd? (cs : List Char) : Option (Bool × List Char) := do
  let rest ← Text.afterLead? ['{', '{', '/'] cs
  let (negated, rest) ← BlockOpening.word? rest
  let after ← Text.afterLead? ['}', '}'] (Text.trimStart rest)
  return (negated, after)

/-- The end of a block after which no opening brace comes: what is before it, whether it is that of
`unless`, and what follows it. -/
def lastBlockEnd? : List Char → Option (List Char × Bool × List Char)
  | [] => none
  | c :: cs =>
    match lastBlockEnd? cs with
    | some (body, found) => some (c :: body, found)
    | none =>
      match blockEnd? (c :: cs) with
      | some (negated, rest) => if rest.contains '{' then none else some ([], negated, rest)
      | none => none

def hasBlock (cs : List Char) : Bool :=
  let found := do
    let (_, rest) ← Text.cutAt? ['{', '{'] cs
    let (_, rest) ← Text.cutAt? ['}', '}'] rest
    let (_, rest) ← Text.cutAt? ['{', '{', '/'] rest
    Text.cutAt? ['}', '}'] rest
  found.isSome

/-- A plain mustache at the start of `cs`: its path, and what follows it. -/
def plainMustache? (cs : List Char) : Option (List Char × List Char) := do
  let rest ← Text.afterLead? ['{', '{'] cs
  let rest := Text.trimStart rest
  let (mark, rest) := match rest with
    | '@' :: rest => (['@'], rest)
    | _ => ([], rest)
  let segments := rest.takeWhile isPathChar
  if segments.isEmpty then none
  else do
    let after ← Text.afterLead? ['}', '}'] (Text.trimStart (rest.dropWhile isPathChar))
    return (mark ++ segments, after)

def opensBranch (cs : List Char) : Bool :=
  match Text.afterLead? ['{', '{'] cs with
  | none => false
  | some rest =>
    let rest := match rest with
      | '~' :: rest => rest
      | _ => rest
    match Text.trimStart rest with
    | '^' :: _ => true
    | rest =>
      match Text.afterLead? ['e', 'l', 's', 'e'] rest with
      | some after => !after.head?.any Text.isWordChar
      | none => false

def hasBranch : List Char → Bool
  | [] => false
  | c :: cs => opensBranch (c :: cs) || hasBranch cs

end MustacheJsx
