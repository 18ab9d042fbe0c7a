import MustacheJsx.Mustache.Expression

/-!
# Reading a tag

A tag is what stands between the braces of a mustache. Its first character tells its kind: a
comment, the opening or the end of a block, a partial, an `else`, or a value. `Tag.read` gives the
position of a fault in bytes of the template.

Models `MustacheTag`, `parse_tag`, `parse_block_open` and `parse_partial`.
-/

namespace MustacheJsx

/-- The inside of a mustache. -/
inductive Tag where
  | expression (mustache : Mustache)
  | comment (value : String)
  | partialCall (call : PartialCall)
  | openBlock (head : BlockHead)
  /-- `else`, or `else if …` with the head of a chained block. -/
  | elseBranch (chain : Option BlockHead)
  | closeBlock (name : String)

namespace Tag

/-! ### Comments -/

/-- The text of a comment after its `!`: dashes around it belong to the delimiters if they stand on
both sides. -/
def commentText (cs : List Char) : List Char :=
  match cs with
  | '-' :: '-' :: rest =>
    match rest.reverse with
    | '-' :: '-' :: inner => inner.reverse
    | _ => cs
  | _ => cs

/-! ### Values, blocks and partials -/

def readMustache (trusting : Bool) (cs : List Char) : ReadM Tag := do
  let (callee, params, hash) ← Expression.readCall cs
  pure (.expression { callee, params, hash, trusting })

def readBlockHead (cs : List Char) : ReadM BlockHead := do
  let (head, params, hash) ← Expression.readCall cs
  match head with
  | .path path => pure { path, params, hash }
  | other => halt (.blockNameKind other.kind) []

def readPartialName (cs : List Char) : ReadM (String × List Char) :=
  match Text.trimStart cs with
  | '(' :: rest => halt .dynamicPartial ('(' :: rest)
  | '"' :: rest => Expression.readString '"' rest
  | '\'' :: rest => Expression.readString '\'' rest
  | rest =>
    let (name, rest) := Expression.takeToken false rest
    pure (String.ofList name, rest)

def readPartial (cs : List Char) : ReadM Tag := do
  let (name, rest) ← readPartialName cs
  if name.isEmpty then halt .partialWithoutName rest
  else
    let (params, hash, rest) ← Expression.readArguments (Expression.fuelFor rest) false rest
    match rest with
    | [] => pure (.partialCall { name, params, hash })
    | c :: _ => halt (.unexpected c) rest

/-! ### Tags -/

def readTrimmed (cs : List Char) : ReadM Tag :=
  match cs with
  | [] => halt .emptyMustache []
  | '#' :: rest =>
    match rest with
    | '>' :: _ => halt .partialBlock cs
    | '*' :: _ => halt .partialBlock cs
    | _ => do return .openBlock (← readBlockHead rest)
  | '/' :: rest =>
    let name := Text.trim rest
    if name.isEmpty then halt .closingTagWithoutName cs
    else pure (.closeBlock (String.ofList name))
  | '>' :: rest => readPartial rest
  | '^' :: rest =>
    if (Text.trim rest).isEmpty then pure (.elseBranch none) else halt .invertedSection cs
  | '&' :: rest => readMustache true rest
  | _ =>
    if cs = "else".toList then pure (.elseBranch none)
    else
      match Text.afterLead? "else ".toList cs with
      | some rest => do return .elseBranch (some (← readBlockHead rest))
      | none => readMustache false cs

/-- Reads the inside of a mustache that stands at a byte offset of the template. `trusting`
mustaches are always values. The second component is the next free path number. -/
def read (content : List Char) (trusting : Bool) (offset next : Nat) :
    Except CompileError Tag × Nat :=
  match content with
  | '!' :: rest => (.ok (.comment (String.ofList (commentText rest))), next)
  | _ =>
    let trimmed := Text.trim content
    let start := offset + (Text.utf8Length content - Text.utf8Length (Text.trimStart content))
    let reader := if trusting then readMustache true trimmed else readTrimmed trimmed
    match reader.run next with
    | (.ok tag, next) => (.ok tag, next)
    | (.error stop, next) =>
      let position := start + (Text.utf8Length trimmed - Text.utf8Length stop.rest)
      (.error (.parse stop.fault position), next)

theorem read_comment (cs : List Char) (trusting : Bool) (offset next : Nat) :
    read ('!' :: cs) trusting offset next =
      (.ok (.comment (String.ofList (commentText cs))), next) := rfl

end Tag

end MustacheJsx
