import MustacheJsx.Lifted.Basic
import MustacheJsx.Mustache.Span

/-!
# Lifting the tags out of a template

The source is read once, from left to right. `Lifting` knows the blocks that are open and, inside an
opening tag, where in an attribute it is. Tags and attribute names lose their capitals when markup
is read, so an opening tag takes its spellings along in attributes of its own.

Models `ValueState`, `OpenTag` with `end_attribute_name` and `close`, `normalize_mustaches`,
`emit_text_mustache`, `emit_tag_mustache` and `trim_trailing_whitespace`.
-/

namespace MustacheJsx

/-! ### Inside an opening tag -/

/-- Where in an attribute the reader is. -/
inductive ValuePosition where
  | none
  | afterEquals
  | unquoted
  | quoted (quote : Char)
  deriving DecidableEq

/-- The opening tag being read. -/
structure OpenTag where
  name : List Char
  position : ValuePosition
  /-- The attribute name being read, in reverse. -/
  key : List Char
  /-- The attribute names with capitals, in reverse order. -/
  cased : List (List Char)

namespace OpenTag

def endName (tag : OpenTag) : OpenTag :=
  let key := tag.key.reverse
  { tag with
    key := []
    cased := if key.any Text.isAsciiUpper then key :: tag.cased else tag.cased }

def spellings (tag : OpenTag) : List Char :=
  let cased := tag.endName.cased.reverse
  if cased.isEmpty then []
  else
    ' ' :: attributeSpellings.toList ++ ['=', '"'] ++ Text.joinWith ' ' cased ++ ['"']

/-- What a character outside quotes does to the tag, `>` and the end `/>` apart. -/
def after (tag : OpenTag) (c : Char) : OpenTag :=
  if (c = '"' ∨ c = '\'') ∧ tag.position = .afterEquals then { tag with position := .quoted c }
  else if c = '=' then { tag.endName with position := .afterEquals }
  else if Text.isBlank c then
    match tag.position with
    | .unquoted => { tag with position := .none }
    | .none => tag.endName
    | _ => tag
  else if c = '/' ∧ tag.position = .none then tag.endName
  else
    match tag.position with
    | .afterEquals => { tag with position := .unquoted }
    | .none => { tag with key := c :: tag.key }
    | _ => tag

end OpenTag

/-! ### The state of lifting -/

/-- What is known between two characters of the source. -/
structure Lifting where
  /-- The markup written so far, in reverse. -/
  markup : List Char := []
  /-- The tags lifted out so far, in reverse. -/
  placeholders : List Placeholder := []
  unquoted : List Nat := []
  /-- The names of the open blocks, the innermost first. -/
  blocks : List String := []
  tag : Option OpenTag := none
  /-- The next free path number. -/
  next : Nat := 0

namespace Lifting

def write (st : Lifting) (cs : List Char) : Lifting :=
  { st with markup := cs.reverse ++ st.markup }

/-- Stores a tag; its index is the number of tags before it. -/
def store (st : Lifting) (placeholder : Placeholder) : Lifting × Nat :=
  ({ st with placeholders := placeholder :: st.placeholders }, st.placeholders.length)

def writeHole (marker : Char) (st : Lifting) (placeholder : Placeholder) : Lifting :=
  let (st, index) := st.store placeholder
  st.write (placeholderText marker index)

/-- The start tag of an element that stands for a block or an `else if`. -/
def numberedTag (tag : String) (index : Nat) : List Char :=
  '<' :: tag.toList ++ ' ' :: numberAttribute.toList ++ ['=', '"'] ++ Nat.toDigits 10 index ++
    ['"', '>']

def writeInText (marker : Char) (st : Lifting) : Tag → Except SyntaxFault Lifting
  | .expression m => .ok (st.writeHole marker (.expression m))
  | .partialCall call => .ok (st.writeHole marker (.partialCall call))
  | .comment value =>
    let (st, index) := st.store (.comment value)
    .ok (st.write ("<!--".toList ++ placeholderText marker index ++ "-->".toList))
  | .openBlock head =>
    let (st, index) := st.store (.block head)
    .ok { st.write (numberedTag blockTag index) with blocks := head.name :: st.blocks }
  | .elseBranch chain =>
    if st.blocks.isEmpty then .error .elseOutsideBlock
    else
      match chain with
      | some head =>
        let (st, index) := st.store (.elseIf head)
        .ok (st.write (numberedTag elseTag index))
      | none => .ok (st.write ('<' :: elseTag.toList ++ ['>']))
  | .closeBlock name =>
    match st.blocks with
    | [] => .error (.closeWithoutBlock name)
    | opened :: blocks =>
      if opened = name then
        .ok { st.write ('<' :: '/' :: blockTag.toList ++ ['>']) with blocks }
      else .error (.closeMismatch name opened)

/-- Writes a tag that stands inside an opening tag, where only values have a place: in quotes, in an
unquoted value, or as the whole of a value, which then gets quotes. -/
def writeInTag (marker : Char) (st : Lifting) (open_ : OpenTag) :
    Tag → Except SyntaxFault Lifting
  | .comment _ => .ok st
  | .expression m =>
    match open_.position with
    | .afterEquals =>
      let (st, index) := st.store (.expression m)
      .ok { st.write ('"' :: placeholderText marker index ++ ['"']) with
            unquoted := index :: st.unquoted
            tag := some { open_ with position := .none } }
    | .none => .error (.mustacheBetweenAttributes (String.ofList open_.name))
    | _ => .ok (st.writeHole marker (.expression m))
  | .partialCall _ => .error (.partialInTag (String.ofList open_.name))
  | _ => .error (.blockInTag (String.ofList open_.name))

/-! ### Steps -/

/-- Reads the mustache at the start of `cs`, which stands at `offset`. -/
def stepMustache (marker : Char) (st : Lifting) (cs : List Char) (offset : Nat) :
    Except CompileError (Lifting × Nat) := do
  let span ← (Span.read cs).mapError fun fault => .parse fault offset
  let (tag, next) := Tag.read span.content span.trusting (offset + span.lead) st.next
  let tag ← tag
  let st := { st with next }
  let written ← match st.tag with
    | none =>
      let markup := if span.stripLeft then st.markup.dropWhile Text.isBlank else st.markup
      (writeInText marker { st with markup } tag).mapError fun fault => .parse fault offset
    | some open_ => (writeInTag marker st open_ tag).mapError fun fault => .parse fault offset
  let rest := if span.stripRight && st.tag.isNone then Text.trimStart span.rest else span.rest
  return (written, cs.length - rest.length)

def endsTagName (c : Char) : Bool := Text.isBlank c || c == '/' || c == '>' || c == '{'

def openTag (st : Lifting) (cs : List Char) : Lifting × Nat :=
  let name := cs.takeWhile fun c => !endsTagName c
  let spelling :=
    if name.any Text.isAsciiUpper then
      ' ' :: tagSpelling.toList ++ ['=', '"'] ++ name ++ ['"']
    else []
  ({ st.write ('<' :: name ++ spelling) with
      tag := some { name, position := .none, key := [], cased := [] } },
    name.length + 1)

/-- Reads text: a comment as a whole, the beginning of an opening tag, or one character. -/
def stepText (st : Lifting) (c : Char) (cs : List Char) : Lifting × Nat :=
  match Text.afterLead? "<!--".toList (c :: cs), c, cs with
  | some _, _, _ =>
    match Text.cutAt? "-->".toList (c :: cs) with
    | some (before, _) => (st.write (before ++ "-->".toList), before.length + 3)
    | none => (st.write (c :: cs), cs.length + 1)
  | none, '<', d :: _ =>
    if Text.isAsciiLetter d then st.openTag cs else (st.write [c], 1)
  | none, _, _ => (st.write [c], 1)

/-- Reads inside an opening tag: its end, or one character. -/
def stepTag (st : Lifting) (open_ : OpenTag) (c : Char) (cs : List Char) : Lifting × Nat :=
  match open_.position with
  | .quoted quote =>
    let position := if c = quote then .none else open_.position
    ({ st.write [c] with tag := some { open_ with position } }, 1)
  | _ =>
    match c, cs with
    | '/', '>' :: _ => ({ st.write (open_.spellings ++ ['/', '>']) with tag := none }, 2)
    | '>', _ => ({ st.write (open_.spellings ++ ['>']) with tag := none }, 1)
    | _, _ => ({ st.write [c] with tag := some (open_.after c) }, 1)

/-- Reads what stands at the start of `c :: cs`, at `offset`, and tells how many characters that is.
A backslash before two braces makes them text. -/
def step (marker : Char) (st : Lifting) (c : Char) (cs : List Char) (offset : Nat) :
    Except CompileError (Lifting × Nat) :=
  match c, cs with
  | '\\', '{' :: '{' :: _ => .ok (st.write ['{', '{'], 3)
  | '{', '{' :: _ => stepMustache marker st (c :: cs) offset
  | _, _ =>
    match st.tag with
    | none => .ok (st.stepText c cs)
    | some open_ => .ok (st.stepTag open_ c cs)

/-- Reads the source from `offset` on, after `skip` more characters. -/
def run (marker : Char) (offset skip : Nat) (st : Lifting) :
    List Char → Except CompileError Lifting
  | [] => .ok st
  | c :: cs =>
    match skip with
    | skip + 1 => run marker (offset + c.utf8Size) skip st cs
    | 0 =>
      match step marker st c cs offset with
      | .ok (st, count) => run marker (offset + c.utf8Size) (count - 1) st cs
      | .error e => .error e

end Lifting

/-- Lifts all tags out of a template and hands out the path numbers from zero on; the second
component is the next free one. Every block must be closed. -/
def Lifted.ofSource (source : List Char) : Except CompileError (Lifted × Nat) :=
  match freeMarker? source with
  | none => .error (.parse .noFreeMarker 0)
  | some marker =>
    match Lifting.run marker 0 0 {} source with
    | .error e => .error e
    | .ok st =>
      match st.blocks with
      | name :: _ => .error (.parse (.unclosedBlock name) (Text.utf8Length source))
      | [] =>
        .ok ({ markup := st.markup.reverse
               placeholders := st.placeholders.reverse.map some
               unquoted := st.unquoted
               marker }, st.next)

end MustacheJsx
