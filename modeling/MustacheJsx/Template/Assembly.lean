import MustacheJsx.Lifted.OfSource
import MustacheJsx.Markup.Lexer

/-!
# Assembling a template

The tokens of markup are put together to a tree. Elements and blocks nest exactly as written: the
open ones form a stack of frames, an end tag closes the innermost, and nothing is closed or moved on
its own. Placeholders turn back into the tags they stand for, each once; a tag that is left over at
the end stood where markup has no place for it.

Models `Branch`, `Frame`, `TemplateBuilder` with `process`, `flush_text`, `comment`, `start_tag`,
`end_tag`, `close_block`, `split_text`, `convert_attr_value` and `finish`, and `parse_template`.
-/

namespace MustacheJsx

/-! ### Frames -/

/-- A branch of a block: its program, an `else`, or an `else if` with the index of its head. -/
inductive Branch where
  | program
  | otherwise
  | elseIf (index : Nat)
  deriving DecidableEq

/-- An element or a block that is open. Bodies are held in reverse. -/
inductive Frame where
  /-- An element, by the name in small letters and by the one written. -/
  | element (name tag : String) (attributes : List Attribute) (children : List Statement)
  /-- A block with the branches before the current one, the latest first. -/
  | block (head : BlockHead) (closed : List (Branch × List Statement)) (branch : Branch)
      (body : List Statement)

/-- A template being put together. -/
structure Assembly where
  lifted : Lifted
  /-- The next free number. -/
  next : Nat
  /-- The open elements and blocks, the innermost first. -/
  stack : List Frame := []
  /-- The statements outside all frames, in reverse. -/
  body : List Statement := []

namespace Assembly

def add (a : Assembly) (statement : Statement) : Assembly :=
  match a.stack with
  | .element name tag attributes children :: stack =>
    { a with stack := .element name tag attributes (statement :: children) :: stack }
  | .block head closed branch body :: stack =>
    { a with stack := .block head closed branch (statement :: body) :: stack }
  | [] => { a with body := statement :: a.body }

def push (a : Assembly) (frame : Frame) : Assembly := { a with stack := frame :: a.stack }

/-! ### Text and attributes -/

def restore (lifted : Lifted) : List Piece → Except SyntaxFault (List Statement × Lifted)
  | [] => .ok ([], lifted)
  | .text chars :: pieces => do
    let (statements, lifted) ← restore lifted pieces
    return (.text (String.ofList chars) :: statements, lifted)
  | .hole index :: pieces => do
    let (found, lifted) := match index with
      | some n => lifted.take n
      | none => (none, lifted)
    let statement ← match found with
      | some (.expression m) => .ok (Statement.mustache m)
      | some (.partialCall call) => .ok (.partialCall call)
      | some _ => .error .misplacedPlaceholder
      | none => .error .unknownPlaceholder
    let (statements, lifted) ← restore lifted pieces
    return (statement :: statements, lifted)

def addText (a : Assembly) (chars : List Char) : Except SyntaxFault Assembly := do
  let (statements, lifted) ← restore a.lifted (Piece.split a.lifted.marker chars)
  return statements.foldl add { a with lifted }

def addComment (a : Assembly) (value : List Char) : Except SyntaxFault Assembly :=
  match Piece.whole? a.lifted.marker value with
  | none => .ok (a.add (.markupComment (String.ofList value)))
  | some index =>
    match a.lifted.take index with
    | (some (.comment text), lifted) => .ok ({ a with lifted }.add (.mustacheComment text))
    | _ => .error .placeholderInComment

/-- An attribute value that is made of text and placeholders: text, if there is no placeholder. -/
def mixedValue (lifted : Lifted) (value : List Char) :
    Except SyntaxFault (AttributeValue × Lifted) :=
  let pieces := Piece.split lifted.marker value
  if pieces.any fun piece => piece matches .hole _ then do
    let (parts, lifted) ← restore lifted pieces
    return (.concat parts, lifted)
  else .ok (.text (String.ofList value), lifted)

/-- Restores an attribute value. A lone value that was written without quotes is a mustache. -/
def restoreValue (lifted : Lifted) (value : List Char) :
    Except SyntaxFault (AttributeValue × Lifted) :=
  match Piece.whole? lifted.marker value with
  | none => mixedValue lifted value
  | some index =>
    if lifted.unquoted.contains index then
      match lifted.take index with
      | (some (.expression m), lifted) => .ok (.mustache m, lifted)
      | (_, lifted) => mixedValue lifted value
    else mixedValue lifted value

/-- The spelling of the attribute `name`, if it was written with capitals. -/
def spellingOf (spellings : List (List Char)) (name : String) : String :=
  match spellings.find? fun s => s.map Text.lowerAscii == name.toList.map Text.lowerAscii with
  | some spelling => String.ofList spelling
  | none => name

/-- Restores the attributes of a start tag; those that carry spellings are left out. -/
def restoreAttributes (spellings : List (List Char)) (lifted : Lifted) :
    List (String × String) → Except SyntaxFault (List Attribute × Lifted)
  | [] => .ok ([], lifted)
  | (name, value) :: attributes =>
    if name = tagSpelling ∨ name = attributeSpellings then
      restoreAttributes spellings lifted attributes
    else do
      let (value, lifted) ← restoreValue lifted value.toList
      let (rest, lifted) ← restoreAttributes spellings lifted attributes
      return (.mk (spellingOf spellings name) value :: rest, lifted)

/-! ### Blocks -/

def openBlock (a : Assembly) (index : Option Nat) (line : Nat) : Except SyntaxFault Assembly :=
  match index.map a.lifted.take with
  | some (some (.block head), lifted) => .ok ({ a with lifted }.push (.block head [] .program []))
  | _ => .error (.blockMarkerWithoutBlock line)

/-- Ends a branch of the innermost block and begins another. -/
def switch (a : Assembly) (next : Branch) (line : Nat) : Except SyntaxFault Assembly :=
  match a.stack with
  | .block head closed branch body :: stack =>
    .ok { a with stack := .block head ((branch, body.reverse) :: closed) next [] :: stack }
  | .element _ tag _ _ :: _ => .error (.elseInsideElement tag line)
  | [] => .error .elseOutsideBlock

/-- The branches of a block, folded from the last to the first. -/
structure Folded where
  program : List Statement := []
  inverse : Option Body := none
  lifted : Lifted
  next : Nat

/-- Takes a branch before those that are folded. An `else if` becomes a block of its own in the
inverse, with what was the inverse so far as its inverse. -/
def foldBranch (name : String) (f : Folded) : Branch × List Statement → Except SyntaxFault Folded
  | (.program, body) => .ok { f with program := body }
  | (.otherwise, body) =>
    match f.inverse with
    | some _ => .error (.repeatedElse name)
    | none => .ok { f with inverse := some (.mk f.next body), next := f.next + 1 }
  | (.elseIf index, body) =>
    match f.lifted.take index with
    | (some (.elseIf head), lifted) =>
      let nested := Statement.block head (.mk f.next body) f.inverse
      .ok { f with lifted, inverse := some (.mk (f.next + 1) [nested]), next := f.next + 2 }
    | _ => .error .elseMarkerWithoutBlock

def closeBlock (a : Assembly) (head : BlockHead) (branches : List (Branch × List Statement)) :
    Except SyntaxFault Assembly := do
  let f ← branches.foldlM (foldBranch head.name) { lifted := a.lifted, next := a.next }
  let statement := Statement.block head (.mk f.next f.program) f.inverse
  return { a with lifted := f.lifted, next := f.next + 1 }.add statement

/-! ### Tags -/

/-- Reads a start tag: of a block, of an `else`, or of an element. -/
def startTag (a : Assembly) (tag : Markup.StartTag) (line : Nat) : Except SyntaxFault Assembly :=
  let number := (tag.attribute? numberAttribute).bind fun value => signedIndex? value.toList
  if tag.name = blockTag then a.openBlock number line
  else if tag.name = elseTag then
    match number with
    | some index => a.switch (.elseIf index) line
    | none => a.switch .otherwise line
  else do
    let spellings := Text.words ((tag.attribute? attributeSpellings).getD "").toList
    let written := (tag.attribute? tagSpelling).getD tag.name
    let (attributes, lifted) ← restoreAttributes spellings a.lifted tag.attributes
    let a := { a with lifted }
    if tag.selfClosing || Markup.isVoid tag.name then
      return a.add (.element written attributes [] tag.selfClosing)
    else return a.push (.element tag.name written attributes [])

def endTag (a : Assembly) (name : String) (line : Nat) : Except SyntaxFault Assembly :=
  if name = blockTag then
    match a.stack with
    | .block head closed branch body :: stack =>
      closeBlock { a with stack } head ((branch, body.reverse) :: closed)
    | .element _ tag _ _ :: _ => .error (.blockClosedInElement tag line)
    | [] => .error .blockClosedTwice
  else if Markup.isVoid name then .error (.voidEndTag name line)
  else
    match a.stack with
    | .element opened tag attributes children :: stack =>
      if opened = name then
        .ok ({ a with stack }.add (.element tag attributes children.reverse false))
      else .error (.endTagMismatch name tag line)
    | .block head _ _ _ :: _ => .error (.endTagCrossesBlock name head.name line)
    | [] => .error (.endTagWithoutElement name line)

def read (a : Assembly) : Markup.Token → Except SyntaxFault Assembly
  | .text chars => a.addText chars
  | .comment value => a.addComment value
  | .startTag tag line => a.startTag tag line
  | .endTag name line => a.endTag name line

/-- The template, if every frame is closed and every tag has found its place. -/
def result (a : Assembly) : Except SyntaxFault Template :=
  match a.stack with
  | .element _ tag _ _ :: _ => .error (.unclosedElement tag)
  | .block head _ _ _ :: _ => .error (.unclosedBlock head.name)
  | [] => if a.lifted.isEmpty then .ok a.body.reverse else .error .strayPlaceholder

end Assembly

/-- Reads a template. Faults of the nesting carry the offset zero and name their line. -/
def Template.read (source : List Char) : Except CompileError Template := do
  let (lifted, next) ← Lifted.ofSource source
  let assembled := do
    let a ← (Markup.tokens lifted.markup).foldlM Assembly.read { lifted, next }
    a.result
  assembled.mapError fun fault => .parse fault 0

end MustacheJsx
