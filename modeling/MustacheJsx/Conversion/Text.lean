import MustacheJsx.Jsx.Basic
import MustacheJsx.Text.Classes

/-!
# Text inside elements

Text inside an element is written as it is, so a character that the markup of elements gives a
meaning stands in a string of its own. An attribute can hold raw text only if nothing in it would be
read as something else.

Models `is_jsx_text_syntax`, `create_text_children`, `create_comment`, `ENTITY_RE`,
`is_raw_attribute_string` and `attribute_string`.
-/

namespace MustacheJsx

/-! ### Runs -/

def Text.isElementSyntax (c : Char) : Bool := c == '{' || c == '}' || c == '<' || c == '>'

/-- A longest run of plain characters, or one that has a meaning. -/
inductive TextRun where
  | plain (cs : List Char)
  | marked (c : Char)

def TextRun.addPlain (c : Char) : List TextRun → List TextRun
  | .plain cs :: runs => .plain (c :: cs) :: runs
  | runs => .plain [c] :: runs

def TextRun.ofText : List Char → List TextRun
  | [] => []
  | c :: cs =>
    if Text.isElementSyntax c then .marked c :: ofText cs else TextRun.addPlain c (ofText cs)

def TextRun.chars : TextRun → List Char
  | .plain cs => cs
  | .marked c => [c]

theorem TextRun.flatMap_chars_addPlain (c : Char) (runs : List TextRun) :
    (TextRun.addPlain c runs).flatMap TextRun.chars = c :: runs.flatMap TextRun.chars := by
  match runs with
  | [] => rfl
  | .plain cs :: runs => rfl
  | .marked d :: runs => rfl

theorem TextRun.flatMap_chars_ofText (cs : List Char) :
    (TextRun.ofText cs).flatMap TextRun.chars = cs := by
  induction cs with
  | nil => rfl
  | cons c cs ih =>
    rw [TextRun.ofText]
    split
    · simp [TextRun.chars, ih]
    · rw [TextRun.flatMap_chars_addPlain, ih]

def TextRun.toChild : TextRun → Jsx.Child
  | .plain cs => .text (String.ofList cs)
  | .marked c => .term (.string (String.singleton c))

def Jsx.Child.ofText (chars : String) : List Jsx.Child :=
  (TextRun.ofText chars.toList).map TextRun.toChild

/-! ### Comments -/

def Text.breakCommentEnds : List Char → List Char
  | '*' :: '/' :: cs => '*' :: ' ' :: '/' :: breakCommentEnds cs
  | c :: cs => c :: breakCommentEnds cs
  | [] => []

def Jsx.Child.ofComment (value : String) : Jsx.Child :=
  .comment (String.ofList (Text.breakCommentEnds value.toList))

/-! ### Raw attributes -/

def Text.continuesReference (cs : List Char) : Bool :=
  let name := match cs with
    | '#' :: rest => rest
    | _ => cs
  match name with
  | c :: rest =>
    Text.isAsciiAlphanumeric c && (rest.dropWhile Text.isAsciiAlphanumeric).head? == some ';'
  | [] => false

def Text.hasReference : List Char → Bool
  | [] => false
  | c :: cs => (c == '&' && continuesReference cs) || hasReference cs

def Text.isRawValue (cs : List Char) : Bool :=
  !(cs.any fun c => c == '"' || c == '\n' || c == '\r') && !Text.hasReference cs

/-- An attribute with a text: raw if it can be, otherwise with a string as its term. -/
def Jsx.Attribute.ofText (name value : String) : Jsx.Attribute :=
  if Text.isRawValue value.toList then .raw name value else .term name (.string value)

end MustacheJsx
