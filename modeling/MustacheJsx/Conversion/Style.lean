import MustacheJsx.Conversion.Expression
import MustacheJsx.Text.Blank

/-!
# Styles

The value of a `style` attribute is a list of declarations with semicolons between them. It becomes
an object with a property for each; a declaration without a colon, a key or a value is left out.

Models `camelize_prop_name`, `split_declarations`, `push_text`, `split_key_value`, `trim_pieces`,
`create_style_object` and `fold_pieces`.
-/

namespace MustacheJsx.Style

/-! ### Declarations -/

/-- A piece of a declaration. -/
inductive Piece where
  | text (cs : List Char)
  | mustache (m : Mustache)

/-- The piece of a text; an empty text is none. -/
def piecesOfText (cs : List Char) : List (Option Piece) :=
  if cs.isEmpty then [] else [some (.text cs)]

/-- The pieces of a part of the value; `none` stands for a semicolon. -/
def pieces : Statement → Except CompileError (List (Option Piece))
  | .text chars =>
    match Text.splitOn ';' chars.toList with
    | [] => .ok []
    | first :: rest => .ok (piecesOfText first ++ rest.flatMap fun cs => none :: piecesOfText cs)
  | .mustache m => .ok [some (.mustache m)]
  | other => .error (.attributeValue "style" other.kind)

def declarations : List (Option Piece) → List (List Piece)
  | [] => [[]]
  | none :: rest => [] :: declarations rest
  | some piece :: rest =>
    match declarations rest with
    | [] => [[piece]]
    | first :: others => (piece :: first) :: others

def cutAtColon? : List Piece → Option (List Piece × List Piece)
  | [] => none
  | .text cs :: rest =>
    match Text.cutAt? [':'] cs with
    | some (before, after) => some ([.text before], .text after :: rest)
    | none => (cutAtColon? rest).map fun (key, value) => (.text cs :: key, value)
  | .mustache m :: rest => (cutAtColon? rest).map fun (key, value) => (.mustache m :: key, value)

/-! ### Keys and values -/

def mapFirst (f : List Char → List Char) : List Piece → List Piece
  | .text cs :: rest => .text (f cs) :: rest
  | pieces => pieces

def Piece.isEmpty : Piece → Bool
  | .text cs => cs.isEmpty
  | .mustache _ => false

/-- Pieces without the blanks at either end and without empty texts. -/
def trim (pieces : List Piece) : List Piece :=
  let started := mapFirst Text.trimStart pieces
  let ended := (mapFirst Text.trimEnd started.reverse).reverse
  ended.filter fun piece => !piece.isEmpty

def keyValue? (declaration : List Piece) : Option (List Piece × List Piece) :=
  match cutAtColon? declaration with
  | none => none
  | some (key, value) =>
    let key := trim key
    let value := trim value
    if key.isEmpty || value.isEmpty then none else some (key, value)

/-- The name of a property of styles in scripts: a hyphen and a small letter become a capital. -/
def camelize : List Char → List Char
  | '-' :: c :: cs =>
    if Text.isAsciiLower c then c.toUpper :: camelize cs else '-' :: camelize (c :: cs)
  | c :: cs => c :: camelize cs
  | [] => []

/-! ### The object -/

def Piece.toTerm (notes : Annotations) : Piece → Except CompileError Jsx.Term
  | .text cs => .ok (.string (String.ofList cs))
  | .mustache m => m.toTerm notes

def sum (notes : Annotations) (pieces : List Piece) : Except CompileError Jsx.Term := do
  let terms ← pieces.mapM (Piece.toTerm notes)
  return .sum terms

/-- The key of a property. Only a key of plain text is known before the code runs. -/
def toKey (notes : Annotations) : List Piece → Except CompileError Jsx.PropertyKey
  | [.text cs] => .ok (.string (String.ofList (camelize cs)))
  | pieces => do
    let term ← sum notes pieces
    return .computed term

def toProperty (notes : Annotations) (key value : List Piece) :
    Except CompileError Jsx.Property := do
  let key ← toKey notes key
  let value ← sum notes value
  return .mk key value

def ofParts (notes : Annotations) (parts : List Statement) : Except CompileError Jsx.Term := do
  let marks ← parts.mapM pieces
  let pairs := (declarations marks.flatten).filterMap keyValue?
  let properties ← pairs.mapM fun (key, value) => toProperty notes key value
  return .object properties

/-- The object of an attribute value. A mustache without quotes is no style. -/
def ofValue (notes : Annotations) : AttributeValue → Except CompileError Jsx.Term
  | .text chars => ofParts notes [.text chars]
  | .concat parts => ofParts notes parts
  | .mustache _ => .error (.attributeValue "style" "MustacheStatement")

end MustacheJsx.Style
