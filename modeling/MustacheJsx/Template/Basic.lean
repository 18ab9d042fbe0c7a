import MustacheJsx.Number.Double

/-!
# Templates

A template is a list of statements: markup elements, text, mustaches, blocks, partials and comments.
Mustaches and blocks hold expressions. Every path and every block body carries a number that is its
own within one template, so that later passes can say something about it without changing the tree.

Models `PathExpression`, `Literal`, `Expression`, `Hash`, `MustacheStatement` with `is_helper_call`,
`Block`, `BlockStatement`, `PartialStatement`, `AttrNode`, `AttrValue`, `ElementNode`, `Statement`
with `kind`, `helper_name` and `Template`.
-/

namespace MustacheJsx

/-! ### Expressions -/

/-- A path such as `a.b`, `../title`, `this.id` or `@index`. -/
structure Path where
  id : Nat
  /-- The path as written. -/
  spelling : String
  /-- Its segments, without `this`, `../` and `@`. -/
  parts : List String
  /-- Whether it begins with `@`. -/
  data : Bool
  /-- The number of leading `../`. -/
  depth : Nat
  deriving DecidableEq

def Path.ofName (id : Nat) (name : String) : Path :=
  { id, spelling := name, parts := [name], data := false, depth := 0 }

/-- A value written out. -/
inductive Literal where
  | boolean (value : Bool)
  | number (value : Double)
  | string (value : String)
  | null
  | undefined
  deriving DecidableEq

/-- An argument of a mustache, or its head; `call` is a helper call in parentheses. -/
inductive Expression where
  | path (path : Path)
  | literal (literal : Literal)
  | call (callee : Expression) (params : List Expression) (hash : List (String × Expression))

abbrev Hash := List (String × Expression)

def Expression.kind : Expression → String
  | .path _ => "PathExpression"
  | .literal (.boolean _) => "BooleanLiteral"
  | .literal (.number _) => "NumberLiteral"
  | .literal (.string _) => "StringLiteral"
  | .literal .null => "NullLiteral"
  | .literal .undefined => "UndefinedLiteral"
  | .call _ _ _ => "SubExpression"

/-- The name under which a helper is called and imported: the last segment of its path. -/
def Path.helperName? (path : Path) : Option String := path.parts.getLast?

/-- The name under which an expression is called as a helper; only a path with a segment has one. -/
def Expression.helperName? : Expression → Option String
  | .path p => p.helperName?
  | _ => none

/-! ### Heads of tags -/

/-- A mustache: a value, or a helper call when it has arguments. -/
structure Mustache where
  callee : Expression
  params : List Expression
  hash : Hash
  /-- Whether the value is trusted as markup. -/
  trusting : Bool

def Mustache.isHelperCall (mustache : Mustache) : Bool := !mustache.params.isEmpty

/-- The opening of a block. -/
structure BlockHead where
  path : Path
  params : List Expression
  hash : Hash

def BlockHead.name (head : BlockHead) : String := head.path.spelling

/-- A reference to another template. -/
structure PartialCall where
  name : String
  params : List Expression
  hash : Hash

/-! ### Statements -/

mutual

/-- A piece of a template. -/
inductive Statement where
  | element (tag : String) (attributes : List Attribute) (children : List Statement)
      (selfClosing : Bool)
  | text (chars : String)
  | mustache (mustache : Mustache)
  | block (head : BlockHead) (program : Body) (inverse : Option Body)
  | partialCall (call : PartialCall)
  | mustacheComment (value : String)
  | markupComment (value : String)

/-- The body of a block. -/
inductive Body where
  | mk (id : Nat) (statements : List Statement)

/-- An attribute of an element. -/
inductive Attribute where
  | mk (name : String) (value : AttributeValue)

/-- The value of an attribute: text, a mustache without quotes, or a quoted run of both. -/
inductive AttributeValue where
  | text (chars : String)
  | mustache (mustache : Mustache)
  | concat (parts : List Statement)

end

def Statement.kind : Statement → String
  | .element _ _ _ _ => "ElementNode"
  | .text _ => "TextNode"
  | .mustache _ => "MustacheStatement"
  | .block _ _ _ => "BlockStatement"
  | .partialCall _ => "PartialStatement"
  | .mustacheComment _ => "MustacheCommentStatement"
  | .markupComment _ => "CommentStatement"

def Body.statements : Body → List Statement
  | .mk _ statements => statements

def Attribute.name : Attribute → String
  | .mk name _ => name

def Attribute.value : Attribute → AttributeValue
  | .mk _ value => value

abbrev Template := List Statement

end MustacheJsx
