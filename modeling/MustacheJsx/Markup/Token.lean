/-!
# Tokens of markup

Markup is read as a sequence of start tags, end tags, comments and runs of text. Document types and
the attributes of end tags leave no trace.

Models the tokens that `process` takes, `VOID_ELEMENTS` and `raw_text_kind`.
-/

namespace MustacheJsx.Markup

/-- A start tag. Names of tags and attributes are in small letters, and of attributes with one name
the first counts. -/
structure StartTag where
  name : String
  attributes : List (String × String)
  selfClosing : Bool
  deriving DecidableEq

/-- A token of markup. Tags know the line that they end in. -/
inductive Token where
  | text (chars : List Char)
  | startTag (tag : StartTag) (line : Nat)
  | endTag (name : String) (line : Nat)
  | comment (value : List Char)
  deriving DecidableEq

def StartTag.attribute? (tag : StartTag) (name : String) : Option String :=
  (tag.attributes.find? fun entry => entry.1 == name).map Prod.snd

/-! ### Kinds of elements -/

/-- The elements that never hold anything and have no end tag. -/
def voidElements : List String :=
  ["area", "base", "br", "col", "command", "embed", "hr", "img", "input", "keygen",
   "link", "meta", "param", "source", "track", "wbr"]

def isVoid (name : String) : Bool := voidElements.contains name

/-- How the content of an element is read: as markup, as text with references, as plain text, or as
a script, in which a comment may hide the end tag of another script. -/
inductive Content where
  | markup
  | reference
  | plain
  | script
  /-- Inside a comment of a script. -/
  | escaped
  /-- Inside a script inside a comment of a script. -/
  | doubleEscaped
  deriving DecidableEq

def contentOf (name : String) : Content :=
  if ["style", "xmp", "iframe", "noembed", "noframes"].contains name then .plain
  else if name == "script" then .script
  else if ["textarea", "title"].contains name then .reference
  else .markup

end MustacheJsx.Markup
