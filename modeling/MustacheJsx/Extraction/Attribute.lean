import MustacheJsx.Extraction.OpeningTag

/-!
# Attributes in the text of an opening tag

An attribute is a name, an equals sign and a value, which is quoted or a run of plain characters.
Around the sign there may be one blank on either side. Quotes inside a mustache do not end a quoted
value, as long as the mustache ends on its line and the value ends after it.

Models `ATTRIBUTE_RE` and `attributes_in`.
-/

namespace MustacheJsx

/-- An attribute as it is written. -/
structure WrittenAttribute where
  name : List Char
  value : List Char
  /-- The whole attribute. -/
  text : List Char
  deriving DecidableEq

namespace WrittenAttribute

def isNameChar (c : Char) : Bool := Text.isWordChar c || c == ':' || c == '-'

def isPlainChar (c : Char) : Bool := !(Text.isBlank c || c == '"' || c == '\'' || c == '>')

def dropBlank : List Char → List Char
  | c :: cs => if Text.isBlank c then cs else c :: cs
  | [] => []

/-- The number of characters of the mustache that `cs` begins with, if it ends on its line and
`quote` comes after it. -/
def mustacheLength? (quote : Char) (cs : List Char) : Option Nat :=
  match Text.afterLead? ['{', '{'] cs with
  | none => none
  | some inner =>
    match Text.cutAt? ['}', '}'] inner with
    | none => none
    | some (content, rest) =>
      if content.contains '\n' || !rest.contains quote then none else some (content.length + 4)

/-- Reads a value up to the quote that ends it, after `skip` more characters. -/
def quotedValue (quote : Char) (skip : Nat) : List Char → List Char
  | [] => []
  | c :: cs =>
    match skip with
    | skip + 1 => c :: quotedValue quote skip cs
    | 0 =>
      match mustacheLength? quote (c :: cs) with
      | some n => c :: quotedValue quote (n - 1) cs
      | none => if c = quote then [] else c :: quotedValue quote 0 cs

/-- The value at the start of `cs`, and the number of its characters with its quotes. -/
def valueAt? (cs : List Char) : Option (List Char × Nat) :=
  match cs with
  | [] => none
  | c :: rest =>
    if c = '"' ∨ c = '\'' then
      if rest.contains c then
        let value := quotedValue c 0 rest
        some (value, value.length + 2)
      else none
    else
      let value := cs.takeWhile isPlainChar
      if value.isEmpty then none else some (value, value.length)

def at? (cs : List Char) : Option WrittenAttribute :=
  let name := cs.takeWhile isNameChar
  if name.isEmpty then none
  else
    match dropBlank (cs.dropWhile isNameChar) with
    | '=' :: rest =>
      let rest := dropBlank rest
      (valueAt? rest).map fun (value, count) =>
        { name, value, text := cs.take (cs.length - rest.length + count) }
    | _ => none

/-- The attributes after `skip` more characters, with their positions in the tag. -/
def allFrom (offset skip : Nat) : List Char → List (Nat × WrittenAttribute)
  | [] => []
  | c :: cs =>
    match skip with
    | skip + 1 => allFrom (offset + c.utf8Size) skip cs
    | 0 =>
      match at? (c :: cs) with
      | some found => (offset, found) :: allFrom (offset + c.utf8Size) (found.text.length - 1) cs
      | none => allFrom (offset + c.utf8Size) 0 cs

end WrittenAttribute

/-- The attributes of a tag that do not begin inside a mustache, with their positions in it. -/
def OpeningTag.attributes (tag : OpeningTag) : List (Nat × WrittenAttribute) :=
  (WrittenAttribute.allFrom 0 0 tag.text).filter fun (offset, _) => !tag.inMustache offset

end MustacheJsx
