import MustacheJsx.Mustache.Span
import MustacheJsx.Text.Classes

/-!
# Opening tags in the text of a template

Opening tags are found without reading a template as a tree. Comments and mustaches outside tags are
passed over, and `>` does not end a tag inside quotes or inside a mustache. A mustache or a tag that
does not end hides all that follows it.

Models `OpeningTag`, `MustacheSpan`, `mustache_end`, `scan_tag`, `opening_tags`, `in_mustache` and
`tag_name`.
-/

namespace MustacheJsx

/-- The mustache at the start of `cs`, with its braces. Only a long comment may hold braces. -/
def mustacheText? (cs : List Char) : Option (List Char) :=
  let after : Option (List Char) :=
    if Text.startsWith ['{', '{', '!', '-', '-'] cs then
      (Text.cutAt? ['-', '-', '}', '}'] cs).map Prod.snd
    else if Text.startsWith ['{', '{', '!'] cs then (Text.cutAt? ['}', '}'] cs).map Prod.snd
    else if Text.startsWith ['{', '{', '{'] cs then
      (Span.cutAtClose? ['}', '}', '}'] .outside (cs.drop 3)).map Prod.snd
    else (Span.cutAtClose? ['}', '}'] .outside (cs.drop 2)).map Prod.snd
  after.map fun rest => cs.take (cs.length - rest.length)

/-- A mustache in an opening tag. -/
structure TagMustache where
  /-- The bytes of the tag before it. -/
  start : Nat
  text : List Char
  /-- Whether it stands in quotes or is the beginning of a value. -/
  inValue : Bool
  deriving DecidableEq

def TagMustache.stop (m : TagMustache) : Nat := m.start + Text.utf8Length m.text

/-- An opening tag. -/
structure OpeningTag where
  /-- The bytes of the template before it. -/
  start : Nat
  text : List Char
  mustaches : List TagMustache
  deriving DecidableEq

namespace OpeningTag

def quoteAfter (c : Char) : Option Char → Option Char
  | some quote => if c = quote then none else some quote
  | none => if c = '"' ∨ c = '\'' then some c else none

/-- Reads the inside of a tag after `skip` more characters: its mustaches, and what follows the tag.
`last` is the last character that is not blank, and `offset` counts the bytes of the tag so far. -/
def scan (quote : Option Char) (last : Char) (offset skip : Nat) :
    List Char → Option (List TagMustache × List Char)
  | [] => none
  | c :: cs =>
    match skip with
    | skip + 1 => scan quote last (offset + c.utf8Size) skip cs
    | 0 =>
      if Text.startsWith ['{', '{'] (c :: cs) then
        match mustacheText? (c :: cs) with
        | none => none
        | some text =>
          (scan quote '}' (offset + c.utf8Size) (text.length - 1) cs).map fun (mustaches, rest) =>
            ({ start := offset, text, inValue := quote.isSome || last == '=' } :: mustaches, rest)
      else if quote = none ∧ c = '>' then some ([], cs)
      else
        scan (quoteAfter c quote) (if Text.isAsciiBlank c then last else c) (offset + c.utf8Size) 0
          cs

/-- The tag whose `<` begins `cs`, at `start`. -/
def at? (start : Nat) (cs : List Char) : Option OpeningTag :=
  match scan none '<' 1 0 (cs.drop 1) with
  | some (mustaches, rest) =>
    some { start, text := cs.take (cs.length - rest.length), mustaches }
  | none => none

def mayOpen (cs : List Char) : Bool := cs.head?.any Text.isAsciiLetter

/-- What is known at a place outside tags. -/
inductive Landmark where
  /-- So many characters are no part of a tag. -/
  | pass (count : Nat)
  | tag (tag : OpeningTag)
  /-- Something begins here that does not end. -/
  | unending

/-- What stands at the start of `c :: cs`, at `start`. -/
def landmark (start : Nat) (c : Char) (cs : List Char) : Landmark :=
  if Text.startsWith ['<', '!', '-', '-'] (c :: cs) then
    match Text.cutAt? ['-', '-', '>'] (c :: cs) with
    | some (before, _) => .pass (before.length + 3)
    | none => .unending
  else if Text.startsWith ['{', '{'] (c :: cs) then
    match mustacheText? (c :: cs) with
    | some text => .pass text.length
    | none => .unending
  else if c = '<' ∧ mayOpen cs then
    match at? start (c :: cs) with
    | some tag => .tag tag
    | none => .unending
  else .pass 1

/-- The opening tags after `skip` more characters. -/
def allFrom (offset skip : Nat) : List Char → List OpeningTag
  | [] => []
  | c :: cs =>
    match skip with
    | skip + 1 => allFrom (offset + c.utf8Size) skip cs
    | 0 =>
      match landmark offset c cs with
      | .pass count => allFrom (offset + c.utf8Size) (count - 1) cs
      | .tag tag => tag :: allFrom (offset + c.utf8Size) (tag.text.length - 1) cs
      | .unending => []

def all (template : List Char) : List OpeningTag := allFrom 0 0 template

def stop (tag : OpeningTag) : Nat := tag.start + Text.utf8Length tag.text

def inMustache (tag : OpeningTag) (offset : Nat) : Bool :=
  tag.mustaches.any fun m => m.start ≤ offset && offset < m.stop

def name (tag : OpeningTag) : List Char :=
  (tag.text.dropWhile (· == '<')).takeWhile fun c =>
    !(Text.isBlank c || c == '/' || c == '>' || c == '{')

end OpeningTag

end MustacheJsx
