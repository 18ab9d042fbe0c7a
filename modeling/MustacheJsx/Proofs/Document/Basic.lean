import Mathlib.Data.List.Infix
import MustacheJsx.Proofs.Opening.Lifting
import MustacheJsx.Proofs.Printing.Lexing
import MustacheJsx.Proofs.Reading.Outline

/-!
# Documents as they are written

A document is a sequence of segments: text, mustaches, comments, doctypes, opening and closing tags.
`Segment.IsWritten`, `Segment.Apart` and `Segment.FitsIn` say which sequences lifting and the lexer
cut in the same way, and `Segment.Leaves` which landmarks a segment has in the template that is
read.
-/

namespace MustacheJsx

/-! ### What is written -/

/-- How a comment is written. -/
inductive CommentForm where
  /-- Between `<!--` and `-->`. -/
  | dashes
  /-- Between `<!` and `>`: a declaration that is no doctype. -/
  | bang
  /-- Between `<` and `>`: an instruction. Its question mark belongs to the text. -/
  | question
  /-- Between `</` and `>`: a closing tag without a name. -/
  | slash

def CommentForm.opening : CommentForm → List Char
  | .dashes => ['<', '!', '-', '-']
  | .bang => ['<', '!']
  | .question => ['<']
  | .slash => ['<', '/']

def CommentForm.closing : CommentForm → List Char
  | .dashes => ['-', '-', '>']
  | _ => ['>']

inductive Segment where
  /-- Text, in which a backslash may stand before two braces. -/
  | text (chars : List Char)
  /-- A mustache with the blanks that it drops on its sides. -/
  | mustache (before source after : List Char)
  | comment (form : CommentForm) (value : List Char)
  | doctype (chars : List Char)
  | opening (tag : SourceTag)
  | closing (name blanks : List Char)

def Segment.source : Segment → List Char
  | .text chars => chars
  | .mustache before source after => before ++ (source ++ after)
  | .comment form value => form.opening ++ (value ++ form.closing)
  | .doctype chars => '<' :: '!' :: (chars ++ ['>'])
  | .opening tag => tag.source
  | .closing name blanks => '<' :: '/' :: (name ++ (blanks ++ ['>']))

/-! ### What may be written -/

def unescaped : List Char → List Char
  | '\\' :: '{' :: '{' :: cs => '{' :: '{' :: unescaped cs
  | c :: cs => c :: unescaped cs
  | [] => []

def opensNone : List Char → Bool
  | '\\' :: '{' :: '{' :: cs => opensNone cs
  | '{' :: '{' :: _ => false
  | _ :: cs => opensNone cs
  | [] => true

def staysText : List Char → Bool
  | c :: _ => !Text.isAsciiLetter c && !(['!', '/', '?'].contains c)
  | [] => false

def beginsNone : List Char → Bool
  | c :: cs => (c != '<' || staysText cs) && beginsNone cs
  | [] => true

/-- A mustache that ends where its source ends. -/
def IsWholeMustache (source : List Char) : Prop :=
  ['{', '{'] <+: source ∧ ∃ span, Span.read source = .ok span ∧ span.rest = []

def stripsLeft (source : List Char) : Bool := (Span.read source).toOption.any Span.stripLeft

def stripsRight (source : List Char) : Bool := (Span.read source).toOption.any Span.stripRight

/-- Blanks that are dropped, if any are. -/
def IsDropped (strips : Bool) (blanks : List Char) : Prop :=
  (∀ c ∈ blanks, Text.isBlank c = true) ∧ (strips = false → blanks = [])

/-- A name of which the reader of tags sees all characters. -/
structure IsClosingName (name : List Char) : Prop where
  head : ∀ c ∈ name.head?, Text.isAsciiLetter c = true
  chars : IsTagName name
  less : '<' ∉ name
  element : smallName name ≠ blockTag

/-- What the reader of tags sees no tag in. -/
def IsDeclared (chars : List Char) : Prop := ∀ c ∈ chars, c ≠ '<' ∧ c ≠ '>' ∧ c ≠ '{'

def isDoctype (chars : List Char) : Bool := (chars.take 7).map Text.lowerAscii == "doctype".toList

/-- The text that a comment of a form may have. -/
def CommentForm.Admits (value : List Char) : CommentForm → Prop
  | .dashes => Markup.Lexer.IsCommentBody value
  | .bang => IsDeclared value ∧ ¬ ['-', '-'] <+: value ∧ isDoctype value = false
  | .question => IsDeclared value ∧ value.head? = some '?'
  | .slash => IsDeclared value ∧ value ≠ [] ∧ ∀ c ∈ value.head?, Text.isAsciiLetter c = false

/-- What a segment is when it stands alone. -/
def Segment.IsWritten : Segment → Prop
  | .text chars => chars ≠ [] ∧ opensNone chars = true ∧ beginsNone chars = true
  | .mustache before source after => IsWholeMustache source ∧
      IsDropped (stripsLeft source) before ∧ IsDropped (stripsRight source) after
  | .comment form value => form.Admits value
  | .doctype chars => isDoctype chars = true ∧ IsDeclared chars
  | .opening tag => tag.IsWritten ∧ tag.IsTracked
  | .closing name blanks => IsClosingName name ∧ ∀ c ∈ blanks, Text.isAsciiBlank c = true

/-- What may stand before `rest` so that it stays as it is. -/
def Segment.Before (rest : List Char) : Segment → Prop
  | .text chars => rest.head? = some '{' → ∀ c ∈ chars.getLast?, c ≠ '{' ∧ c ≠ '\\'
  | .mustache _ source _ => stripsRight source = true →
      ∀ c ∈ rest.head?, Text.isBlank c = false
  | _ => True

/-- Which segment may follow another. Texts do not touch, not even across a doctype, of which
nothing is left. -/
def Segment.Apart (first second : Segment) : Prop :=
  first.Before second.source ∧
    match first, second with
    | .text _, .text _ => False
    | .text _, .doctype _ => False
    | .text chars, .mustache _ source _ => stripsLeft source = true →
        ∀ c ∈ chars.getLast?, Text.isBlank c = false
    | _, _ => True

/-- A tag that a mustache is read as. -/
def IsTagReadAs (source : List Char) (tag : Tag) : Prop :=
  ∃ span offset next last, Span.read source = .ok span ∧
    Tag.read span.content span.trusting offset next = (.ok tag, last)

/-- A tag that leaves a hole in the text, and no markup. -/
def Tag.IsHole : Tag → Prop
  | .expression _ | .partialCall _ => True
  | _ => False

/-- The element whose content begins after an opening tag, if that is no markup. -/
def SourceTag.rawElement? (tag : SourceTag) : Option String :=
  if tag.selfClosing = true ∨ Markup.contentOf (smallName tag.name) = .markup then none
  else some (smallName tag.name)

/-- The element in whose content, which is no markup, stands what follows a segment. -/
def Segment.rawAfter (raw : Option String) : Segment → Option String
  | .opening tag => tag.rawElement?
  | .closing _ _ => none
  | _ => raw

/-- What may stand in the content of an element that is no markup: lifting writes its markers there
too, but the lexer takes them for text. -/
def Segment.FitsIn (raw : Option String) : Segment → Prop
  | .text _ => True
  | .mustache _ source _ => raw ≠ none → ∀ tag, IsTagReadAs source tag → tag.IsHole
  | .closing name _ => ∀ element ∈ raw, smallName name = element
  | _ => raw = none

def FitAll : Option String → List Segment → Prop
  | _, [] => True
  | raw, segment :: document => segment.FitsIn raw ∧ FitAll (segment.rawAfter raw) document

/-- A document, or what is left of one in the content of an element that is no markup. -/
structure IsDocument (raw : Option String) (document : List Segment) : Prop where
  written : ∀ segment ∈ document, segment.IsWritten
  apart : document.IsChain Segment.Apart
  fits : FitAll raw document

theorem IsDocument.head {raw : Option String} {segment : Segment} {document : List Segment}
    (h : IsDocument raw (segment :: document)) : segment.IsWritten ∧ segment.FitsIn raw :=
  ⟨h.written segment List.mem_cons_self, h.fits.1⟩

theorem IsDocument.tail {raw : Option String} {segment : Segment} {document : List Segment}
    (h : IsDocument raw (segment :: document)) : IsDocument (segment.rawAfter raw) document where
  written other hmem := h.written other (List.mem_cons_of_mem segment hmem)
  apart := (List.isChain_cons.1 h.apart).2
  fits := h.fits.2

theorem IsDocument.next {raw : Option String} {segment : Segment} {document : List Segment}
    (h : IsDocument raw (segment :: document)) : ∀ next ∈ document.head?, segment.Apart next :=
  (List.isChain_cons.1 h.apart).1

/-! ### Checking what is written -/

section

open Markup.Lexer (IsCommentBody)

instance (source : List Char) : Decidable (IsWholeMustache source) :=
  match h : Span.read source with
  | .ok span =>
    decidable_of_iff (['{', '{'] <+: source ∧ span.rest = [])
      ⟨fun ⟨hbraces, hrest⟩ => ⟨hbraces, span, h, hrest⟩, fun ⟨hbraces, other, hread, hrest⟩ => by
        cases h.symm.trans hread
        exact ⟨hbraces, hrest⟩⟩
  | .error fault => isFalse fun ⟨_, other, hread, _⟩ => nomatch h.symm.trans hread

instance (strips : Bool) (blanks : List Char) : Decidable (IsDropped strips blanks) :=
  inferInstanceAs (Decidable (_ ∧ _))

instance (name : List Char) : Decidable (IsClosingName name) :=
  decidable_of_iff ((∀ c ∈ name.head?, Text.isAsciiLetter c = true) ∧ IsTagName name ∧
      '<' ∉ name ∧ smallName name ≠ blockTag)
    ⟨fun ⟨hhead, hchars, hless, helement⟩ => ⟨hhead, hchars, hless, helement⟩,
    fun h => ⟨h.head, h.chars, h.less, h.element⟩⟩

instance (value : List Char) : Decidable (IsCommentBody value) :=
  decidable_of_iff
    (¬ ['-', '-', '>'] <:+: '<' :: '!' :: '-' :: '-' :: (value ++ ['-', '-']) ∧
      ¬ ['-', '-', '!', '>'] <:+: value)
    ⟨fun ⟨hdashes, hbang⟩ => ⟨hdashes, hbang⟩, fun h => ⟨h.dashes, h.bang⟩⟩

instance (chars : List Char) : Decidable (IsDeclared chars) :=
  inferInstanceAs (Decidable (∀ c ∈ chars, _))

instance (value : List Char) : DecidablePred (CommentForm.Admits value)
  | .dashes => inferInstanceAs (Decidable (IsCommentBody value))
  | .bang | .slash => inferInstanceAs (Decidable (_ ∧ _ ∧ _))
  | .question => inferInstanceAs (Decidable (_ ∧ _))

instance : DecidablePred Segment.IsWritten
  | .text _ => inferInstanceAs (Decidable (_ ∧ _ ∧ _))
  | .mustache _ _ _ => inferInstanceAs (Decidable (_ ∧ _ ∧ _))
  | .comment form value => inferInstanceAs (Decidable (form.Admits value))
  | .doctype _ => inferInstanceAs (Decidable (_ ∧ _))
  | .opening tag => inferInstanceAs (Decidable (tag.IsWritten ∧ tag.IsTracked))
  | .closing name _ => inferInstanceAs (Decidable (IsClosingName name ∧ _))

instance (rest : List Char) : DecidablePred (Segment.Before rest)
  | .text _ => inferInstanceAs (Decidable (_ → _))
  | .mustache _ _ _ => inferInstanceAs (Decidable (_ → _))
  | .comment _ _ | .doctype _ | .opening _ | .closing _ _ => inferInstanceAs (Decidable True)

instance : DecidableRel Segment.Apart := fun first second =>
  match first, second with
  | .text chars, .mustache before source after =>
    inferInstanceAs (Decidable ((Segment.text chars).Before
      (Segment.mustache before source after).source ∧ (stripsLeft source = true →
        ∀ c ∈ chars.getLast?, Text.isBlank c = false)))
  | .text _, .text _ | .text _, .doctype _ => isFalse fun h => h.2
  | .text chars, .comment form value =>
    decidable_of_iff ((Segment.text chars).Before (Segment.comment form value).source)
      (and_iff_left trivial).symm
  | .text chars, .opening tag =>
    decidable_of_iff ((Segment.text chars).Before (Segment.opening tag).source)
      (and_iff_left trivial).symm
  | .text chars, .closing name blanks =>
    decidable_of_iff ((Segment.text chars).Before (Segment.closing name blanks).source)
      (and_iff_left trivial).symm
  | .mustache before source after, second =>
    decidable_of_iff ((Segment.mustache before source after).Before second.source)
      (and_iff_left trivial).symm
  | .comment _ _, _ | .doctype _, _ | .opening _, _ | .closing _ _, _ =>
    isTrue ⟨trivial, trivial⟩

end

/-! ### What text stands for -/

/-- What the characters of a text after the first `skip` stand for, if references are replaced or
not. -/
def contentTextAfter (refs : Bool) (skip : Nat) : List Char → List Char
  | [] => []
  | c :: cs =>
    match skip with
    | skip + 1 => contentTextAfter refs skip cs
    | 0 =>
      if refs = true ∧ c = '&' then
        match Markup.Reference.read? false cs with
        | some (found, count) =>
          found.map Markup.Lexer.visible ++ contentTextAfter refs count cs
        | none => '&' :: contentTextAfter refs 0 cs
      else Markup.Lexer.visible c :: contentTextAfter refs 0 cs

/-- What text stands for: line ends are unified, and NUL is no character. References are replaced,
if not in the content of an element that has none. -/
def contentText (refs : Bool) (cs : List Char) : List Char :=
  contentTextAfter refs 0 (Markup.Lexer.unifyLineEnds cs)

def Segment.decodedTexts : Segment → List (List Char)
  | .text chars => [contentText true (unescaped chars)]
  | .opening tag => tag.attributes.flatMap fun entry => entry.value.toList.flatMap fun value =>
      value.parts.map ValuePart.denotedText
  | _ => []

/-- No reference in a segment spells the marker. -/
def Segment.AvoidsMarker (marker : Char) (segment : Segment) : Prop :=
  ∀ text ∈ segment.decodedTexts, marker ∉ text

/-! ### What a segment leaves in the template -/

def Tag.landmarks : Tag → List Landmark
  | .expression m => [.tag (.expression m)]
  | .comment value => [.tag (.comment value)]
  | .partialCall call => [.tag (.partialCall call)]
  | .openBlock head => [.tag (.block head)]
  | .elseBranch none => [.otherwise]
  | .elseBranch (some head) => [.tag (.elseIf head)]
  | .closeBlock _ => [.close]

/-- The mustaches of a tag are its values; every other mustache is a tag of its own. -/
inductive Segment.Leaves : Segment → List Landmark → Prop where
  | text (chars : List Char) : Leaves (.text chars) []
  | mustache {before source after : List Char} {tag : Tag} : IsTagReadAs source tag →
      Leaves (.mustache before source after) tag.landmarks
  | comment (form : CommentForm) (value : List Char) : Leaves (.comment form value) []
  | doctype (chars : List Char) : Leaves (.doctype chars) []
  | opening {tag : SourceTag} {mustaches : List Mustache} :
      List.Forall₂ IsReadAs (tag.mustaches.map Prod.fst) mustaches →
      Leaves (.opening tag) (mustaches.map fun m => .tag (.expression m))
  | closing (name blanks : List Char) : Leaves (.closing name blanks) []

/-- The strings of a segment that the template has: names, texts and comments. -/
inductive Segment.HasString : Segment → String → Prop where
  | text (chars : List Char) (refs : Bool) :
      HasString (.text chars) (String.ofList (contentText refs (unescaped chars)))
  | mustacheComment {before source after : List Char} {value : String} :
      IsTagReadAs source (.comment value) → HasString (.mustache before source after) value
  | comment (form : CommentForm) (value : List Char) :
      HasString (.comment form value) (String.ofList (contentText false value))
  | tag (tag : SourceTag) : HasString (.opening tag) (String.ofList tag.name)
  | name {tag : SourceTag} {entry : SourceAttribute} : entry ∈ tag.attributes →
      HasString (.opening tag) (String.ofList entry.name)
  | noValue {tag : SourceTag} {entry : SourceAttribute} : entry ∈ tag.attributes →
      HasString (.opening tag) ""
  | value {tag : SourceTag} {entry : SourceAttribute} {value : SourceValue} {chars : List Char} :
      entry ∈ tag.attributes → value ∈ entry.value → .text chars ∈ value.parts →
      HasString (.opening tag) (String.ofList (Markup.valueText chars))

/-! ### Names that lifting writes -/

def markerNames : List String := [blockTag, elseTag, "data-hbs"]

/-- No reserved name stands in a text. -/
def IsUnreserved (cs : List Char) : Prop := ∀ name ∈ markerNames, ¬ name.toList <:+: cs

end MustacheJsx
