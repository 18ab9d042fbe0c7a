import MustacheJsx.Proofs.Opening.Reference
import MustacheJsx.Proofs.Printing.Template
import MustacheJsx.Proofs.Reading.Unbraced

/-!
# Opening tags as they are written

An opening tag has a name and attributes, and the value of an attribute is a sequence of text and
mustaches, in double quotes, in single quotes or without. `Denotes` says which attribute is what was
written: its value has the same text and the same mustaches in the same order.
-/

namespace MustacheJsx

/-! ### What is written -/

inductive ValuePart where
  | text (chars : List Char)
  | mustache (source : List Char)
  deriving DecidableEq

/-- The value of an attribute with the blanks around its equals sign. -/
structure SourceValue where
  beforeEquals : List Char
  afterEquals : List Char
  quote : Option Char
  parts : List ValuePart

/-- An attribute after its blanks. -/
structure SourceAttribute where
  blanks : List Char
  name : List Char
  value : Option SourceValue

structure SourceTag where
  name : List Char
  attributes : List SourceAttribute
  blanks : List Char
  selfClosing : Bool

namespace ValuePart

def source : ValuePart → List Char
  | .text chars => chars
  | .mustache source => source

def mustache? : ValuePart → Option (List Char)
  | .text _ => none
  | .mustache source => some source

end ValuePart

namespace SourceValue

def source (value : SourceValue) : List Char :=
  value.beforeEquals ++ '=' :: (value.afterEquals ++ (value.quote.toList ++
    (value.parts.flatMap ValuePart.source ++ value.quote.toList)))

def lone? (value : SourceValue) : Option (List Char) :=
  match value.quote, value.parts with
  | none, [.mustache source] => some source
  | _, _ => none

theorem lone?_eq_some {value : SourceValue} {source : List Char}
    (h : value.lone? = some source) : value.quote = none ∧ value.parts = [.mustache source] := by
  rw [lone?] at h
  split at h
  · next hquote hparts =>
    cases h
    exact ⟨hquote, hparts⟩
  · cases h

end SourceValue

def SourceAttribute.source (entry : SourceAttribute) : List Char :=
  entry.blanks ++ (entry.name ++ (entry.value.map SourceValue.source).getD [])

def SourceTag.source (tag : SourceTag) : List Char :=
  '<' :: (tag.name ++ (tag.attributes.flatMap SourceAttribute.source ++ (tag.blanks ++
    tagEnd tag.selfClosing)))

/-! ### What may be written -/

def isTagNameChar (c : Char) : Bool :=
  !Text.isBlank c && !(['/', '>', '=', '"', '\'', '&', '{', '\x00'].contains c)

/-- What such a character is not. -/
structure IsNamePart (c : Char) : Prop where
  blank : Text.isBlank c = false
  slash : c ≠ '/'
  greater : c ≠ '>'
  equals : c ≠ '='
  double : c ≠ '"'
  single : c ≠ '\''
  amp : c ≠ '&'
  brace : c ≠ '{'
  nul : c ≠ '\x00'

theorem isNamePart_of_isTagNameChar {c : Char} (h : isTagNameChar c = true) : IsNamePart c := by
  simp only [isTagNameChar, Bool.and_eq_true, Bool.not_eq_true', List.contains_eq_mem,
    decide_eq_false_iff_not, List.mem_cons, not_or] at h
  obtain ⟨hblank, hslash, hgreater, hequals, hdouble, hsingle, hamp, hbrace, hnul, -⟩ := h
  exact ⟨hblank, hslash, hgreater, hequals, hdouble, hsingle, hamp, hbrace, hnul⟩

/-- A name that may be written in a tag, in capitals or not. -/
def IsTagName (name : List Char) : Prop := name ≠ [] ∧ ∀ c ∈ name, isTagNameChar c = true

/-- A mustache that ends where its source ends, and is no comment. -/
def IsMustache (source : List Char) : Prop :=
  ['{', '{'] <+: source ∧
    ∃ span, Span.read source = .ok span ∧ span.rest = [] ∧ span.content.head? ≠ some '!'

/-- Two texts do not stand side by side, and a mustache after a text begins where it says. -/
def ValuePart.Apart : ValuePart → ValuePart → Prop
  | .text _, .text _ => False
  | .text chars, .mustache _ => ∀ c ∈ chars.getLast?, c ≠ '{' ∧ c ≠ '\\'
  | .mustache _, _ => True

/-- A character that may stand in the text of a value in these quotes. -/
def isValueChar (quote : Option Char) (c : Char) : Bool :=
  match quote with
  | some q => c != q
  | none => !Text.isBlank c && !(['"', '\'', '<', '>', '`'].contains c)

def ValuePart.IsWritten (quote : Option Char) : ValuePart → Prop
  | .text chars => chars ≠ [] ∧ Unbraced chars ∧ ∀ c ∈ chars, isValueChar quote c = true
  | .mustache source => IsMustache source

structure SourceValue.IsWritten (value : SourceValue) : Prop where
  beforeEquals : ∀ c ∈ value.beforeEquals, Text.isAsciiBlank c = true
  afterEquals : ∀ c ∈ value.afterEquals, Text.isAsciiBlank c = true
  quote : ∀ q ∈ value.quote, q = '"' ∨ q = '\''
  nonempty : value.quote = none → value.parts ≠ []
  parts : ∀ part ∈ value.parts, part.IsWritten value.quote
  apart : value.parts.IsChain ValuePart.Apart

theorem SourceValue.IsWritten.texts {value : SourceValue} (h : value.IsWritten) :
    ∀ chars, .text chars ∈ value.parts →
      chars ≠ [] ∧ Unbraced chars ∧ ∀ c ∈ chars, isValueChar value.quote c = true :=
  fun _ hmem => h.parts _ hmem

theorem SourceValue.IsWritten.mustaches {value : SourceValue} (h : value.IsWritten) :
    ∀ source, .mustache source ∈ value.parts → IsMustache source :=
  fun _ hmem => h.parts _ hmem

/-- The name that markup gives to what was written. -/
def smallName (name : List Char) : String := String.ofList (name.map Text.lowerAscii)

structure SourceAttribute.IsWritten (entry : SourceAttribute) : Prop where
  blanks : entry.blanks ≠ [] ∧ ∀ c ∈ entry.blanks, Text.isAsciiBlank c = true
  name : IsTagName entry.name
  value : ∀ value ∈ entry.value, value.IsWritten

structure SourceTag.IsWritten (tag : SourceTag) : Prop where
  head : ∀ c ∈ tag.name.head?, Text.isAsciiLetter c = true
  name : IsTagName tag.name
  element : smallName tag.name ≠ blockTag ∧ smallName tag.name ≠ elseTag
  attributes : ∀ entry ∈ tag.attributes, entry.IsWritten
  own : ∀ entry ∈ tag.attributes,
    smallName entry.name ≠ tagSpelling ∧ smallName entry.name ≠ attributeSpellings
  distinct : (tag.attributes.map fun entry => smallName entry.name).Nodup
  blanks : ∀ c ∈ tag.blanks, Text.isAsciiBlank c = true

/-! ### Checking what is written -/

section

instance (name : List Char) : Decidable (IsTagName name) := inferInstanceAs (Decidable (_ ∧ _))

instance (source : List Char) : Decidable (IsMustache source) :=
  match h : Span.read source with
  | .ok span =>
    decidable_of_iff (['{', '{'] <+: source ∧ span.rest = [] ∧ span.content.head? ≠ some '!')
      ⟨fun ⟨hbraces, hspan⟩ => ⟨hbraces, span, h, hspan⟩, fun ⟨hbraces, other, hread, hspan⟩ => by
        cases h.symm.trans hread
        exact ⟨hbraces, hspan⟩⟩
  | .error fault => isFalse fun ⟨_, other, hread, _⟩ => nomatch h.symm.trans hread

instance : DecidableRel ValuePart.Apart
  | .text _, .text _ => inferInstanceAs (Decidable False)
  | .text chars, .mustache _ =>
    inferInstanceAs (Decidable (∀ c ∈ chars.getLast?, c ≠ '{' ∧ c ≠ '\\'))
  | .mustache _, _ => inferInstanceAs (Decidable True)

instance (quote : Option Char) : (part : ValuePart) → Decidable (part.IsWritten quote)
  | .text chars => inferInstanceAs (Decidable (_ ∧ _ ∧ ∀ c ∈ chars, isValueChar quote c = true))
  | .mustache source => inferInstanceAs (Decidable (IsMustache source))

instance (value : SourceValue) : Decidable value.IsWritten :=
  decidable_of_iff ((∀ c ∈ value.beforeEquals, Text.isAsciiBlank c = true) ∧
      (∀ c ∈ value.afterEquals, Text.isAsciiBlank c = true) ∧
      (∀ q ∈ value.quote, q = '"' ∨ q = '\'') ∧ (value.quote = none → value.parts ≠ []) ∧
      (∀ part ∈ value.parts, part.IsWritten value.quote) ∧ value.parts.IsChain ValuePart.Apart)
    ⟨fun ⟨hbefore, hafter, hquote, hne, hparts, hapart⟩ =>
      ⟨hbefore, hafter, hquote, hne, hparts, hapart⟩,
    fun h => ⟨h.beforeEquals, h.afterEquals, h.quote, h.nonempty, h.parts, h.apart⟩⟩

instance (entry : SourceAttribute) : Decidable entry.IsWritten :=
  decidable_of_iff ((entry.blanks ≠ [] ∧ ∀ c ∈ entry.blanks, Text.isAsciiBlank c = true) ∧
      IsTagName entry.name ∧ ∀ value ∈ entry.value, value.IsWritten)
    ⟨fun ⟨hblanks, hname, hvalue⟩ => ⟨hblanks, hname, hvalue⟩,
    fun h => ⟨h.blanks, h.name, h.value⟩⟩

instance (tag : SourceTag) : Decidable tag.IsWritten :=
  decidable_of_iff ((∀ c ∈ tag.name.head?, Text.isAsciiLetter c = true) ∧ IsTagName tag.name ∧
      (smallName tag.name ≠ blockTag ∧ smallName tag.name ≠ elseTag) ∧
      (∀ entry ∈ tag.attributes, entry.IsWritten) ∧
      (∀ entry ∈ tag.attributes,
        smallName entry.name ≠ tagSpelling ∧ smallName entry.name ≠ attributeSpellings) ∧
      (tag.attributes.map fun entry => smallName entry.name).Nodup ∧
      ∀ c ∈ tag.blanks, Text.isAsciiBlank c = true)
    ⟨fun ⟨hhead, hname, helement, hattributes, hown, hdistinct, hblanks⟩ =>
      ⟨hhead, hname, helement, hattributes, hown, hdistinct, hblanks⟩,
    fun h => ⟨h.head, h.name, h.element, h.attributes, h.own, h.distinct, h.blanks⟩⟩

end

/-! ### Where a value without quotes is kept together

Lifting knows of a value without quotes only what stands before the next character. It takes a
mustache at the beginning of a value for the whole value, each `=` for the beginning of a value, and
`/` before `>` for the end of the tag.
-/

def SourceValue.IsTracked (value : SourceValue) : Prop :=
  value.quote = none → value.lone? = none →
    (∀ part ∈ value.parts.head?, part.mustache? = none) ∧
    ∀ part ∈ value.parts, part.source.getLast? ≠ some '='

structure SourceTag.IsTracked (tag : SourceTag) : Prop where
  values : ∀ entry ∈ tag.attributes, ∀ value ∈ entry.value, value.IsTracked
  ending : tag.blanks = [] → ∀ entry ∈ tag.attributes.getLast?, ∀ value ∈ entry.value,
    value.quote = none → value.lone? = none → tag.selfClosing = false ∧
      ∀ part ∈ value.parts.getLast?, part.source.getLast? ≠ some '/'

instance (value : SourceValue) : Decidable value.IsTracked :=
  inferInstanceAs (Decidable (value.quote = none → value.lone? = none → _ ∧ _))

instance (tag : SourceTag) : Decidable tag.IsTracked :=
  decidable_of_iff ((∀ entry ∈ tag.attributes, ∀ value ∈ entry.value, value.IsTracked) ∧
      (tag.blanks = [] → ∀ entry ∈ tag.attributes.getLast?, ∀ value ∈ entry.value,
        value.quote = none → value.lone? = none → tag.selfClosing = false ∧
          ∀ part ∈ value.parts.getLast?, part.source.getLast? ≠ some '/'))
    ⟨fun ⟨hvalues, hending⟩ => ⟨hvalues, hending⟩, fun h => ⟨h.values, h.ending⟩⟩

/-! ### What it denotes -/

def IsReadAs (source : List Char) (m : Mustache) : Prop :=
  ∃ span offset next last, Span.read source = .ok span ∧
    Tag.read span.content span.trusting offset next = (.ok (.expression m), last)

inductive ValuePart.Denotes : ValuePart → Statement → Prop where
  | text (chars : List Char) :
      Denotes (.text chars) (.text (String.ofList (Markup.valueText chars)))
  | mustache {source : List Char} {m : Mustache} : IsReadAs source m →
      Denotes (.mustache source) (.mustache m)

def ValuePart.denotedText : ValuePart → List Char
  | .text chars => Markup.valueText chars
  | .mustache _ => []

inductive SourceValue.Denotes (value : SourceValue) : AttributeValue → Prop where
  | text : (∀ source, .mustache source ∉ value.parts) →
      Denotes value (.text (String.ofList (value.parts.flatMap ValuePart.denotedText)))
  | mustache {source : List Char} {m : Mustache} : value.lone? = some source →
      IsReadAs source m → Denotes value (.mustache m)
  | concat {source : List Char} {parts : List Statement} : value.lone? = none →
      .mustache source ∈ value.parts → List.Forall₂ ValuePart.Denotes value.parts parts →
      Denotes value (.concat parts)

/-- An attribute without a value has an empty one. -/
def SourceAttribute.Denotes (entry : SourceAttribute) (found : Attribute) : Prop :=
  found.name = String.ofList entry.name ∧
    match entry.value with
    | some value => value.Denotes found.value
    | none => found.value = .text ""

end MustacheJsx
