import MustacheJsx.Extraction.OpeningTag
import MustacheJsx.Extraction.Conditional
import MustacheJsx.Vocabulary

/-!
# Mustaches that generate attributes

A mustache between attributes that calls a helper with arguments generates attributes. It becomes
the value of an attribute with a name of its own, which a later stage knows.

Models `is_generator_call` and `replace_attribute_generators`.
-/

namespace MustacheJsx

namespace TagMustache

def content (m : TagMustache) : List Char := (m.text.drop 2).take (m.text.length - 4)

def trimTildes (cs : List Char) : List Char :=
  ((cs.dropWhile (· == '~')).reverse.dropWhile (· == '~')).reverse

def isOtherTag (cs : List Char) : Bool :=
  cs.head?.any (['#', '/', '!', '^', '>', '&', '{'].contains ·) ||
    Text.startsWith ['e', 'l', 's', 'e'] cs

def isGeneratorCall (m : TagMustache) : Bool :=
  let core := Text.trim (trimTildes (Text.trim m.content))
  !isOtherTag core && 1 < (Text.words core).length

end TagMustache

/-- The name of the attribute for the `count`th call of a tag. -/
def generatorName (count : Nat) : List Char :=
  Vocabulary.generatorAttribute.toList ++
    if count = 1 then [] else '-' :: count.repr.toList

def TagMustache.bind (m : TagMustache) (start count : Nat) : Replacement :=
  { start, length := Text.utf8Length m.text
    text := generatorName count ++ ['=', '"', '{', '{'] ++
      Text.joinWith ' ' (Text.words m.content) ++ ['}', '}', '"'] }

/-- Binds the calls among the mustaches of a tag, of which `count` are bound already. -/
def OpeningTag.bindGenerators (tag : OpeningTag) (count : Nat) :
    List TagMustache → List Replacement
  | [] => []
  | m :: ms =>
    if !m.inValue && m.isGeneratorCall then
      m.bind (tag.start + m.start) (count + 1) :: bindGenerators tag (count + 1) ms
    else bindGenerators tag count ms

def bindGenerators (template : List Char) : ExtractM Prepared :=
  let replacements := (OpeningTag.all template).flatMap fun tag =>
    tag.bindGenerators 0 tag.mustaches
  let found : Extraction := { replacements }
  ExceptT.mk (pure (found.applyTo template))

end MustacheJsx
