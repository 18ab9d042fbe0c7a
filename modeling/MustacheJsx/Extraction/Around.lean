import MustacheJsx.Extraction.Attribute
import MustacheJsx.Extraction.Conditional

/-!
# Blocks around attributes

`{{#if b}}class="c"{{/if}}` becomes an attribute whose value is a call of a helper that returns
nothing where the condition fails. A block between attributes may not wrap anything else.

Models `replace_blocks_around_attributes`.
-/

namespace MustacheJsx

/-- A block around the text of one attribute at the start of `cs`: its opening, whether its end is
that of `unless`, and what follows it. -/
def surroundingBlock? (attributeText cs : List Char) :
    Option (BlockOpening × Bool × List Char) := do
  let (opening, rest) ← BlockOpening.at? cs
  let rest ← Text.afterLead? attributeText (Text.trimStart rest)
  let (negated, rest) ← blockEnd? (Text.trimStart rest)
  return (opening, negated, rest)

namespace WrittenAttribute

def surrounded (written : WrittenAttribute) (opening : BlockOpening) : ConditionalAttribute :=
  { name := written.name, negated := opening.negated, condition := opening.condition
    body := written.value, lead := [], trail := [], keepsRest := false }

/-- Extracts the first block of the tag that wraps this attribute alone, unless that is done. -/
def extractAround (written : WrittenAttribute) (tag : OpeningTag) (found : Extraction) :
    ExtractM Extraction :=
  match Text.cutAtFirst? (surroundingBlock? written.text) tag.text with
  | none => pure found
  | some (before, opening, negated, rest) =>
    let start := tag.start + Text.utf8Length before
    if found.replacements.any fun r => r.start == start then pure found
    else if opening.negated ≠ negated then
      throw (.blockInAttribute (String.ofList written.name)
        (.closedBy (conditionName opening.negated) (conditionName negated)))
    else do
      let (helper, text) ← (written.surrounded opening).extract
      let length := Text.utf8Length tag.text - Text.utf8Length before - Text.utf8Length rest
      return found.add { start, length, text } helper

end WrittenAttribute

def dropBracePairs : List Char → List Char
  | '{' :: '{' :: cs => dropBracePairs cs
  | cs => cs

def TagMustache.opensBlock (m : TagMustache) : Bool :=
  ((dropBracePairs m.text).dropWhile (· == '~')).head? == some '#'

def Extraction.covers (found : Extraction) (offset : Nat) : Bool :=
  found.replacements.any fun r => r.start ≤ offset && offset < r.stop

/-- Extracts the blocks of a tag; afterwards no block may be left between its attributes. -/
def OpeningTag.extractAround (tag : OpeningTag) (found : Extraction) : ExtractM Extraction := do
  let found ← tag.attributes.foldlM (fun found (_, written) =>
    written.extractAround tag found) found
  let isLeft (m : TagMustache) : Bool :=
    !m.inValue && m.opensBlock && !found.covers (tag.start + m.start)
  if tag.mustaches.any isLeft then
    throw (.blockInAttribute (String.ofList tag.name) .noSingleAttribute)
  else pure found

def extractAround (template : List Char) : ExtractM Prepared := do
  let found ← (OpeningTag.all template).foldlM (fun found tag => tag.extractAround found) {}
  ExceptT.mk (pure (found.applyTo template))

end MustacheJsx
