import MustacheJsx.Extraction.Attribute
import MustacheJsx.Extraction.Conditional

/-!
# Blocks within values

`class="a {{#if b}}c{{/if}} d"` becomes a call of a helper that returns the value with or without
the body of the block.

Models `replace_blocks_within_attributes`.
-/

namespace MustacheJsx

def WrittenAttribute.conditional? (written : WrittenAttribute) :
    Except AttributeBlockFault ConditionalAttribute :=
  match BlockOpening.last? written.value with
  | none => .error .noSingleBlock
  | some (lead, opening, rest) =>
    match lastBlockEnd? rest with
    | none => .error .noSingleBlock
    | some (body, negated, trail) =>
      if opening.negated = negated then
        .ok { name := written.name, negated, condition := opening.condition, body, lead, trail
              keepsRest := true }
      else .error (.closedBy (conditionName opening.negated) (conditionName negated))

def WrittenAttribute.extractFromValue (written : WrittenAttribute) (start : Nat)
    (found : Extraction) : ExtractM Extraction :=
  if hasBlock written.value then
    match written.conditional? with
    | .error fault => throw (.blockInAttribute (String.ofList written.name) fault)
    | .ok conditional => do
      let (helper, text) ← conditional.extract
      return found.add { start, length := Text.utf8Length written.text, text } helper
  else pure found

def OpeningTag.extractFromValues (tag : OpeningTag) (found : Extraction) : ExtractM Extraction :=
  tag.attributes.foldlM (fun found (offset, written) =>
    written.extractFromValue (tag.start + offset) found) found

def extractFromValues (template : List Char) : ExtractM Prepared := do
  let found ← (OpeningTag.all template).foldlM (fun found tag => tag.extractFromValues found) {}
  ExceptT.mk (pure (found.applyTo template))

end MustacheJsx
