import MustacheJsx.Error
import MustacheJsx.Extraction.Basic
import MustacheJsx.Extraction.Block
import MustacheJsx.Extraction.Splice

/-!
# Attributes that depend on a condition

An attribute whose value depends on a condition becomes a call of a helper. The block may hold one
plain mustache, which the helper takes as its second parameter.

Models `ConditionalAttribute` with `build` and `unsupported`.
-/

namespace MustacheJsx

/-- An attribute with a conditional block. -/
structure ConditionalAttribute where
  name : List Char
  negated : Bool
  condition : List Char
  body : List Char
  /-- The text of the value before the block. -/
  lead : List Char
  /-- The text of the value after the block. -/
  trail : List Char
  /-- Whether the value is there without the block. -/
  keepsRest : Bool

/-! ### What a pass finds -/

abbrev ExtractM := ExceptT CompileError (StateM HelperNames)

/-- The replacements and the helpers that a pass has found so far. -/
structure Extraction where
  replacements : List Replacement := []
  helpers : List Helper := []

namespace Extraction

def add (found : Extraction) (replacement : Replacement) (helper : Helper) : Extraction :=
  { replacements := found.replacements ++ [replacement], helpers := found.helpers ++ [helper] }

def applyTo (found : Extraction) (template : List Char) : Except CompileError Prepared :=
  (splice template found.replacements).map fun template => { template, helpers := found.helpers }

end Extraction

/-! ### One attribute -/

namespace ConditionalAttribute

def fault? (a : ConditionalAttribute) : Option AttributeBlockFault :=
  if hasBranch a.body then some .elseBranch
  else if Text.contains ['{', '{', '#'] a.body then some .nestedBlock
  else
    match Text.cutAtFirst? plainMustache? a.body with
    | none => if Text.contains ['{', '{'] a.body then some .noPlainMustache else none
    | some (_, _, rest) =>
      if (Text.cutAtFirst? plainMustache? rest).isSome then some .severalMustaches else none

def textPart (cs : List Char) : List HelperPart :=
  if cs.isEmpty then [] else [.text (String.ofList cs)]

def conditionParam (a : ConditionalAttribute) : String := paramName a.condition "condition"

/-- The parameter for the mustache in the body; it differs from that for the condition. -/
def valueParam (a : ConditionalAttribute) (path : List Char) : String :=
  let name := paramName path "value"
  if name = a.conditionParam then name ++ "Value" else name

def helper (a : ConditionalAttribute) (name : String) : Helper × List (List Char) :=
  let alternate := if a.keepsRest then some (String.ofList (a.lead ++ a.trail)) else none
  match Text.cutAtFirst? plainMustache? a.body with
  | some (before, path, rest) =>
    let value := a.valueParam path
    ({ name, params := [a.conditionParam, value], negate := a.negated
       consequent := textPart (a.lead ++ before) ++ [.param value] ++ textPart (rest ++ a.trail)
       alternate }, [a.condition, path])
  | none =>
    ({ name, params := [a.conditionParam], negate := a.negated
       consequent := [.text (String.ofList (a.lead ++ a.body ++ a.trail))]
       alternate }, [a.condition])

def callText (a : ConditionalAttribute) (name : String) (arguments : List (List Char)) :
    List Char :=
  a.name ++ ['=', '"', '{', '{'] ++ name.toList ++ [' '] ++ Text.joinWith ' ' arguments ++
    ['}', '}', '"']

def extract (a : ConditionalAttribute) : ExtractM (Helper × List Char) :=
  match a.fault? with
  | some fault => throw (.blockInAttribute (String.ofList a.name) fault)
  | none => do
    let (name, taken) := (← get).unique (helperBase a.name a.negated)
    set taken
    let (helper, arguments) := a.helper name
    return (helper, a.callText name arguments)

end ConditionalAttribute

end MustacheJsx
