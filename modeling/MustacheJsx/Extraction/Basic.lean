/-!
# Helpers of prepared templates

A block inside an opening tag is no tree. Extraction moves what it chooses between into a helper, a
function of the condition, and leaves a call of the helper in the tag.

Models `HelperPart`, `ConditionalHelper` and `PreparedTemplate`.
-/

namespace MustacheJsx

/-- A piece of what a helper returns. -/
inductive HelperPart where
  | text (chars : String)
  | param (name : String)
  deriving DecidableEq

/-- A helper: its first parameter chooses between a sum of parts and another text. -/
structure Helper where
  name : String
  params : List String
  /-- Whether the parts are returned when the condition fails. -/
  negate : Bool
  /-- The parts that are added up. -/
  consequent : List HelperPart
  /-- The other text; without one, nothing is returned. -/
  alternate : Option String
  deriving DecidableEq

/-- A template after extraction, with the helpers that it calls in the order of discovery. -/
structure Prepared where
  template : List Char
  helpers : List Helper
  deriving DecidableEq

end MustacheJsx
