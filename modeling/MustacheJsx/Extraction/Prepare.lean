import MustacheJsx.Extraction.Around
import MustacheJsx.Extraction.Generator
import MustacheJsx.Extraction.Value

/-!
# Preparing a template

Three passes, one after the other, take out of opening tags what a tree cannot hold. They share the
names of helpers.

Models `preprocess` and its `STEPS`.
-/

namespace MustacheJsx

def Prepared.through (prepared : Prepared) (pass : List Char → ExtractM Prepared) :
    ExtractM Prepared := do
  let next ← pass prepared.template
  return { next with helpers := prepared.helpers ++ next.helpers }

def prepareWith (template : List Char) : ExtractM Prepared := do
  let prepared : Prepared := { template, helpers := [] }
  let prepared ← prepared.through extractFromValues
  let prepared ← prepared.through extractAround
  prepared.through bindGenerators

/-- The template without blocks in its opening tags, and the helpers that it calls. -/
def prepare (template : List Char) : Except CompileError Prepared :=
  ((prepareWith template).run []).1

end MustacheJsx
