import MustacheJsx.Conversion.Program
import MustacheJsx.Jsx.Grammar
import MustacheJsx.Jsx.Printer
import MustacheJsx.Layout
import MustacheJsx.Extraction.Prepare
import MustacheJsx.Scope.Walk
import MustacheJsx.Template.Assembly

/-!
# Compiling a template

A template is prepared if the options ask for it, read as a tree, resolved, converted, printed and
laid out. The first stage that fails tells why.

Models `compile`, the stages `preprocess`, `parse_template`, `resolve_namespaces`, `create_program`,
`print_program`, `finalize_output` and `verify_output` in a row.
-/

namespace MustacheJsx

def Options.prepare (options : Options) (template : List Char) : Except CompileError Prepared :=
  if options.includeExperimentalFeatures then MustacheJsx.prepare template
  else .ok { template, helpers := [] }

def Prepared.code (prepared : Prepared) (options : Options) : Except CompileError (List Char) := do
  let template ← Template.read prepared.template
  let notes ← template.resolve options
  let program ← template.toProgram options notes prepared.helpers
  return Layout.arrange program.print

/-- Compiles a template. If the options ask for it, the code must pass the grammar. -/
def compile (template : List Char) (options : Options) : Except CompileError (List Char) := do
  let prepared ← options.prepare template
  let code ← prepared.code options
  if options.verifyOutput && !Jsx.isModule code then .error .invalidOutput else return code

end MustacheJsx
