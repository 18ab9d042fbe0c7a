import MustacheJsx.Conversion.Statement
import MustacheJsx.Extraction.Basic

/-!
# Programs

The output imports what it uses, defines the helpers of the prepared template, and ends with the
template itself: as a function of its data or as a plain term, exported or not.

Models `default_import`, `const_declaration`, `create_helper`, `create_imports` and
`create_program`.
-/

namespace MustacheJsx

/-! ### Helpers -/

def HelperPart.toTerm : HelperPart → Jsx.Term
  | .text chars => .string chars
  | .param name => .name name

def Helper.test (helper : Helper) : Jsx.Term :=
  let condition := Jsx.Term.name (helper.params.head?.getD "condition")
  if helper.negate then .not condition else condition

def Helper.toTerm (helper : Helper) : Jsx.Term :=
  .arrow helper.params
    (.conditional helper.test (.sum (helper.consequent.map HelperPart.toTerm))
      (match helper.alternate with
        | some chars => .string chars
        | none => .name "undefined"))

/-! ### Imports -/

def Jsx.Statement.siblingImport (name : String) : Jsx.Statement :=
  .defaultImport name ("./" ++ name)

/-- The imports: the framework, the partials, and the helpers that are not defined in the output. -/
def Annotations.toImports (notes : Annotations) (helpers : List Helper) : List Jsx.Statement :=
  let defined := helpers.map Helper.name
  let others := notes.helpers.filter fun name => !defined.contains name
  .defaultImport Vocabulary.framework Vocabulary.frameworkSource ::
    (notes.partials ++ others).map Jsx.Statement.siblingImport

/-! ### The output -/

def Options.toRoot (options : Options) (root : Jsx.Term) : Jsx.Statement :=
  let term := if options.isComponent then .arrow [Vocabulary.rootParam] root else root
  if options.isModule then .defaultExport term else .expression term

def Template.toProgram (template : Template) (options : Options) (notes : Annotations)
    (helpers : List Helper) : Except CompileError Jsx.Program := do
  let root ← template.toTerm notes
  let imports := if options.emitsImports then notes.toImports helpers else []
  let definitions := helpers.map fun helper => Jsx.Statement.constant helper.name helper.toTerm
  return imports ++ definitions ++ [options.toRoot root]

end MustacheJsx
