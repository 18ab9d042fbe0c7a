import MustacheJsx.Vocabulary

/-!
# Compile options

Six switches decide how a template is compiled. Without any, the output is a component that is no
module.

Models `CompileOptions` with `emits_imports` and `root_scope`.
-/

namespace MustacheJsx

/-- How a template is compiled. -/
structure Options where
  /-- Whether the output is a function of its data. -/
  isComponent : Bool := true
  /-- Whether the output is the default export of a module. -/
  isModule : Bool := false
  /-- Whether a module imports what it uses. -/
  includeImport : Bool := false
  /-- Whether the data is in a property of the parameter. -/
  alwaysIncludeContext : Bool := false
  /-- Whether blocks in opening tags are extracted first. -/
  includeExperimentalFeatures : Bool := false
  /-- Whether the output must pass the grammar check. -/
  verifyOutput : Bool := false
  deriving DecidableEq

namespace Options

def emitsImports (options : Options) : Bool := options.includeImport && options.isModule

/-- What every path of the outermost scope begins with: nothing, unless the output is a
component. -/
def rootScope (options : Options) : List String :=
  if !options.isComponent then []
  else if options.alwaysIncludeContext then [Vocabulary.rootParam, Vocabulary.context]
  else [Vocabulary.rootParam]

theorem rootScope_eq_nil_iff {options : Options} :
    options.rootScope = [] ↔ options.isComponent = false := by
  cases h : options.isComponent with
  | false => simp [rootScope, h]
  | true =>
    rw [rootScope]
    split
    · next hn => simp [h] at hn
    · split <;> simp

end Options

end MustacheJsx
