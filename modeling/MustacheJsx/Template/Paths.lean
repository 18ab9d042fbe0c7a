import MustacheJsx.Template.Basic

/-!
# The paths of a template

All paths that a template holds, depth first and in the order of the source: values, heads of helper
calls and arguments. The name of a block is no value and is left out.

The order is that of the `walk_` functions of `TemplateVisitor`.
-/

namespace MustacheJsx

mutual

def Expression.paths : Expression → List Path
  | .path p => [p]
  | .literal _ => []
  | .call callee params hash => callee.paths ++ pathsOfParams params ++ pathsOfHash hash

def Expression.pathsOfParams : List Expression → List Path
  | [] => []
  | param :: params => param.paths ++ pathsOfParams params

def Expression.pathsOfHash : List (String × Expression) → List Path
  | [] => []
  | (_, value) :: pairs => value.paths ++ pathsOfHash pairs

end

def pathsOfArguments (params : List Expression) (hash : Hash) : List Path :=
  Expression.pathsOfParams params ++ Expression.pathsOfHash hash

def Mustache.paths (m : Mustache) : List Path := m.callee.paths ++ pathsOfArguments m.params m.hash

mutual

def Statement.paths : Statement → List Path
  | .element _ attributes children _ => pathsOfAttributes attributes ++ pathsOfAll children
  | .text _ => []
  | .mustache m => m.paths
  | .block head program inverse =>
    pathsOfArguments head.params head.hash ++ pathsOfBody program ++
      match inverse with
      | some body => pathsOfBody body
      | none => []
  | .partialCall call => pathsOfArguments call.params call.hash
  | .mustacheComment _ => []
  | .markupComment _ => []

def Statement.pathsOfAll : List Statement → List Path
  | [] => []
  | statement :: statements => statement.paths ++ pathsOfAll statements

def Statement.pathsOfBody : Body → List Path
  | .mk _ statements => pathsOfAll statements

def Statement.pathsOfAttributes : List Attribute → List Path
  | [] => []
  | .mk _ value :: attributes => pathsOfValue value ++ pathsOfAttributes attributes

def Statement.pathsOfValue : AttributeValue → List Path
  | .text _ => []
  | .mustache m => m.paths
  | .concat parts => pathsOfAll parts

end

def Template.paths (template : Template) : List Path := Statement.pathsOfAll template

end MustacheJsx
