import MustacheJsx.Template.Basic

/-!
# The numbers of bodies

Every body of a block carries a number. `Statement.bodyIds` lists them for a statement, depth first
and in the order of the source; in a template that was read from its source they differ.
-/

namespace MustacheJsx

mutual

def Statement.bodyIds : Statement → List Nat
  | .element _ attributes children _ => bodyIdsOfAttributes attributes ++ bodyIdsOfAll children
  | .text _ => []
  | .mustache _ => []
  | .block _ program inverse =>
    bodyIdsOfBody program ++
      match inverse with
      | some body => bodyIdsOfBody body
      | none => []
  | .partialCall _ => []
  | .mustacheComment _ => []
  | .markupComment _ => []

def Statement.bodyIdsOfAll : List Statement → List Nat
  | [] => []
  | statement :: statements => statement.bodyIds ++ bodyIdsOfAll statements

def Statement.bodyIdsOfBody : Body → List Nat
  | .mk id statements => id :: bodyIdsOfAll statements

def Statement.bodyIdsOfAttributes : List Attribute → List Nat
  | [] => []
  | .mk _ value :: attributes => bodyIdsOfValue value ++ bodyIdsOfAttributes attributes

def Statement.bodyIdsOfValue : AttributeValue → List Nat
  | .text _ => []
  | .mustache _ => []
  | .concat parts => bodyIdsOfAll parts

end

def Statement.bodyIdsOfInverse : Option Body → List Nat
  | some body => bodyIdsOfBody body
  | none => []

theorem Statement.bodyIds_block (head : BlockHead) (program : Body) (inverse : Option Body) :
    (Statement.block head program inverse).bodyIds =
      bodyIdsOfBody program ++ bodyIdsOfInverse inverse := by
  cases inverse <;> rfl

def Template.bodyIds (template : Template) : List Nat := Statement.bodyIdsOfAll template

end MustacheJsx
