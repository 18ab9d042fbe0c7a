import MustacheJsx.Conversion.Statement
import MustacheJsx.Proofs.Rendering.Value

/-!
# What a template renders

A template is rendered for its data without any code in between. A path is read in the context: the
data, the item of the innermost loop, or the argument of a `with` block inside it. Rendering fails
where a path reads a property that is not there, where a loop has no list, and for what only code
can say: helpers, partials, links and paths with `../`.
-/

namespace MustacheJsx

/-- What paths are read in: a value, and the index of the innermost loop. -/
structure Context where
  value : Value
  index : Option Value := none

def Value.chain (properties : List String) (value : Value) : Option Value :=
  properties.foldlM (fun value property => value.member property) value

def Context.read (context : Context) (path : Path) : Option Value :=
  if path.depth ≠ 0 then none
  else if path.data then
    if path.parts = ["index"] ∨ path.parts = ["key"] then context.index else none
  else context.value.chain path.parts

def Literal.value : Literal → Value
  | .boolean value => .boolean value
  | .number value => .number value
  | .string value => .string value
  | .null => .null
  | .undefined => .undefined

def Mustache.value? (context : Context) (m : Mustache) : Option Value :=
  if m.isHelperCall then none
  else
    match m.callee with
    | .literal l => some l.value
    | .path p => context.read p
    | .call _ _ _ => none

/-- The value that a block is about: its first argument, a path. -/
def BlockHead.value? (context : Context) (head : BlockHead) : Option Value :=
  match head.params with
  | .path p :: _ => context.read p
  | _ => none

mutual

def Statement.rendered (context : Context) : Statement → Option (List Mark)
  | .element tag _ children selfClosing =>
    if selfClosing || isSelfClosingName tag then some (Mark.ofElement tag [])
    else (renderedAll context children).map (Mark.ofElement tag)
  | .text chars => some (Mark.ofText chars)
  | .mustache m => (m.value? context).bind Value.render
  | .block head program inverse =>
    (head.value? context).bind fun value =>
      let otherwise := match inverse with
        | some body => renderedBody context body
        | none => some []
      if head.name = "if" then if value.truthy then renderedBody context program else otherwise
      else if head.name = "unless" then
        if value.truthy then otherwise else renderedBody context program
      else if head.name = "with" then
        if value.truthy then renderedBody { context with value } program else otherwise
      else if head.name = "each" then
        match value with
        | .list [] => otherwise
        | .list items =>
          let turn := fun (item, n) =>
            renderedBody { value := item, index := some (.number (.ofNat n)) } program
          (items.zipIdx.mapM turn).map List.flatten
        | _ => none
      else none
  | .partialCall _ => none
  | .mustacheComment _ => some []
  | .markupComment _ => some []

def Statement.renderedAll (context : Context) : List Statement → Option (List Mark)
  | [] => some []
  | statement :: statements => do
    let first ← statement.rendered context
    let rest ← renderedAll context statements
    return first ++ rest

def Statement.renderedBody (context : Context) : Body → Option (List Mark)
  | .mk _ statements => renderedAll context statements

end

def Statement.renderedInverse (context : Context) : Option Body → Option (List Mark)
  | some body => renderedBody context body
  | none => some []

def Statement.renderedTurns (items : List Value) (program : Body) : Option (List (List Mark)) :=
  items.zipIdx.mapM fun (item, n) =>
    renderedBody { value := item, index := some (.number (.ofNat n)) } program

theorem Statement.rendered_block (context : Context) (head : BlockHead) (program : Body)
    (inverse : Option Body) :
    (Statement.block head program inverse).rendered context =
      (head.value? context).bind fun value =>
        if head.name = "if" then
          if value.truthy then renderedBody context program else renderedInverse context inverse
        else if head.name = "unless" then
          if value.truthy then renderedInverse context inverse else renderedBody context program
        else if head.name = "with" then
          if value.truthy then renderedBody { context with value } program
          else renderedInverse context inverse
        else if head.name = "each" then
          match value with
          | .list [] => renderedInverse context inverse
          | .list items => (renderedTurns items program).map List.flatten
          | _ => none
        else none := by
  cases inverse <;> rfl

def Template.rendered (data : Value) (template : Template) : Option (List Mark) :=
  Statement.renderedAll { value := data } template

/-! ### Texts -/

mutual

/-- The texts of a statement, those in attributes aside. -/
def Statement.texts : Statement → List String
  | .element _ _ children _ => textsOfAll children
  | .text chars => [chars]
  | .block _ program inverse =>
    textsOfBody program ++
      match inverse with
      | some body => textsOfBody body
      | none => []
  | .mustache _ => []
  | .partialCall _ => []
  | .mustacheComment _ => []
  | .markupComment _ => []

def Statement.textsOfAll : List Statement → List String
  | [] => []
  | statement :: statements => statement.texts ++ textsOfAll statements

def Statement.textsOfBody : Body → List String
  | .mk _ statements => textsOfAll statements

end

def Statement.textsOfInverse : Option Body → List String
  | some body => textsOfBody body
  | none => []

theorem Statement.texts_block (head : BlockHead) (program : Body) (inverse : Option Body) :
    (Statement.block head program inverse).texts =
      textsOfBody program ++ textsOfInverse inverse := by
  cases inverse <;> rfl

def Template.texts (template : Template) : List String := Statement.textsOfAll template

end MustacheJsx
