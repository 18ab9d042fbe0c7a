import MustacheJsx.Scope.Basic
import MustacheJsx.Text.Blank

/-!
# Naming the scope of every path

A walk through the template, depth first and in the order of the source, resolves every path that is
read and collects the names that are called. A block that opens a scope says so before its arguments
are read; the scope then begins with its program and ends with it. The first failure is kept, and
the walk goes on.

Models `NamespaceResolver`, whose `visit_` methods go along the `walk_` functions of
`TemplateVisitor`, with `collect_helper` and `resolve_namespaces`.
-/

namespace MustacheJsx

/-- What a walk knows between two nodes. -/
structure Walk where
  /-- The open scopes, the innermost first. -/
  scopes : List Scope
  /-- The scope that begins with the next body. -/
  pending : Option (ScopeKind × List String) := none
  annotations : Annotations := {}
  error : Option CompileError := none

namespace Walk

/-! ### Single nodes -/

def fail (w : Walk) (error : CompileError) : Walk :=
  { w with error := w.error.or (some error) }

def visitPath (w : Walk) (path : Path) : Walk :=
  match Scope.resolve w.scopes path with
  | .ok segments => { w with annotations := w.annotations.record path segments }
  | .error e => w.fail e

def visitCallee (w : Walk) (callee : Expression) : Walk :=
  { w with annotations := w.annotations.addCallee callee }

/-- The scope that a block announces: of a loop, or narrowed to the argument of a `with`. -/
def announce (w : Walk) (head : BlockHead) : Walk :=
  if head.name = "each" then { w with pending := some (.loop, [Vocabulary.loopItem]) }
  else if head.name = "with" then
    match head.params with
    | .path path :: _ =>
      match Scope.resolve w.scopes path with
      | .ok segments => { w with pending := some (.narrowing, segments) }
      | .error e => w.fail e
    | _ => w.fail (.blockParams "with" .path)
  else if head.name = "linkTo" then
    { w with annotations := w.annotations.addPartial Vocabulary.link }
  else w

/-- Begins the announced scope with the body `id`. -/
def enter (w : Walk) (id : Nat) : Walk :=
  match w.pending with
  | some (kind, segments) =>
    { w with pending := none, scopes := { bound := some id, kind, segments } :: w.scopes }
  | none => w

/-- Ends the innermost scope if it began with the body `id`. -/
def leave (w : Walk) (id : Nat) : Walk :=
  match w.scopes with
  | scope :: scopes => if scope.bound = some id then { w with scopes } else w
  | [] => w

/-! ### Expressions -/

mutual

/-- Reads an expression. The head of a call names a helper and is no value. -/
def visitExpression (w : Walk) : Expression → Walk
  | .path p => w.visitPath p
  | .literal _ => w
  | .call callee params hash => ((w.visitCallee callee).visitParams params).visitHash hash

def visitParams (w : Walk) : List Expression → Walk
  | [] => w
  | param :: params => (w.visitExpression param).visitParams params

def visitHash (w : Walk) : List (String × Expression) → Walk
  | [] => w
  | (_, value) :: pairs => (w.visitExpression value).visitHash pairs

end

/-- Reads a mustache: its arguments if it calls a helper, otherwise its value alone. -/
def visitMustache (w : Walk) (m : Mustache) : Walk :=
  if m.isHelperCall then ((w.visitCallee m.callee).visitParams m.params).visitHash m.hash
  else w.visitExpression m.callee

def visitPartial (w : Walk) (call : PartialCall) : Walk :=
  let w := { w with annotations := w.annotations.addPartial call.name }
  (w.visitParams call.params).visitHash call.hash

/-! ### Statements -/

mutual

def visitStatement (w : Walk) : Statement → Walk
  | .element _ attributes children _ => (w.visitAttributes attributes).visitStatements children
  | .text _ => w
  | .mustache m => w.visitMustache m
  | .block head program inverse =>
    let w := (((w.announce head).visitParams head.params).visitHash head.hash).visitBody program
    match inverse with
    | some body => w.visitBody body
    | none => w
  | .partialCall call => w.visitPartial call
  | .mustacheComment _ => w
  | .markupComment _ => w

def visitStatements (w : Walk) : List Statement → Walk
  | [] => w
  | statement :: statements => (w.visitStatement statement).visitStatements statements

def visitBody (w : Walk) : Body → Walk
  | .mk id statements => ((w.enter id).visitStatements statements).leave id

/-- Reads attributes in order. One that generates attributes calls a function of its own. -/
def visitAttributes (w : Walk) : List Attribute → Walk
  | [] => w
  | .mk name value :: attributes =>
    let w :=
      if Text.startsWith Vocabulary.generatorAttribute.toList name.toList then
        { w with annotations := w.annotations.addHelper Vocabulary.generatorFunction }
      else w
    (w.visitValue value).visitAttributes attributes

def visitValue (w : Walk) : AttributeValue → Walk
  | .text _ => w
  | .mustache m => w.visitMustache m
  | .concat parts => w.visitStatements parts

end

end Walk

/-- Resolves every path of a template; the first path or block that cannot be resolved fails. -/
def Template.resolve (template : Template) (options : Options) : Except CompileError Annotations :=
  let w := Walk.visitStatements { scopes := Scope.initial options } template
  match w.error with
  | some e => .error e
  | none => .ok w.annotations

end MustacheJsx
