import MustacheJsx.Scope.Walk
import MustacheJsx.Template.Paths

/-!
# Reading a template in nested environments

The walk of `Scope/Walk` keeps a stack of scopes and changes it while it goes on. This module reads
the same template by a recursion that hands an environment down and never changes one: the program
of a block is read in the environment of the block, extended by the scope that the block opens, and
all else of the block in its own. `Template.readings` lists the paths that are read as values, in
the order of the source, each with its segments; the first one that has none is an error.
-/

namespace MustacheJsx

abbrev Reading := Path × List String

/-- Readings one after the other; the first failure counts. -/
def Reading.chain (first second : Except CompileError (List Reading)) :
    Except CompileError (List Reading) := do
  let before ← first
  let after ← second
  return before ++ after

/-! ### Expressions -/

def Path.readings (env : List Scope) (path : Path) : Except CompileError (List Reading) := do
  let segments ← Scope.resolve env path
  return [(path, segments)]

mutual

/-- The readings of an expression. The head of a call is no value. -/
def Expression.readings (env : List Scope) : Expression → Except CompileError (List Reading)
  | .path p => p.readings env
  | .literal _ => .ok []
  | .call _ params hash =>
    Reading.chain (Expression.readingsOfParams env params) (Expression.readingsOfHash env hash)

def Expression.readingsOfParams (env : List Scope) :
    List Expression → Except CompileError (List Reading)
  | [] => .ok []
  | param :: params =>
    Reading.chain (param.readings env) (Expression.readingsOfParams env params)

def Expression.readingsOfHash (env : List Scope) :
    List (String × Expression) → Except CompileError (List Reading)
  | [] => .ok []
  | (_, value) :: pairs =>
    Reading.chain (value.readings env) (Expression.readingsOfHash env pairs)

end

def readingsOfArguments (env : List Scope) (params : List Expression) (hash : Hash) :
    Except CompileError (List Reading) :=
  Reading.chain (Expression.readingsOfParams env params) (Expression.readingsOfHash env hash)

/-- The readings of a mustache: of its arguments if it calls a helper, otherwise of its value. -/
def Mustache.readings (env : List Scope) (m : Mustache) : Except CompileError (List Reading) :=
  if m.isHelperCall then readingsOfArguments env m.params m.hash else m.callee.readings env

/-! ### Blocks -/

/-- The environment of the program of a block: a loop adds its item, a `with` block what its
argument stands for, and any other block nothing. -/
def BlockHead.inner (env : List Scope) (head : BlockHead) : Except CompileError (List Scope) :=
  if head.name = "each" then
    .ok ({ bound := none, kind := .loop, segments := [Vocabulary.loopItem] } :: env)
  else if head.name = "with" then
    match head.params with
    | .path subject :: _ => do
      let segments ← Scope.resolve env subject
      return { bound := none, kind := .narrowing, segments } :: env
    | _ => .error (.blockParams "with" .path)
  else .ok env

mutual

def Statement.readings (env : List Scope) : Statement → Except CompileError (List Reading)
  | .element _ attributes children _ =>
    Reading.chain (Statement.readingsOfAttributes env attributes)
      (Statement.readingsOfAll env children)
  | .text _ => .ok []
  | .mustache m => m.readings env
  | .block head program inverse => do
    let inner ← head.inner env
    Reading.chain (readingsOfArguments env head.params head.hash)
      (Reading.chain (Statement.readingsOfBody inner program)
        (match inverse with
          | some body => Statement.readingsOfBody env body
          | none => .ok []))
  | .partialCall call => readingsOfArguments env call.params call.hash
  | .mustacheComment _ => .ok []
  | .markupComment _ => .ok []

def Statement.readingsOfAll (env : List Scope) :
    List Statement → Except CompileError (List Reading)
  | [] => .ok []
  | statement :: statements =>
    Reading.chain (statement.readings env) (Statement.readingsOfAll env statements)

def Statement.readingsOfBody (env : List Scope) : Body → Except CompileError (List Reading)
  | .mk _ statements => Statement.readingsOfAll env statements

def Statement.readingsOfAttributes (env : List Scope) :
    List Attribute → Except CompileError (List Reading)
  | [] => .ok []
  | .mk _ value :: attributes =>
    Reading.chain (Statement.readingsOfValue env value)
      (Statement.readingsOfAttributes env attributes)

def Statement.readingsOfValue (env : List Scope) :
    AttributeValue → Except CompileError (List Reading)
  | .text _ => .ok []
  | .mustache m => m.readings env
  | .concat parts => Statement.readingsOfAll env parts

end

def Statement.readingsOfInverse (env : List Scope) :
    Option Body → Except CompileError (List Reading)
  | some body => Statement.readingsOfBody env body
  | none => .ok []

theorem Statement.readings_block (env : List Scope) (head : BlockHead) (program : Body)
    (inverse : Option Body) :
    (Statement.block head program inverse).readings env =
      (head.inner env).bind fun inner =>
        Reading.chain (readingsOfArguments env head.params head.hash)
          (Reading.chain (readingsOfBody inner program) (readingsOfInverse env inverse)) := by
  cases inverse <;> rfl

def Template.readings (template : Template) (options : Options) :
    Except CompileError (List Reading) :=
  Statement.readingsOfAll (Scope.initial options) template

end MustacheJsx
