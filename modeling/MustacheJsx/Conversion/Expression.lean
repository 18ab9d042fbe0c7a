import MustacheJsx.Jsx.Basic
import MustacheJsx.Scope.Basic
import MustacheJsx.Text.Classes

/-!
# Expressions as terms

A path becomes the chain of its segments, a literal itself, and a helper call a function call with
the named arguments in an object at the end.

Models `create_member_expression`, `resolve_expression`, `create_path`, `create_helper_call`,
`create_hash_object`, `resolve_mustache` and `create_concat`.
-/

namespace MustacheJsx

/-! ### Chains -/

/-- The chain `a.b.c` of segments; there must be a first one. -/
def Jsx.Term.ofSegments : List String → Except CompileError Jsx.Term
  | [] => .error .emptyPath
  | first :: rest => .ok (rest.foldl .member (.name first))

def Path.toTerm (notes : Annotations) (path : Path) : Except CompileError Jsx.Term :=
  Jsx.Term.ofSegments (notes.segments path)

/-- A literal is written as a constant; `undefined` is a name. -/
def Literal.toTerm : Literal → Jsx.Term
  | .boolean value => .boolean value
  | .number value => .number value
  | .string value => .string value
  | .null => .null
  | .undefined => .name "undefined"

def Jsx.PropertyKey.ofName (key : String) : Jsx.PropertyKey :=
  if Text.isIdentifier key.toList then .name key else .string key

/-! ### Expressions -/

mutual

def Expression.toTerm (notes : Annotations) : Expression → Except CompileError Jsx.Term
  | .path p => p.toTerm notes
  | .literal l => .ok l.toTerm
  | .call callee params hash =>
    match callee.helperName? with
    | none => .error (.expression (.helperNameKind callee.kind))
    | some name => do
      let arguments ← Expression.toTerms notes params
      let properties ← Expression.toProperties notes hash
      let named := if hash.isEmpty then [] else [Jsx.Term.object properties]
      return .call (.name name) (arguments ++ named)

def Expression.toTerms (notes : Annotations) :
    List Expression → Except CompileError (List Jsx.Term)
  | [] => .ok []
  | param :: params => do
    let term ← param.toTerm notes
    let terms ← Expression.toTerms notes params
    return term :: terms

def Expression.toProperties (notes : Annotations) :
    List (String × Expression) → Except CompileError (List Jsx.Property)
  | [] => .ok []
  | (key, value) :: pairs => do
    let term ← value.toTerm notes
    let properties ← Expression.toProperties notes pairs
    return .mk (.ofName key) term :: properties

end

/-- The term of a mustache: a call if it has arguments, otherwise its value. -/
def Mustache.toTerm (notes : Annotations) (m : Mustache) : Except CompileError Jsx.Term :=
  if m.isHelperCall then (Expression.call m.callee m.params m.hash).toTerm notes
  else m.callee.toTerm notes

/-! ### Sums -/

def Statement.toSummand (notes : Annotations) : Statement → Except CompileError Jsx.Term
  | .text chars => .ok (.string chars)
  | .mustache m => m.toTerm notes
  | other => .error (.unexpectedStatement other.kind)

def Statement.sum (notes : Annotations) (parts : List Statement) :
    Except CompileError Jsx.Term := do
  let terms ← parts.mapM (Statement.toSummand notes)
  return .sum terms

end MustacheJsx
