import MustacheJsx.Jsx.Basic
import MustacheJsx.Proofs.Rendering.Value

/-!
# Evaluating generated code

Terms are evaluated in an environment of parameters, the innermost first. Of the names outside all
functions only `Boolean` and `undefined` are known; of the methods only `map` on lists. An element
becomes a value with those of its children. How text between tags is read is left to `read`; its
attributes are not looked at.
-/

namespace MustacheJsx.Jsx

/-- The values of the parameters in scope, the innermost first. -/
abbrev Bindings := List (String × Value)

/-- Binds parameters to arguments; one without an argument is undefined. -/
def Bindings.bind (bindings : Bindings) : List String → List Value → Bindings
  | [], _ => bindings
  | param :: params, [] => bind ((param, .undefined) :: bindings) params []
  | param :: params, value :: values => bind ((param, value) :: bindings) params values

mutual

/-- The value of a term, if it has one without an error. -/
def Term.eval (read : String → String) (bindings : Bindings) : Term → Option Value
  | .name identifier =>
    match bindings.lookup identifier with
    | some value => some value
    | none => if identifier = "undefined" then some .undefined else none
  | .string value => some (.string value)
  | .number value => some (.number value)
  | .boolean value => some (.boolean value)
  | .null => some .null
  | .member whole property => (whole.eval read bindings).bind (Value.member property)
  | .call (.name callee) [argument] =>
    if callee = "Boolean" ∧ bindings.lookup callee = none then
      (argument.eval read bindings).map fun value => .boolean value.truthy
    else none
  | .call (.member whole method) [.arrow params body] =>
    if method = "map" then
      match whole.eval read bindings with
      | some (.list items) =>
        let turn := fun (item, n) =>
          body.eval read (bindings.bind params [item, .number (.ofNat n), .list items])
        (items.zipIdx.mapM turn).map .list
      | _ => none
    else none
  | .call _ _ => none
  | .not operand => (operand.eval read bindings).map fun value => .boolean !value.truthy
  | .and left right =>
    (left.eval read bindings).bind fun value =>
      if value.truthy then right.eval read bindings else some value
  | .conditional test consequent alternate =>
    (test.eval read bindings).bind fun value =>
      if value.truthy then consequent.eval read bindings else alternate.eval read bindings
  | .element (.mk tag _ children _) =>
    (evalChildren read bindings children).map (.element tag)
  | .object _ => none
  | .add _ _ => none
  | .arrow _ _ => none

def Term.evalChildren (read : String → String) (bindings : Bindings) :
    List Child → Option (List Value)
  | [] => some []
  | .text chars :: children => do
    let rest ← evalChildren read bindings children
    return .string (read chars) :: rest
  | .comment _ :: children => evalChildren read bindings children
  | .term term :: children => do
    let value ← term.eval read bindings
    let rest ← evalChildren read bindings children
    return value :: rest
  | .element (.mk tag _ inner _) :: children => do
    let values ← evalChildren read bindings inner
    let rest ← evalChildren read bindings children
    return .element tag values :: rest

end

def Term.apply (read : String → String) (arguments : List Value) : Term → Option Value
  | .arrow params body => body.eval read (Bindings.bind [] params arguments)
  | _ => none

/-- The term that a module evaluates or exports with a statement. -/
def Statement.term? : Statement → Option Term
  | .expression term => some term
  | .defaultExport term => some term
  | _ => none

end MustacheJsx.Jsx
