import MustacheJsx.Number.Double

/-!
# Generated code

Generated code is a module of few kinds of statements over terms: names, constants, property access,
calls, three operators, a choice, functions and elements. An element has attributes and children,
which hold terms again.

Models the code that `ident`, `string`, `member`, `call`, `add`, `not`, `and`, `conditional`,
`arrow`, `boolean_of`, `jsx_element` and `build_program` make.
-/

namespace MustacheJsx.Jsx

/-! ### Terms and elements -/

mutual

/-- A term of the script. -/
inductive Term where
  | name (identifier : String)
  | string (value : String)
  | number (value : Double)
  | boolean (value : Bool)
  | null
  | member (object : Term) (property : String)
  | call (callee : Term) (arguments : List Term)
  | object (properties : List Property)
  | not (operand : Term)
  | and (left right : Term)
  | add (left right : Term)
  | conditional (test consequent alternate : Term)
  | arrow (params : List String) (body : Term)
  | element (element : Element)

/-- A property of an object. -/
inductive Property where
  | mk (key : PropertyKey) (value : Term)

/-- The key of a property. -/
inductive PropertyKey where
  | name (identifier : String)
  | string (value : String)
  | computed (term : Term)

/-- An element; a self-closing one has no end tag. -/
inductive Element where
  | mk (name : String) (attributes : List Attribute) (children : List Child) (selfClosing : Bool)

/-- An attribute of an element: raw text, a term, or a spread of the properties of a term. -/
inductive Attribute where
  | raw (name : String) (value : String)
  | term (name : String) (value : Term)
  | spread (value : Term)

/-- A child of an element; text and comments are written as they are. -/
inductive Child where
  | text (chars : String)
  | comment (value : String)
  | term (value : Term)
  | element (element : Element)

end

def Term.truth (term : Term) : Term := .call (.name "Boolean") [term]

/-- The sum of terms from the left; without terms the empty string. -/
def Term.sum : List Term → Term
  | [] => .string ""
  | term :: terms => terms.foldl .add term

def Element.push : Element → Attribute → Element
  | .mk name attributes children selfClosing, last =>
    .mk name (attributes ++ [last]) children selfClosing

/-! ### Statements -/

/-- A statement of a module. -/
inductive Statement where
  /-- Imports the default export of `source`. -/
  | defaultImport (identifier source : String)
  | constant (identifier : String) (init : Term)
  | expression (term : Term)
  | defaultExport (term : Term)

abbrev Program := List Statement

end MustacheJsx.Jsx
