import MustacheJsx.Jsx.Basic
import MustacheJsx.Jsx.Quoted
import MustacheJsx.Number.Compact

/-!
# Printing code

Terms bind with a strength, and a term stands in parentheses where its place asks for a stronger
one. Text inside elements and raw attributes are written as they are. Every statement ends its line.

Models the code printer behind `print_program`.
-/

namespace MustacheJsx.Jsx

/-! ### Strength -/

/-- How strongly terms bind, from functions to single names. -/
inductive Strength where
  | arrow
  | conditional
  | and
  | add
  | unary
  | atom
  deriving DecidableEq

def Strength.rank : Strength → Nat
  | .arrow => 0
  | .conditional => 1
  | .and => 2
  | .add => 3
  | .unary => 4
  | .atom => 5

/-- Puts text of strength `own` where at least `least` is asked for. -/
def enclose (least own : Strength) (cs : List Char) : List Char :=
  if own.rank < least.rank then '(' :: (cs ++ [')']) else cs

/-! ### Small parts -/

def separated (sep : List Char) : List (List Char) → List Char
  | [] => []
  | [piece] => piece
  | piece :: pieces => piece ++ sep ++ separated sep pieces

def parenthesized (pieces : List (List Char)) : List Char :=
  '(' :: (separated [',', ' '] pieces ++ [')'])

/-- The access to a property: with a point if it is an identifier, otherwise in brackets. -/
def access (property : String) : List Char :=
  if Text.isIdentifier property.toList then '.' :: property.toList
  else '[' :: (quote property.toList ++ [']'])

/-- The object of an access. The name `let` before a bracket would begin a declaration. -/
def accessed (object : Term) (property : String) (cs : List Char) : List Char :=
  match object with
  | .name "let" => if Text.isIdentifier property.toList then cs else '(' :: (cs ++ [')'])
  | _ => cs

/-- An object of printed properties: empty, on one line, or with a line for each. -/
def braced : List (List Char) → List Char
  | [] => ['{', '}']
  | [property] => ['{', ' '] ++ property ++ [' ', '}']
  | properties => ['{', '\n'] ++ separated [',', '\n'] properties ++ ['\n', '}']

def isShorthand : PropertyKey → Term → Bool
  | .name key, .name value => key == value && key != "__proto__"
  | _, _ => false

def tagged (name attributes children : List Char) (selfClosing : Bool) : List Char :=
  if selfClosing then '<' :: (name ++ attributes ++ [' ', '/', '>'])
  else '<' :: (name ++ attributes ++ '>' :: (children ++ ['<', '/'] ++ name ++ ['>']))

/-! ### Terms -/

mutual

def Term.print (least : Strength) : Term → List Char
  | .name identifier => identifier.toList
  | .string value => quote value.toList
  | .number value => enclose least (if value.isNegative then .unary else .atom) value.compact.toList
  | .boolean value => if value then ['t', 'r', 'u', 'e'] else ['f', 'a', 'l', 's', 'e']
  | .null => ['n', 'u', 'l', 'l']
  | .member object property => accessed object property (object.print .atom) ++ access property
  | .call callee arguments => callee.print .atom ++ parenthesized (Term.printArguments arguments)
  | .object properties => braced (Term.printProperties properties)
  | .not operand => enclose least .unary ('!' :: operand.print .unary)
  | .and left right =>
    enclose least .and (left.print .and ++ [' ', '&', '&', ' '] ++ right.print .and)
  | .add left right =>
    enclose least .add (left.print .add ++ [' ', '+', ' '] ++ right.print .unary)
  | .conditional test consequent alternate =>
    enclose least .conditional
      (test.print .and ++ [' ', '?', ' '] ++ consequent.print .arrow ++ [' ', ':', ' '] ++
        alternate.print .arrow)
  | .arrow params body =>
    enclose least .arrow
      (parenthesized (params.map String.toList) ++ [' ', '=', '>', ' '] ++ body.print .arrow)
  | .element element => element.print

def Term.printArguments : List Term → List (List Char)
  | [] => []
  | argument :: arguments => argument.print .arrow :: Term.printArguments arguments

def Term.printProperties : List Property → List (List Char)
  | [] => []
  | .mk key value :: properties =>
    (if isShorthand key value then value.print .arrow
      else key.print ++ [':', ' '] ++ value.print .arrow) :: Term.printProperties properties

def PropertyKey.print : PropertyKey → List Char
  | .name identifier => identifier.toList
  | .string value => quote value.toList
  | .computed term => '[' :: (term.print .arrow ++ [']'])

def Element.print : Element → List Char
  | .mk name attributes children selfClosing =>
    tagged name.toList (Attribute.printAll attributes) (Child.printAll children) selfClosing

def Attribute.printAll : List Attribute → List Char
  | [] => []
  | first :: rest => ' ' :: (first.print ++ Attribute.printAll rest)

def Attribute.print : Attribute → List Char
  | .raw name value => name.toList ++ ['=', '"'] ++ value.toList ++ ['"']
  | .term name value => name.toList ++ ['=', '{'] ++ value.print .arrow ++ ['}']
  | .spread value => ['{', '.', '.', '.'] ++ value.print .arrow ++ ['}']

def Child.printAll : List Child → List Char
  | [] => []
  | child :: children => child.print ++ Child.printAll children

def Child.print : Child → List Char
  | .text chars => chars.toList
  | .comment value => ['{', '/', '*'] ++ value.toList ++ ['*', '/', '}']
  | .term value => '{' :: (value.print .arrow ++ ['}'])
  | .element element => element.print

end

/-! ### Statements -/

/-- A term as a statement of its own. A string would be a directive there and an object a block, so
both stand in parentheses. -/
def Term.printAlone (term : Term) : List Char :=
  match term with
  | .string _ => '(' :: (term.print .arrow ++ [')'])
  | .object _ => '(' :: (term.print .arrow ++ [')'])
  | _ => term.print .arrow

def Statement.print : Statement → List Char
  | .defaultImport identifier source =>
    "import ".toList ++ identifier.toList ++ " from ".toList ++ quote source.toList ++ [';', '\n']
  | .constant identifier init =>
    "const ".toList ++ identifier.toList ++ [' ', '=', ' '] ++ init.print .arrow ++ [';', '\n']
  | .expression term => term.printAlone ++ [';', '\n']
  | .defaultExport term => "export default ".toList ++ term.print .arrow ++ [';', '\n']

def Program.print (program : Program) : List Char := program.flatMap Statement.print

end MustacheJsx.Jsx
