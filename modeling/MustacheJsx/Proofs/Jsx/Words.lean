import MustacheJsx.Jsx.Basic
import MustacheJsx.Jsx.Lexeme

/-!
# Words in generated code

Printing writes some names as they are: identifiers, the names of attributes, and the keys of
properties that stand without quotes. Only a name of the right shape is read back as the one name
that was meant. Names of elements and of the properties that a term reads are left out: the first
come from the markup, and the others are written in brackets where they have another shape.
-/

namespace MustacheJsx.Jsx

/-- A name that printing writes as it is. -/
inductive Word where
  | identifier (name : String)
  | attributeName (name : String)
  | key (name : String)
  deriving DecidableEq

/-! ### Shapes -/

def moduleWords : List String :=
  reservedWords ++ ["await", "yield", "let", "static", "implements", "interface", "package",
    "private", "protected", "public"]

def isModuleName (name : String) : Bool :=
  match name.toList with
  | [] => false
  | c :: cs => Text.isIdentifierStart c && cs.all Text.isIdentifierPart &&
      !moduleWords.contains name

def isAttributeName (name : String) : Bool :=
  match name.toList with
  | [] => false
  | c :: cs => (Text.isAsciiLetter c || c == '_' || c == '$') &&
      cs.all fun d => Text.isAsciiAlphanumeric d || d == '_' || d == '$' || d == '-'

/-! ### Words of a term -/

mutual

def Term.words : Term → List Word
  | .name identifier => [.identifier identifier]
  | .string _ | .number _ | .boolean _ | .null => []
  | .member whole _ => whole.words
  | .call callee arguments => callee.words ++ wordsOfAll arguments
  | .object properties => wordsOfProperties properties
  | .not operand => operand.words
  | .and left right => left.words ++ right.words
  | .add left right => left.words ++ right.words
  | .conditional test consequent alternate =>
    test.words ++ (consequent.words ++ alternate.words)
  | .arrow params body => params.map Word.identifier ++ body.words
  | .element e => wordsOfElement e

def Term.wordsOfAll : List Term → List Word
  | [] => []
  | term :: terms => term.words ++ wordsOfAll terms

def Term.wordsOfProperties : List Property → List Word
  | [] => []
  | .mk key value :: properties => wordsOfKey key ++ (value.words ++ wordsOfProperties properties)

def Term.wordsOfKey : PropertyKey → List Word
  | .name identifier => [.key identifier]
  | .string _ => []
  | .computed term => term.words

def Term.wordsOfElement : Element → List Word
  | .mk _ attributes children _ => wordsOfAttributes attributes ++ wordsOfChildren children

def Term.wordsOfAttributes : List Attribute → List Word
  | [] => []
  | .raw written _ :: attributes => .attributeName written :: wordsOfAttributes attributes
  | .term written value :: attributes =>
    .attributeName written :: (value.words ++ wordsOfAttributes attributes)
  | .spread value :: attributes => value.words ++ wordsOfAttributes attributes

def Term.wordsOfChildren : List Child → List Word
  | [] => []
  | .text _ :: children => wordsOfChildren children
  | .comment _ :: children => wordsOfChildren children
  | .term value :: children => value.words ++ wordsOfChildren children
  | .element e :: children => wordsOfElement e ++ wordsOfChildren children

end

def Statement.words : Statement → List Word
  | .defaultImport identifier _ => [.identifier identifier]
  | .constant identifier init => .identifier identifier :: init.words
  | .expression term => term.words
  | .defaultExport term => term.words

def Program.words (program : Program) : List Word := program.flatMap Statement.words

/-! ### Lists -/

theorem Term.wordsOfAttributes_append (before after : List Attribute) :
    wordsOfAttributes (before ++ after) = wordsOfAttributes before ++ wordsOfAttributes after := by
  induction before with
  | nil => rfl
  | cons first before ih =>
    cases first <;> simp only [List.cons_append, wordsOfAttributes, ih, List.append_assoc]

theorem Term.wordsOfChildren_append (before after : List Child) :
    wordsOfChildren (before ++ after) = wordsOfChildren before ++ wordsOfChildren after := by
  induction before with
  | nil => rfl
  | cons child before ih =>
    cases child <;> simp only [List.cons_append, wordsOfChildren, ih, List.append_assoc]

theorem Term.wordsOfAll_append (before after : List Term) :
    wordsOfAll (before ++ after) = wordsOfAll before ++ wordsOfAll after := by
  induction before with
  | nil => rfl
  | cons term before ih => simp only [List.cons_append, wordsOfAll, ih, List.append_assoc]

theorem Term.words_foldl_member (term : Term) (properties : List String) :
    (properties.foldl Term.member term).words = term.words := by
  induction properties generalizing term with
  | nil => rfl
  | cons property properties ih =>
    rw [List.foldl_cons, ih]
    rfl

theorem Term.words_foldl_add (term : Term) (terms : List Term) :
    (terms.foldl Term.add term).words = term.words ++ wordsOfAll terms := by
  induction terms generalizing term with
  | nil => rw [List.foldl_nil, wordsOfAll, List.append_nil]
  | cons next terms ih => rw [List.foldl_cons, ih, words, wordsOfAll, List.append_assoc]

theorem Term.words_sum (terms : List Term) : (sum terms).words = wordsOfAll terms := by
  cases terms with
  | nil => rfl
  | cons term terms =>
    rw [sum, words_foldl_add]
    rfl

end MustacheJsx.Jsx
