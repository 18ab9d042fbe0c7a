import MustacheJsx.Conversion.Attribute
import MustacheJsx.Markup.Token

/-!
# Statements as terms and children

A statement becomes a term where it stands alone, and children where it stands inside an element. A
body of exactly one statement is that statement, and any other is a fragment of its children. Blocks
become conditions, loops and links.

Models `resolve_statement`, `resolve_element_child`, `create_children`, `create_root_children`,
`convert_element`, `create_fragment`, `create_partial`, `is_self_closing_tag`, and for blocks
`resolve_block_statement`, `first_param`, `create_condition_statement`, `create_each_statement` and
`create_link`.
-/

namespace MustacheJsx

/-! ### Elements -/

def shapeElements : List String :=
  ["circle", "ellipse", "line", "path", "polygon", "polyline", "rect", "stop", "use"]

def isSelfClosingName (name : String) : Bool :=
  Markup.isVoid name || shapeElements.contains name

def Jsx.Element.fragment (children : List Jsx.Child) : Jsx.Element :=
  .mk Vocabulary.fragment [] children false

/-- A term as an element; a term that is none goes into a fragment. -/
def Jsx.Term.asElement : Jsx.Term → Jsx.Element
  | .element e => e
  | term => .fragment [.term term]

def Jsx.Attribute.ofHash (notes : Annotations) :
    Hash → Except CompileError (List Jsx.Attribute)
  | [] => .ok []
  | (key, .literal (.string value)) :: pairs => do
    let rest ← ofHash notes pairs
    return .ofText key value :: rest
  | (key, value) :: pairs => do
    let term ← value.toTerm notes
    let rest ← ofHash notes pairs
    return .term key term :: rest

def Jsx.Attribute.ofContext (notes : Annotations) :
    List Expression → Except CompileError (List Jsx.Attribute)
  | [] => .ok []
  | param :: _ => do
    let term ← param.toTerm notes
    return [.term Vocabulary.context term]

def PartialCall.toElement (notes : Annotations) (call : PartialCall) :
    Except CompileError Jsx.Element :=
  if !Text.isIdentifier call.name.toList then .error (.expression (.partialName call.name))
  else if 1 < call.params.length then .error (.blockParams call.name .oneContext)
  else do
    let context ← Jsx.Attribute.ofContext notes call.params
    let named ← Jsx.Attribute.ofHash notes call.hash
    return .mk call.name (context ++ named) [] true

/-! ### Blocks -/

/-- What a block does. -/
inductive BlockKind where
  | condition (negated : Bool)
  | loop
  | link
  deriving DecidableEq

def BlockKind.ofName? (name : String) : Option BlockKind :=
  if name = "if" ∨ name = "with" then some (.condition false)
  else if name = "unless" then some (.condition true)
  else if name = "each" then some .loop
  else if name = "linkTo" then some .link
  else none

theorem BlockKind.ofName?_eq_link {name : String} :
    BlockKind.ofName? name = some .link ↔ name = "linkTo" := by
  constructor
  · intro h
    rw [BlockKind.ofName?] at h
    repeat' split at h
    all_goals first | assumption | cases h
  · rintro rfl
    rfl

namespace BlockHead

def subject (head : BlockHead) (expected : Expected) : Except CompileError Expression :=
  match head.params with
  | param :: _ => .ok param
  | [] => .error (.blockParams head.name expected)

def toTest (notes : Annotations) (head : BlockHead) (negated : Bool) :
    Except CompileError Jsx.Term := do
  let subject ← head.subject .condition
  let term ← subject.toTerm notes
  return if negated then .not term.truth else term.truth

/-- The collection of a loop. A literal is none. -/
def toCollection (notes : Annotations) (head : BlockHead) : Except CompileError Jsx.Term := do
  let subject ← head.subject .collection
  match subject with
  | .literal _ => .error (.blockParams "each" .collectionPath)
  | subject => subject.toTerm notes

def toLinkAttributes (notes : Annotations) (head : BlockHead) :
    Except CompileError (List Jsx.Attribute) := do
  let subject ← head.subject .href
  let target ← subject.toTerm notes
  match head.params.drop 2 with
  | [] => return [.term "href" target]
  | param :: _ => do
    let className ← param.toTerm notes
    return [.term "href" target, .term "className" className]

/-- The children of a link without a body: the label in the second argument. -/
def toLabel (notes : Annotations) (head : BlockHead) : Except CompileError (List Jsx.Child) :=
  match head.params.drop 1 with
  | [] => .ok []
  | .literal (.string label) :: _ => .ok (Jsx.Child.ofText label)
  | param :: _ => do
    let term ← param.toTerm notes
    return [.term term]

end BlockHead

/-- One turn of a loop for every item; the index tells the turns apart. -/
def Jsx.Term.loop (collection body : Jsx.Term) : Jsx.Term :=
  .call (.member collection "map")
    [.arrow [Vocabulary.loopItem, Vocabulary.loopIndex]
      (.element (body.asElement.push (.term Vocabulary.key (.name Vocabulary.loopIndex))))]

def Jsx.Term.hasItems (collection : Jsx.Term) : Jsx.Term :=
  Jsx.Term.truth (.member collection "length")

/-! ### Statements -/

/-- What a statement becomes before it is known where it stands. -/
inductive Converted where
  | text (chars : String)
  | comment (value : String)
  | term (value : Jsx.Term)
  | element (element : Jsx.Element)

/-- What stands alone is a term; a comment is none. -/
def Converted.alone : Converted → Except CompileError Jsx.Term
  | .text chars => .ok (.string chars)
  | .comment _ => .error .topLevelComment
  | .term value => .ok value
  | .element e => .ok (.element e)

def Converted.children : Converted → List Jsx.Child
  | .text chars => Jsx.Child.ofText chars
  | .comment value => [.ofComment value]
  | .term value => [.term value]
  | .element e => [.element e]

mutual

def Statement.convert (notes : Annotations) : Statement → Except CompileError Converted
  | .element tag attributes children selfClosing => do
    let closed := selfClosing || isSelfClosingName tag
    let attributes ← Attribute.toJsxAll notes attributes
    let children ← if closed then pure [] else Statement.toChildren notes children
    return .element (.mk tag attributes children closed)
  | .text chars => .ok (.text chars)
  | .mustache m => do
    let term ← m.toTerm notes
    return .term term
  | .block head program inverse =>
    match BlockKind.ofName? head.name with
    | none => .error (.unknownBlock head.name)
    | some (.condition negated) => do
      let test ← head.toTest notes negated
      let consequent ← program.toTerm notes
      match inverse with
      | none => return .term (.and test consequent)
      | some other => do
        let alternate ← other.toTerm notes
        return .term (.conditional test consequent alternate)
    | some .loop => do
      let collection ← head.toCollection notes
      let body ← program.toTerm notes
      match inverse with
      | none => return .term (.loop collection body)
      | some other => do
        let alternate ← other.toTerm notes
        return .term (.conditional collection.hasItems (.loop collection body) alternate)
    | some .link => do
      let attributes ← head.toLinkAttributes notes
      let children ←
        if program.statements.isEmpty then head.toLabel notes else program.toChildren notes
      return .term (.element (.mk Vocabulary.link attributes children false))
  | .partialCall call => do
    let element ← call.toElement notes
    return .element element
  | .mustacheComment value => .ok (.comment value)
  | .markupComment value => .ok (.comment value)

def Statement.toChildren (notes : Annotations) :
    List Statement → Except CompileError (List Jsx.Child)
  | [] => .ok []
  | statement :: statements => do
    let first ← statement.convert notes
    let rest ← Statement.toChildren notes statements
    return first.children ++ rest

def Body.toChildren (notes : Annotations) : Body → Except CompileError (List Jsx.Child)
  | .mk _ statements => Statement.toChildren notes statements

def Body.toTerm (notes : Annotations) : Body → Except CompileError Jsx.Term
  | .mk _ [statement] => do
    let single ← statement.convert notes
    single.alone
  | .mk _ statements => do
    let children ← Statement.toChildren notes statements
    return .element (.fragment children)

end

def Template.toTerm (notes : Annotations) (template : Template) : Except CompileError Jsx.Term :=
  (Body.mk 0 template).toTerm notes

end MustacheJsx
