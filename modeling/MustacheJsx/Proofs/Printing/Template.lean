import MustacheJsx.Markup.Token
import MustacheJsx.Proofs.Printing.Tag

/-!
# Printed templates

A template is printed as a sequence of items: texts, tags, and the start tags, end tags and comments
of its markup. `Template.isPlain` tells the templates whose printed form can be read again. Which
characters a text of the markup may hold, apart from those that would begin something else, is left
open there: reading markup changes some of them.
-/

namespace MustacheJsx

open Expression (unnumberedParams unnumberedHash)

/-! ### Items -/

/-- What a printed template is made of. -/
inductive Item where
  | text (chars : String)
  | tag (tag : Tag)
  | comment (value : String)
  | startTag (name : String) (attributes : List Attribute) (selfClosing : Bool)
  | endTag (name : String)

/-- A part of a quoted value as it is printed: a text or a mustache. -/
def Statement.printedInValue : Statement → List Char
  | .text chars => chars.toList
  | .mustache m => (Tag.expression m).printed
  | _ => []

/-- The value of an attribute as it is printed: a lone mustache stands without quotes. -/
def AttributeValue.printed : AttributeValue → List Char
  | .text chars => '"' :: (chars.toList ++ ['"'])
  | .mustache m => (Tag.expression m).printed
  | .concat parts => '"' :: (parts.flatMap Statement.printedInValue ++ ['"'])

def Attribute.printed (entry : Attribute) : List Char :=
  ' ' :: (entry.name.toList ++ '=' :: entry.value.printed)

def tagEnd (selfClosing : Bool) : List Char := if selfClosing then ['/', '>'] else ['>']

def Item.printed : Item → List Char
  | .text chars => chars.toList
  | .tag t => t.printed
  | .comment value => '<' :: '!' :: '-' :: '-' :: (value.toList ++ ['-', '-', '>'])
  | .startTag name attributes selfClosing =>
    '<' :: (name.toList ++ (attributes.flatMap Attribute.printed ++ tagEnd selfClosing))
  | .endTag name => '<' :: '/' :: (name.toList ++ ['>'])

namespace Statement

mutual

/-- The items of a statement. The branches of a block stand between tags. -/
def items : Statement → List Item
  | .element tag attributes children selfClosing =>
    .startTag tag attributes selfClosing ::
      if selfClosing then [] else itemsOfAll children ++ [.endTag tag]
  | .text chars => [.text chars]
  | .mustache m => [.tag (.expression m)]
  | .block head program inverse =>
    .tag (.openBlock head) :: (itemsOfBody program ++
      ((match inverse with
        | some body => .tag (.elseBranch none) :: itemsOfBody body
        | none => []) ++ [.tag (.closeBlock head.name)]))
  | .partialCall call => [.tag (.partialCall call)]
  | .mustacheComment value => [.tag (.comment value)]
  | .markupComment value => [.comment value]

def itemsOfAll : List Statement → List Item
  | [] => []
  | statement :: statements => statement.items ++ itemsOfAll statements

def itemsOfBody : Body → List Item
  | .mk _ statements => itemsOfAll statements

end

/-! ### Plain templates -/

def isText : Statement → Bool
  | .text _ => true
  | _ => false

def textsApart : List Statement → Bool
  | first :: second :: rest => !(first.isText && second.isText) && textsApart (second :: rest)
  | _ => true

end Statement

section

variable (kept : Char → Bool)

/-- The characters of a text: those that begin nothing else and are kept by the markup. -/
def isTextChar (c : Char) : Bool :=
  kept c && c != '<' && c != '&' && c != '{' && c != '\\'

def isQuotedChar (c : Char) : Bool := isTextChar kept c && c != '"'

def isSmallName (name : String) : Bool :=
  !name.toList.isEmpty && name.toList.all Text.isAsciiLower

def Statement.isPlainInValue : Statement → Bool
  | .text chars => !chars.toList.isEmpty && chars.toList.all (isQuotedChar kept)
  | .mustache m => (Tag.expression m).isPlain
  | _ => false

/-- A plain value of an attribute. In quotes, a mustache is among the parts. -/
def AttributeValue.isPlain : AttributeValue → Bool
  | .text chars => chars.toList.all (isQuotedChar kept)
  | .mustache m => (Tag.expression m).isPlain
  | .concat parts =>
    parts.all (Statement.isPlainInValue kept) && Statement.textsApart parts &&
      !parts.all Statement.isText

def attributesArePlain (attributes : List Attribute) : Bool :=
  attributes.all (fun entry => isSmallName entry.name && entry.value.isPlain kept) &&
    decide (attributes.map Attribute.name).Nodup

def isPlainTagName (tag : String) : Bool :=
  isSmallName tag && !Markup.isVoid tag && Markup.contentOf tag == .markup

namespace Statement

mutual

def isPlain : Statement → Bool
  | .element tag attributes children selfClosing =>
    isPlainTagName tag && attributesArePlain kept attributes &&
      (allPlain children && textsApart children) && (!selfClosing || children.isEmpty)
  | .text chars => !chars.toList.isEmpty && chars.toList.all (isTextChar kept)
  | .mustache m => (Tag.expression m).isPlain
  | .block head program inverse =>
    (Tag.openBlock head).isPlain && bodyIsPlain program &&
      match inverse with
      | some body => bodyIsPlain body
      | none => true
  | .partialCall call => (Tag.partialCall call).isPlain
  | .mustacheComment value => isPlainComment value
  | .markupComment value => isPlainComment value && value.toList.all kept

def allPlain : List Statement → Bool
  | [] => true
  | statement :: statements => statement.isPlain && allPlain statements

def bodyIsPlain : Body → Bool
  | .mk _ statements => allPlain statements && textsApart statements

end

end Statement

def Item.isPlain : Item → Bool
  | .text chars => !chars.toList.isEmpty && chars.toList.all (isTextChar kept)
  | .tag t => t.isPlain
  | .comment value => isPlainComment value && value.toList.all kept
  | .startTag name attributes _ => isPlainTagName name && attributesArePlain kept attributes
  | .endTag name => isPlainTagName name

/-- A template that can be printed: its statements are plain, and its texts do not touch. -/
def Template.isPlain (template : Template) : Bool :=
  Statement.allPlain kept template && Statement.textsApart template

end

def Template.printed (template : Template) : List Char :=
  (Statement.itemsOfAll template).flatMap Item.printed

namespace Statement

variable {kept : Char → Bool}

mutual

theorem isPlain_of_mem_items (statement : Statement) (h : statement.isPlain kept = true) :
    ∀ item ∈ statement.items, item.isPlain kept = true := by
  match statement with
  | .element tag attributes children selfClosing =>
    simp only [isPlain, Bool.and_eq_true] at h
    obtain ⟨⟨⟨htag, hattributes⟩, hchildren, -⟩, -⟩ := h
    have hall := isPlain_of_mem_itemsOfAll children hchildren
    have hstart : (Item.startTag tag attributes selfClosing).isPlain kept = true := by
      simp [Item.isPlain, htag, hattributes]
    intro item hitem
    cases selfClosing with
    | true =>
      cases List.mem_singleton.1 hitem
      exact hstart
    | false =>
      rcases List.mem_cons.1 hitem with rfl | hitem
      · exact hstart
      · rcases List.mem_append.1 hitem with hitem | hitem
        · exact hall item hitem
        · cases List.mem_singleton.1 hitem
          exact htag
  | .text chars =>
    intro item hitem
    cases List.mem_singleton.1 hitem
    exact h
  | .mustache m =>
    intro item hitem
    cases List.mem_singleton.1 hitem
    exact h
  | .block head program inverse =>
    rw [isPlain.eq_def] at h
    simp only [Bool.and_eq_true] at h
    obtain ⟨⟨hopen, hprogram⟩, hinverse⟩ := h
    have hclose : (Item.tag (.closeBlock head.name)).isPlain kept = true := by
      simp only [Tag.isPlain, Bool.and_eq_true] at hopen
      exact hopen.1.2
    have hall := isPlain_of_mem_itemsOfBody program hprogram
    intro item hitem
    rw [items.eq_def] at hitem
    rcases List.mem_cons.1 hitem with rfl | hitem
    · exact hopen
    · rcases List.mem_append.1 hitem with hitem | hitem
      · exact hall item hitem
      · rcases List.mem_append.1 hitem with hitem | hitem
        · match inverse with
          | none => cases hitem
          | some body =>
            rcases List.mem_cons.1 hitem with rfl | hitem
            · rfl
            · exact isPlain_of_mem_itemsOfBody body hinverse item hitem
        · cases List.mem_singleton.1 hitem
          exact hclose
  | .partialCall call =>
    intro item hitem
    cases List.mem_singleton.1 hitem
    exact h
  | .mustacheComment value =>
    intro item hitem
    cases List.mem_singleton.1 hitem
    exact h
  | .markupComment value =>
    intro item hitem
    cases List.mem_singleton.1 hitem
    exact h

theorem isPlain_of_mem_itemsOfAll (statements : List Statement)
    (h : allPlain kept statements = true) :
    ∀ item ∈ itemsOfAll statements, item.isPlain kept = true := by
  match statements with
  | [] =>
    intro item hitem
    cases hitem
  | statement :: statements =>
    simp only [allPlain, Bool.and_eq_true] at h
    intro item hitem
    rcases List.mem_append.1 hitem with hitem | hitem
    · exact isPlain_of_mem_items statement h.1 item hitem
    · exact isPlain_of_mem_itemsOfAll statements h.2 item hitem

theorem isPlain_of_mem_itemsOfBody (body : Body) (h : bodyIsPlain kept body = true) :
    ∀ item ∈ itemsOfBody body, item.isPlain kept = true := by
  match body with
  | .mk id statements =>
    simp only [bodyIsPlain, Bool.and_eq_true] at h
    exact isPlain_of_mem_itemsOfAll statements h.1

end

end Statement

/-! ### Templates without numbers -/

namespace Statement

mutual

def unnumbered : Statement → Statement
  | .element tag attributes children selfClosing =>
    .element tag (unnumberedAttributes attributes) (unnumberedAll children) selfClosing
  | .text chars => .text chars
  | .mustache m => .mustache m.unnumbered
  | .block head program inverse =>
    .block head.unnumbered (unnumberedBody program)
      (match inverse with
      | some body => some (unnumberedBody body)
      | none => none)
  | .partialCall call => .partialCall call.unnumbered
  | .mustacheComment value => .mustacheComment value
  | .markupComment value => .markupComment value

def unnumberedAll : List Statement → List Statement
  | [] => []
  | statement :: statements => statement.unnumbered :: unnumberedAll statements

def unnumberedBody : Body → Body
  | .mk _ statements => .mk 0 (unnumberedAll statements)

def unnumberedAttributes : List Attribute → List Attribute
  | [] => []
  | .mk name value :: attributes =>
    .mk name (unnumberedValue value) :: unnumberedAttributes attributes

def unnumberedValue : AttributeValue → AttributeValue
  | .text chars => .text chars
  | .mustache m => .mustache m.unnumbered
  | .concat parts => .concat (unnumberedAll parts)

end

theorem unnumberedAll_append (xs ys : List Statement) :
    unnumberedAll (xs ++ ys) = unnumberedAll xs ++ unnumberedAll ys := by
  induction xs with
  | nil => rfl
  | cons x xs ih => rw [List.cons_append, unnumberedAll, ih, unnumberedAll, List.cons_append]

end Statement

def Template.unnumbered (template : Template) : Template := Statement.unnumberedAll template

end MustacheJsx
