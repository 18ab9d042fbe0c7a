import MustacheJsx.Proofs.Outcome
import MustacheJsx.Template.Assembly

/-!
# What tokens read as

`Lifted.Reads` relates the tokens of lifted markup to the statements that they stand for, without
any state: a text is restored piece by piece, an element holds what its two tags enclose, a block
has the branches that the markers of its `else`s separate. `Token.marks` are the indices of the
tags that a token carries.
-/

namespace MustacheJsx

open Markup (Token StartTag)

/-! ### Marks -/

def Piece.mark? : Piece → Option Nat
  | .text _ => none
  | .hole index => index

def marksOf (marker : Char) (cs : List Char) : List Nat :=
  (Piece.split marker cs).filterMap Piece.mark?

/-- Whether an attribute is none that carries spellings. -/
def isOwn (entry : String × String) : Bool :=
  entry.1 != tagSpelling && entry.1 != attributeSpellings

def ownAttributes (tag : StartTag) : List (String × String) := tag.attributes.filter isOwn

def number? (tag : StartTag) : Option Nat :=
  (tag.attribute? numberAttribute).bind fun value => signedIndex? value.toList

def writtenName (tag : StartTag) : String := (tag.attribute? tagSpelling).getD tag.name

def writtenSpellings (tag : StartTag) : List (List Char) :=
  Text.words ((tag.attribute? attributeSpellings).getD "").toList

def IsElement (tag : StartTag) : Prop := tag.name ≠ blockTag ∧ tag.name ≠ elseTag

def isLeaf (tag : StartTag) : Bool := tag.selfClosing || Markup.isVoid tag.name

/-- The indices of the tags that a token carries. -/
def Token.marks (marker : Char) : Token → List Nat
  | .text chars => marksOf marker chars
  | .comment value => (Piece.whole? marker value).toList
  | .startTag tag _ =>
    if tag.name = blockTag ∨ tag.name = elseTag then (number? tag).toList
    else (ownAttributes tag).flatMap fun entry => marksOf marker entry.2.toList
  | .endTag _ _ => []

namespace Lifted

def Keeps (lifted : Lifted) (index : Nat) (placeholder : Placeholder) : Prop :=
  lifted.placeholders[index]? = some (some placeholder)

/-! ### Text and attributes -/

/-- The pieces of a text and the statements that they are restored to. -/
inductive Restores (lifted : Lifted) : List Piece → List Statement → Prop where
  | nil : Restores lifted [] []
  | text {chars pieces statements} : Restores lifted pieces statements →
      Restores lifted (.text chars :: pieces) (.text (String.ofList chars) :: statements)
  | mustache {index m pieces statements} : lifted.Keeps index (.expression m) →
      Restores lifted pieces statements →
      Restores lifted (.hole (some index) :: pieces) (.mustache m :: statements)
  | partialCall {index call pieces statements} : lifted.Keeps index (.partialCall call) →
      Restores lifted pieces statements →
      Restores lifted (.hole (some index) :: pieces) (.partialCall call :: statements)

/-- Whether a text is a lone placeholder that was written without quotes. -/
def IsLone (lifted : Lifted) (value : List Char) (index : Nat) : Prop :=
  Piece.whole? lifted.marker value = some index ∧ index ∈ lifted.unquoted

/-- What an attribute value is restored to. -/
inductive RestoresValue (lifted : Lifted) (value : List Char) : AttributeValue → Prop where
  | text : (∀ index, .hole index ∉ Piece.split lifted.marker value) →
      RestoresValue lifted value (.text (String.ofList value))
  | mustache {index m} : lifted.IsLone value index → lifted.Keeps index (.expression m) →
      RestoresValue lifted value (.mustache m)
  | concat {index parts} : .hole index ∈ Piece.split lifted.marker value →
      (∀ index, ¬ lifted.IsLone value index) →
      lifted.Restores (Piece.split lifted.marker value) parts →
      RestoresValue lifted value (.concat parts)

def RestoresAttribute (lifted : Lifted) (spellings : List (List Char)) (entry : String × String)
    (restored : Attribute) : Prop :=
  restored.name = Assembly.spellingOf spellings entry.1 ∧
    lifted.RestoresValue entry.2.toList restored.value

/-- A start tag of an element and the attributes that it has. -/
def RestoresAttributes (lifted : Lifted) (tag : StartTag) (attributes : List Attribute) : Prop :=
  List.Forall₂ (lifted.RestoresAttribute (writtenSpellings tag)) (ownAttributes tag) attributes

/-! ### Trees -/

mutual

/-- The tokens of a body and its statements. -/
inductive Reads (lifted : Lifted) : List Token → List Statement → Prop where
  | nil : Reads lifted [] []
  | text {chars restored tokens statements} :
      lifted.Restores (Piece.split lifted.marker chars) restored →
      Reads lifted tokens statements →
      Reads lifted (.text chars :: tokens) (restored ++ statements)
  | markupComment {value tokens statements} :
      Piece.whole? lifted.marker value = none →
      Reads lifted tokens statements →
      Reads lifted (.comment value :: tokens) (.markupComment (String.ofList value) :: statements)
  | mustacheComment {value index comment tokens statements} :
      Piece.whole? lifted.marker value = some index → lifted.Keeps index (.comment comment) →
      Reads lifted tokens statements →
      Reads lifted (.comment value :: tokens) (.mustacheComment comment :: statements)
  | leaf {tag line attributes tokens statements} :
      IsElement tag → isLeaf tag = true → lifted.RestoresAttributes tag attributes →
      Reads lifted tokens statements →
      Reads lifted (.startTag tag line :: tokens)
        (.element (writtenName tag) attributes [] tag.selfClosing :: statements)
  | element {tag line attributes inner children line' tokens statements} :
      IsElement tag → isLeaf tag = false → lifted.RestoresAttributes tag attributes →
      Reads lifted inner children → Reads lifted tokens statements →
      Reads lifted (.startTag tag line :: (inner ++ .endTag tag.name line' :: tokens))
        (.element (writtenName tag) attributes children false :: statements)
  | block {tag line index head inner id program rest inverse line' tokens statements} :
      tag.name = blockTag → number? tag = some index → lifted.Keeps index (.block head) →
      Reads lifted inner program → ReadsInverse lifted rest inverse →
      Reads lifted tokens statements →
      Reads lifted (.startTag tag line :: (inner ++ (rest ++ .endTag blockTag line' :: tokens)))
        (.block head (.mk id program) inverse :: statements)

/-- The tokens of a block after its program, and its inverse. -/
inductive ReadsInverse (lifted : Lifted) : List Token → Option Body → Prop where
  | none : ReadsInverse lifted [] none
  | otherwise {tag line inner id body} :
      tag.name = elseTag → number? tag = .none → Reads lifted inner body →
      ReadsInverse lifted (.startTag tag line :: inner) (some (.mk id body))
  | elseIf {tag line index head inner id program rest inverse id'} :
      tag.name = elseTag → number? tag = some index → lifted.Keeps index (.elseIf head) →
      Reads lifted inner program → ReadsInverse lifted rest inverse →
      ReadsInverse lifted (.startTag tag line :: (inner ++ rest))
        (some (.mk id' [.block head (.mk id program) inverse]))

end

variable {lifted : Lifted}

theorem Reads.append {tokens others : List Token} {statements more : List Statement}
    (h : lifted.Reads tokens statements) (h' : lifted.Reads others more) :
    lifted.Reads (tokens ++ others) (statements ++ more) := by
  match h with
  | .nil => exact h'
  | .text hr h =>
    rw [List.append_assoc]
    exact .text hr (h.append h')
  | .markupComment hw h => exact .markupComment hw (h.append h')
  | .mustacheComment hw hk h => exact .mustacheComment hw hk (h.append h')
  | .leaf he hl ha h => exact .leaf he hl ha (h.append h')
  | .element he hl ha hi h =>
    simp only [List.cons_append, List.append_assoc]
    exact .element he hl ha hi (h.append h')
  | .block ht hn hk hp hi h =>
    simp only [List.cons_append, List.append_assoc]
    exact .block ht hn hk hp hi (h.append h')

end Lifted

end MustacheJsx
