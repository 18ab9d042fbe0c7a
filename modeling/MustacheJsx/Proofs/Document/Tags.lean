import MustacheJsx.Proofs.Document.Reading
import MustacheJsx.Proofs.Reading.Distinct

/-!
# The tags of a document

`WrittenTag` is what markup says about an element: its names with their capitals, whether it closes
itself, and its closing tag. The elements of a tree have such tags too, depth first. An element has
no closing tag if it closes itself or if its name, in small letters, is that of a void element. A
template that is read from a document has the tags of the document: `Template.writtenTags_of_read`.
-/

namespace MustacheJsx

open Markup (Token StartTag)
open Markup.Lexer (textTokens)

/-! ### Tags -/

inductive WrittenTag where
  | opening (name : String) (attributes : List String) (selfClosing : Bool)
  /-- A closing tag by its name in small letters. -/
  | closing (name : String)
  deriving DecidableEq

def SourceTag.written (tag : SourceTag) : WrittenTag :=
  .opening (String.ofList tag.name) (tag.attributes.map fun entry => String.ofList entry.name)
    tag.selfClosing

def Segment.writtenTags : Segment → List WrittenTag
  | .opening tag => [tag.written]
  | .closing name _ => [.closing (smallName name)]
  | _ => []

/-- Whether an element is read without a closing tag. -/
def standsAlone (tag : String) (selfClosing : Bool) : Bool :=
  selfClosing || Markup.isVoid (smallName tag.toList)

mutual

/-- The tags of the elements in a statement, depth first. -/
def Statement.writtenTags : Statement → List WrittenTag
  | .element tag attributes children selfClosing =>
    .opening tag (attributes.map Attribute.name) selfClosing ::
      (writtenTagsOfAll children ++
        if standsAlone tag selfClosing then [] else [.closing (smallName tag.toList)])
  | .text _ => []
  | .mustache _ => []
  | .block _ program inverse =>
    writtenTagsOfBody program ++
      match inverse with
      | some body => writtenTagsOfBody body
      | none => []
  | .partialCall _ => []
  | .mustacheComment _ => []
  | .markupComment _ => []

def Statement.writtenTagsOfAll : List Statement → List WrittenTag
  | [] => []
  | statement :: statements => statement.writtenTags ++ writtenTagsOfAll statements

def Statement.writtenTagsOfBody : Body → List WrittenTag
  | .mk _ statements => writtenTagsOfAll statements

end

def Template.writtenTags (template : Template) : List WrittenTag :=
  Statement.writtenTagsOfAll template

namespace Statement

theorem writtenTagsOfAll_append (statements more : List Statement) :
    writtenTagsOfAll (statements ++ more) =
      writtenTagsOfAll statements ++ writtenTagsOfAll more := by
  induction statements with
  | nil => rfl
  | cons statement statements ih =>
    rw [List.cons_append, writtenTagsOfAll, writtenTagsOfAll, ih, List.append_assoc]

def writtenTagsOfInverse (inverse : Option Body) : List WrittenTag :=
  inverse.elim [] writtenTagsOfBody

theorem writtenTags_block (head : BlockHead) (program : Body) (inverse : Option Body) :
    (Statement.block head program inverse).writtenTags =
      writtenTagsOfBody program ++ writtenTagsOfInverse inverse := by
  cases inverse <;> rfl

end Statement

/-! ### The tags of tokens -/

/-- The tag of an element; the tags that stand for blocks are none. -/
def Token.writtenTags : Token → List WrittenTag
  | .startTag tag _ =>
    if tag.name = blockTag ∨ tag.name = elseTag then []
    else
      [.opening (writtenName tag)
        ((ownAttributes tag).map fun entry =>
          Assembly.spellingOf (writtenSpellings tag) entry.1) tag.selfClosing]
  | .endTag name _ => if name = blockTag then [] else [.closing name]
  | .text _ => []
  | .comment _ => []

/-- The name of a start tag is the written one in small letters. -/
def Token.IsSpelled : Token → Prop
  | .startTag tag _ => IsElement tag → smallName (writtenName tag).toList = tag.name
  | _ => True

theorem writtenTags_startTag {tag : StartTag} (h : IsElement tag) (line : Nat) :
    Token.writtenTags (.startTag tag line) =
      [.opening (writtenName tag) ((ownAttributes tag).map fun entry =>
        Assembly.spellingOf (writtenSpellings tag) entry.1) tag.selfClosing] := by
  rw [Token.writtenTags, if_neg (not_or.2 h)]

theorem writtenTags_marker {tag : StartTag} (h : tag.name = blockTag ∨ tag.name = elseTag)
    (line : Nat) : Token.writtenTags (.startTag tag line) = [] := if_pos h

theorem writtenTags_endTag {name : String} (h : name ≠ blockTag) (line : Nat) :
    Token.writtenTags (.endTag name line) = [.closing name] := if_neg h

theorem writtenTags_textTokens (cs : List Char) :
    (textTokens cs).flatMap Token.writtenTags = [] ∧
      ∀ token ∈ textTokens cs, Token.IsSpelled token := by
  cases cs with
  | nil => exact ⟨rfl, nofun⟩
  | cons c cs => exact ⟨rfl, List.forall_mem_singleton.2 trivial⟩

namespace Lifted

variable {lifted : Lifted}

theorem Restores.writtenTags {pieces : List Piece} {restored : List Statement}
    (h : lifted.Restores pieces restored) : Statement.writtenTagsOfAll restored = [] := by
  induction h with
  | nil => rfl
  | text _ ih | mustache _ _ ih | partialCall _ _ ih => exact ih

theorem RestoresAttributes.map_name {tag : StartTag} {attributes : List Attribute}
    (h : lifted.RestoresAttributes tag attributes) :
    attributes.map Attribute.name = (ownAttributes tag).map fun entry =>
      Assembly.spellingOf (writtenSpellings tag) entry.1 := by
  unfold RestoresAttributes at h
  generalize ownAttributes tag = entries at h
  induction h with
  | nil => rfl
  | cons hentry _ ih => rw [List.map_cons, List.map_cons, ih, hentry.1]

theorem standsAlone_writtenName {tag : StartTag}
    (h : smallName (writtenName tag).toList = tag.name) (selfClosing : Bool) :
    standsAlone (writtenName tag) selfClosing = (selfClosing || Markup.isVoid tag.name) := by
  rw [standsAlone, h]

mutual

theorem Reads.writtenTags {tokens : List Token} {statements : List Statement}
    (h : lifted.Reads tokens statements) (hnames : ∀ token ∈ tokens, Token.IsSpelled token) :
    Statement.writtenTagsOfAll statements = tokens.flatMap Token.writtenTags := by
  match h with
  | .nil => rfl
  | .text hr h =>
    rw [Statement.writtenTagsOfAll_append, hr.writtenTags,
      h.writtenTags (List.forall_mem_cons.1 hnames).2]
    rfl
  | .markupComment _ h | .mustacheComment _ _ h =>
    exact h.writtenTags (List.forall_mem_cons.1 hnames).2
  | .leaf he hleaf ha h =>
    obtain ⟨hname, hrest⟩ := List.forall_mem_cons.1 hnames
    rw [Statement.writtenTagsOfAll, Statement.writtenTags, List.flatMap_cons,
      writtenTags_startTag he, ha.map_name, h.writtenTags hrest,
      standsAlone_writtenName (hname he), ← isLeaf, hleaf]
    rfl
  | .element he hleaf ha hi h =>
    obtain ⟨hname, hrest⟩ := List.forall_mem_cons.1 hnames
    obtain ⟨hinner, hlater⟩ := List.forall_mem_append.1 hrest
    obtain ⟨hself, hvoid⟩ := Bool.or_eq_false_iff.1 hleaf
    rw [Statement.writtenTagsOfAll, Statement.writtenTags, List.flatMap_cons,
      writtenTags_startTag he, ha.map_name, List.flatMap_append, List.flatMap_cons,
      writtenTags_endTag he.1, hi.writtenTags hinner,
      h.writtenTags (List.forall_mem_cons.1 hlater).2, standsAlone_writtenName (hname he), hvoid,
      hself, hname he]
    simp
  | .block ht _ _ hp hi h =>
    obtain ⟨-, hrest⟩ := List.forall_mem_cons.1 hnames
    obtain ⟨hinner, hothers⟩ := List.forall_mem_append.1 hrest
    obtain ⟨hinverse, hlater⟩ := List.forall_mem_append.1 hothers
    rw [Statement.writtenTagsOfAll, Statement.writtenTags_block, List.flatMap_cons,
      writtenTags_marker (.inl ht), List.flatMap_append, List.flatMap_append, List.flatMap_cons,
      Statement.writtenTagsOfBody, hp.writtenTags hinner, hi.writtenTags hinverse,
      h.writtenTags (List.forall_mem_cons.1 hlater).2]
    simp [Token.writtenTags]

theorem ReadsInverse.writtenTags {tokens : List Token} {inverse : Option Body}
    (h : lifted.ReadsInverse tokens inverse) (hnames : ∀ token ∈ tokens, Token.IsSpelled token) :
    Statement.writtenTagsOfInverse inverse = tokens.flatMap Token.writtenTags := by
  match h with
  | .none => rfl
  | .otherwise ht _ hp =>
    rw [List.flatMap_cons, writtenTags_marker (.inr ht)]
    exact hp.writtenTags (List.forall_mem_cons.1 hnames).2
  | .elseIf ht _ _ hp hi =>
    obtain ⟨-, hrest⟩ := List.forall_mem_cons.1 hnames
    obtain ⟨hinner, hothers⟩ := List.forall_mem_append.1 hrest
    rw [List.flatMap_cons, writtenTags_marker (.inr ht), List.flatMap_append,
      ← hp.writtenTags hinner, ← hi.writtenTags hothers]
    show (Statement.block _ (.mk _ _) _).writtenTags ++ [] = _
    rw [Statement.writtenTags_block, List.append_nil]
    rfl

end

end Lifted

/-! ### The tags of parts -/

/-- The attributes of a tag are spelled as they are written. -/
theorem SourceTag.spellings_token {tag : SourceTag} (htag : tag.IsWritten) (marker : Char)
    (first : Nat) :
    ((ownAttributes (tag.token marker first)).map fun entry =>
        Assembly.spellingOf (writtenSpellings (tag.token marker first)) entry.1) =
      tag.attributes.map fun entry => String.ofList entry.name := by
  have hall := congrArg (List.map (Assembly.spellingOf (casedNames tag.attributes)))
    (SourceAttribute.map_fst_decodedOfAll marker first tag.attributes)
  rw [List.map_map, List.map_map] at hall
  rw [writtenSpellings_token htag, ownAttributes_token htag]
  exact hall.trans (List.map_congr_left (spellingOf_casedNames htag.distinct))

theorem SourceTag.writtenTags_token {tag : SourceTag} (htag : tag.IsWritten) (marker : Char)
    (first line : Nat) :
    Token.writtenTags (.startTag (tag.token marker first) line) = [tag.written] := by
  have helement : IsElement (tag.token marker first) := htag.element
  rw [writtenTags_startTag helement, writtenName_token htag, spellings_token htag]
  rfl

theorem SourceTag.isSpelled_token {tag : SourceTag} (htag : tag.IsWritten) (marker : Char)
    (first line : Nat) : Token.IsSpelled (.startTag (tag.token marker first) line) := by
  intro _
  rw [writtenName_token htag, String.toList_ofList]
  rfl

theorem Tag.writtenTags_of_signal {t : Tag} {marker : Char} {first : Nat} {token : Nat → Token}
    (h : (Item.tag t).signal marker first = .inr token) (line : Nat) :
    Token.writtenTags (token line) = [] ∧ Token.IsSpelled (token line) := by
  cases t with
  | expression m => cases h
  | partialCall call => cases h
  | comment value =>
    cases h
    exact ⟨rfl, trivial⟩
  | openBlock head =>
    cases h
    exact ⟨rfl, fun helement => absurd rfl helement.1⟩
  | elseBranch chain =>
    cases chain with
    | none =>
      cases h
      exact ⟨rfl, fun helement => absurd rfl helement.2⟩
    | some head =>
      cases h
      exact ⟨rfl, fun helement => absurd rfl helement.2⟩
  | closeBlock name =>
    cases h
    exact ⟨rfl, trivial⟩

/-- The tokens that a part ends have the tags of its segment. -/
theorem Part.Gives.writtenTags {segment : Segment} {part : Part} (hpart : segment.Becomes part)
    (hsegment : segment.IsWritten) {marker : Char} {first : Nat} {refs : Bool}
    {pending next : List Piece} {tokens : List Token}
    (h : part.Gives marker first refs pending tokens next) :
    tokens.flatMap Token.writtenTags = segment.writtenTags ∧
      ∀ token ∈ tokens, Token.IsSpelled token := by
  -- Before the token of the part there is only text.
  have htoken : ∀ {own : List WrittenTag} {cs : List Char} {token : Token},
      Token.writtenTags token = own ∧ Token.IsSpelled token →
        (textTokens cs ++ [token]).flatMap Token.writtenTags = own ∧
          ∀ other ∈ textTokens cs ++ [token], Token.IsSpelled other := by
    rintro own cs token ⟨htags, hspelled⟩
    obtain ⟨hnone, htext⟩ := writtenTags_textTokens cs
    refine ⟨?_, List.forall_mem_append.2 ⟨htext, List.forall_mem_singleton.2 hspelled⟩⟩
    rw [List.flatMap_append, hnone, List.nil_append, List.flatMap_singleton, htags]
  cases hpart with
  | text chars | doctype chars =>
    cases h with
    | piece _ | nothing _ => exact ⟨rfl, nofun⟩
    | token line hsignal => cases hsignal
  | mustache _ =>
    cases h with
    | piece _ | nothing _ => exact ⟨rfl, nofun⟩
    | token line hsignal => exact htoken (Tag.writtenTags_of_signal (Option.some.inj hsignal) line)
  | comment form value =>
    cases h with
    | piece hsignal | nothing hsignal => cases hsignal
    | token line hsignal =>
      cases hsignal
      exact htoken ⟨rfl, trivial⟩
  | opening _ =>
    cases h with
    | piece hsignal | nothing hsignal => cases hsignal
    | token line hsignal =>
      cases hsignal
      exact htoken ⟨SourceTag.writtenTags_token hsegment.1 marker first line,
        SourceTag.isSpelled_token hsegment.1 marker first line⟩
  | closing name blanks =>
    cases h with
    | piece hsignal | nothing hsignal => cases hsignal
    | token line hsignal =>
      cases hsignal
      exact htoken ⟨writtenTags_endTag hsegment.1.element line, trivial⟩

theorem Part.GivesAll.writtenTags {document : List Segment} {parts : List Part}
    (hparts : List.Forall₂ Segment.Becomes document parts)
    (hwritten : ∀ segment ∈ document, segment.IsWritten) {marker : Char} {raw : Option String}
    {first : Nat} {pending : List Piece} {tokens : List Token}
    (h : Part.GivesAll marker raw first pending parts tokens) :
    tokens.flatMap Token.writtenTags = document.flatMap Segment.writtenTags ∧
      ∀ token ∈ tokens, Token.IsSpelled token := by
  induction hparts generalizing raw first pending tokens with
  | nil =>
    cases h
    exact writtenTags_textTokens _
  | cons hpart hparts ih =>
    obtain ⟨hsegment, hlater⟩ := List.forall_mem_cons.1 hwritten
    cases h with
    | cons hfirst hrest =>
      obtain ⟨htags, hspelled⟩ := hfirst.writtenTags hpart hsegment
      obtain ⟨hmore, hothers⟩ := ih hlater hrest
      refine ⟨?_, List.forall_mem_append.2 ⟨hspelled, hothers⟩⟩
      rw [List.flatMap_append, htags, hmore, List.flatMap_cons]

/-! ### The tags of a template -/

/-- A template that is read from a document has the tags of the document, in their order. -/
theorem Template.writtenTags_of_read {source : List Char} {template : Template}
    (hread : read source = .ok template) {document : List Segment}
    (hsource : Markup.Lexer.withoutMark source = document.flatMap Segment.source)
    (hdocument : IsDocument none document) :
    template.writtenTags = document.flatMap Segment.writtenTags := by
  obtain ⟨⟨lifted, next⟩, hs, -⟩ := bind_eq_ok hread
  obtain ⟨parts, hparts, -⟩ := Lifted.exists_hasParts hs hsource hdocument
  obtain ⟨hreads, -⟩ := reads_of_read hs hread
  obtain ⟨htags, hspelled⟩ :=
    (hparts.givesAll hdocument).writtenTags hparts.becomes hdocument.written
  exact (hreads.writtenTags hspelled).trans htags

end MustacheJsx
