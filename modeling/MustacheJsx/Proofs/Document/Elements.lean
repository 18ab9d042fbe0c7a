import MustacheJsx.Proofs.Conversion.Unambiguous
import MustacheJsx.Proofs.Document.Tags
import MustacheJsx.Proofs.Reading.Branches

/-!
# The elements of a document

An opening tag of a document becomes an element whose content is what stands before its closing tag.
Whether it has one is decided by its name in small letters, so a component called as a void element
has none, and is refused with one. The conversion looks at the name as it is written.
-/

namespace MustacheJsx

open Markup (Token StartTag)
open Markup.Lexer (textTokens)

/-- What stands somewhere in two lists stands in the first or in the second of them. -/
theorem split_of_append_eq {α : Type} {first second xs ys : List α} {a : α}
    (h : first ++ second = xs ++ a :: ys) :
    (∃ zs, first = xs ++ a :: zs ∧ ys = zs ++ second) ∨
      ∃ zs, xs = first ++ zs ∧ second = zs ++ a :: ys := by
  obtain ⟨zs, rfl, hsecond⟩ | ⟨zs, rfl, hrest⟩ := List.append_eq_append_iff.1 h
  · exact .inr ⟨zs, rfl, hsecond⟩
  · cases zs with
    | nil => exact .inr ⟨[], by simp, hrest.symm⟩
    | cons b zs =>
      obtain ⟨rfl, rfl⟩ := List.cons.inj hrest
      exact .inl ⟨zs, rfl, rfl⟩

/-! ### Statements in a tree -/

def Statement.content : Statement → List Statement
  | .element _ _ children _ => children
  | .block _ program inverse => program.statements ++ inverse.elim [] Body.statements
  | _ => []

namespace Lifted

variable {lifted : Lifted} {tag : StartTag} {line : Nat}

/-- The element of a start tag with the tokens that follow it: it is a leaf, or it holds what is
read up to its end tag. -/
structure ReadsElement (lifted : Lifted) (tag : StartTag) (following : List Token)
    (attributes : List Attribute) (children : List Statement) : Prop where
  attributes : lifted.RestoresAttributes tag attributes
  leaf : isLeaf tag = true → children = []
  encloses : isLeaf tag = false → ∃ inner line after,
    following = inner ++ .endTag tag.name line :: after ∧ lifted.Reads inner children

/-- Somewhere in a tree is the element of a start tag. -/
def HoldsElement (lifted : Lifted) (tag : StartTag) (following : List Token)
    (statements : List Statement) : Prop :=
  ∃ attributes children, lifted.ReadsElement tag following attributes children ∧
    (Statement.element (writtenName tag) attributes children tag.selfClosing).ReachedBy
      Statement.content statements

theorem ReadsElement.append {following : List Token} {attributes : List Attribute}
    {children : List Statement} (h : lifted.ReadsElement tag following attributes children)
    (more : List Token) : lifted.ReadsElement tag (following ++ more) attributes children where
  attributes := h.attributes
  leaf := h.leaf
  encloses hleaf := by
    obtain ⟨inner, line, after, rfl, hreads⟩ := h.encloses hleaf
    exact ⟨inner, line, after ++ more, by simp, hreads⟩

namespace HoldsElement

variable {following : List Token} {statements others : List Statement}

theorem mono (h : lifted.HoldsElement tag following statements) (hsub : statements ⊆ others) :
    lifted.HoldsElement tag following others := by
  obtain ⟨attributes, children, hreads, hreached⟩ := h
  exact ⟨attributes, children, hreads, hreached.mono hsub⟩

theorem inside {outer : Statement} (h : lifted.HoldsElement tag following outer.content)
    (more : List Token) : lifted.HoldsElement tag (following ++ more) (outer :: others) := by
  obtain ⟨attributes, children, hreads, hreached⟩ := h
  exact ⟨attributes, children, hreads.append more, .inside hreached List.mem_cons_self⟩

theorem tail {outer : Statement} (h : lifted.HoldsElement tag following statements) :
    lifted.HoldsElement tag following (outer :: statements) :=
  h.mono (List.subset_cons_self outer statements)

end HoldsElement

mutual

/-- A start tag among the tokens of a tree has its element in the tree. -/
theorem Reads.holdsElement {tokens : List Token} {statements : List Statement}
    (h : lifted.Reads tokens statements) (htag : IsElement tag) (xs ys : List Token)
    (heq : tokens = xs ++ .startTag tag line :: ys) :
    lifted.HoldsElement tag ys statements := by
  match xs, h with
  | [], .leaf he hleaf ha h =>
    cases heq
    exact ⟨_, _, ⟨ha, fun _ => rfl, fun hopen => by simp [hleaf] at hopen⟩,
      .here List.mem_cons_self⟩
  | [], .element he hleaf ha hi h =>
    cases heq
    have hself : tag.selfClosing = false := (Bool.or_eq_false_iff.1 hleaf).1
    refine ⟨_, _, ⟨ha, fun hclosed => by simp [hleaf] at hclosed, fun _ => ⟨_, _, _, rfl, hi⟩⟩, ?_⟩
    rw [hself]
    exact .here List.mem_cons_self
  | [], .block hblock _ _ _ _ _ =>
    cases heq
    exact absurd hblock htag.1
  | x :: xs, .text hr h =>
    obtain ⟨-, htail⟩ := List.cons.inj heq
    exact (h.holdsElement htag xs ys htail).mono (List.subset_append_right _ _)
  | x :: xs, .markupComment _ h | x :: xs, .mustacheComment _ _ h | x :: xs, .leaf _ _ _ h =>
    obtain ⟨-, htail⟩ := List.cons.inj heq
    exact (h.holdsElement htag xs ys htail).tail
  | x :: xs, .element _ _ _ hi h =>
    obtain ⟨-, htail⟩ := List.cons.inj heq
    obtain ⟨zs, hinner, rfl⟩ | ⟨zs, -, hrest⟩ := split_of_append_eq htail
    · exact (hi.holdsElement htag xs zs hinner).inside _
    · cases zs with
      | nil => cases hrest
      | cons z zs =>
        obtain ⟨-, hlater⟩ := List.cons.inj hrest
        exact (h.holdsElement htag zs ys hlater).tail
  | x :: xs, .block _ _ _ hp hi h =>
    obtain ⟨-, htail⟩ := List.cons.inj heq
    obtain ⟨zs, hprogram, rfl⟩ | ⟨zs, -, hrest⟩ := split_of_append_eq htail
    · exact ((hp.holdsElement htag xs zs hprogram).mono (List.subset_append_left _ _)).inside _
    · obtain ⟨ws, hinverse, rfl⟩ | ⟨ws, -, hend⟩ := split_of_append_eq hrest
      · exact ((hi.holdsElement htag zs ws hinverse).mono (List.subset_append_right _ _)).inside _
      · cases ws with
        | nil => cases hend
        | cons w ws =>
          obtain ⟨-, hlater⟩ := List.cons.inj hend
          exact (h.holdsElement htag ws ys hlater).tail

theorem ReadsInverse.holdsElement {tokens : List Token} {inverse : Option Body}
    (h : lifted.ReadsInverse tokens inverse) (htag : IsElement tag) (xs ys : List Token)
    (heq : tokens = xs ++ .startTag tag line :: ys) :
    lifted.HoldsElement tag ys (inverse.elim [] Body.statements) := by
  match xs, h with
  | [], .none => cases heq
  | x :: xs, .none => cases heq
  | [], .otherwise helse _ _ | [], .elseIf helse _ _ _ _ =>
    cases heq
    exact absurd helse htag.2
  | x :: xs, .otherwise _ _ hp =>
    exact hp.holdsElement htag xs ys (List.cons.inj heq).2
  | x :: xs, .elseIf _ _ _ hp hi =>
    obtain ⟨-, htail⟩ := List.cons.inj heq
    obtain ⟨zs, hprogram, rfl⟩ | ⟨zs, -, hrest⟩ := split_of_append_eq htail
    · exact ((hp.holdsElement htag xs zs hprogram).mono (List.subset_append_left _ _)).inside _
    · rw [← List.append_nil ys]
      exact ((hi.holdsElement htag zs ys hrest).mono (List.subset_append_right _ _)).inside []

end

mutual

theorem Reads.isVoid_eq_false {tokens : List Token} {statements : List Statement}
    (h : lifted.Reads tokens statements) {name : String} (hmem : .endTag name line ∈ tokens) :
    Markup.isVoid name = false := by
  match h with
  | .nil => cases hmem
  | .text _ h | .markupComment _ h | .mustacheComment _ _ h | .leaf _ _ _ h =>
    rcases List.mem_cons.1 hmem with heq | hmem
    · cases heq
    · exact h.isVoid_eq_false hmem
  | .element _ hleaf _ hi h =>
    rcases List.mem_append.1 ((List.mem_cons.1 hmem).resolve_left nofun) with hmem | hmem
    · exact hi.isVoid_eq_false hmem
    · rcases List.mem_cons.1 hmem with heq | hmem
      · cases heq
        exact (Bool.or_eq_false_iff.1 hleaf).2
      · exact h.isVoid_eq_false hmem
  | .block _ _ _ hp hi h =>
    rcases List.mem_append.1 ((List.mem_cons.1 hmem).resolve_left nofun) with hmem | hmem
    · exact hp.isVoid_eq_false hmem
    · rcases List.mem_append.1 hmem with hmem | hmem
      · exact hi.isVoid_eq_false hmem
      · rcases List.mem_cons.1 hmem with heq | hmem
        · cases heq
          decide
        · exact h.isVoid_eq_false hmem

theorem ReadsInverse.isVoid_eq_false {tokens : List Token} {inverse : Option Body}
    (h : lifted.ReadsInverse tokens inverse) {name : String}
    (hmem : .endTag name line ∈ tokens) : Markup.isVoid name = false := by
  match h with
  | .none => cases hmem
  | .otherwise _ _ hp =>
    exact hp.isVoid_eq_false ((List.mem_cons.1 hmem).resolve_left nofun)
  | .elseIf _ _ _ hp hi =>
    rcases List.mem_append.1 ((List.mem_cons.1 hmem).resolve_left nofun) with hmem | hmem
    · exact hp.isVoid_eq_false hmem
    · exact hi.isVoid_eq_false hmem

end

/-- A start tag and an end tag stand around content that reads, between tokens that read without
them. -/
def IsEnclosing (lifted : Lifted) (tag : StartTag) : Prop :=
  ∃ before line content line' after,
    Markup.tokens lifted.markup =
      before ++ .startTag tag line :: (content ++ .endTag tag.name line' :: after) ∧
    (∃ outer, lifted.Reads (before ++ after) outer) ∧
    (∃ children, lifted.Reads content children) ∧
    ∃ attributes, lifted.RestoresAttributes tag attributes

theorem IsEnclosing.exists_reads_iff (h : lifted.IsEnclosing tag) (htag : IsElement tag)
    (hopen : tag.selfClosing = false) :
    (∃ statements, lifted.Reads (Markup.tokens lifted.markup) statements) ↔
      Markup.isVoid tag.name = false := by
  obtain ⟨before, line, content, line', after, htokens, ⟨outer, houter⟩, ⟨children, hcontent⟩,
    attributes, hattributes⟩ := h
  rw [htokens]
  constructor
  · rintro ⟨statements, hreads⟩
    have hmem : .endTag tag.name line' ∈
        before ++ .startTag tag line :: (content ++ .endTag tag.name line' :: after) := by simp
    exact hreads.isVoid_eq_false hmem
  · intro hvoid
    have hleaf : isLeaf tag = false := Bool.or_eq_false_iff.2 ⟨hopen, hvoid⟩
    have helement : lifted.Reads (.startTag tag line :: (content ++ [.endTag tag.name line']))
        [.element (writtenName tag) attributes children false] :=
      .element htag hleaf hattributes hcontent .nil
    obtain ⟨found, hfound⟩ := helement.exists_insert houter before after rfl
    rw [List.cons_append, List.append_assoc] at hfound
    exact ⟨found, hfound⟩

end Lifted

/-! ### Tags among tokens -/

theorem endTag_not_mem_textTokens (name : String) (line : Nat) (cs : List Char) :
    Token.endTag name line ∉ textTokens cs := by
  intro hmem
  cases cs with
  | nil => cases hmem
  | cons c cs => cases List.mem_singleton.1 hmem

/-- The end tags of elements are those that are written. -/
theorem Part.closing_of_signal {part : Part} {marker : Char} {first line line' : Nat} {refs : Bool}
    {token : Nat → Token} {name : String}
    (h : part.signal marker first refs = some (.inr token))
    (hend : token line = .endTag name line') (hname : name ≠ blockTag) :
    ∃ written blanks, part = .closing written blanks ∧ smallName written = name := by
  cases part with
  | closing written blanks =>
    cases h
    cases hend
    exact ⟨written, blanks, rfl, rfl⟩
  | tag t =>
    rcases t with _ | _ | _ | _ | (_ | _) | _ <;> cases h <;> cases hend
    exact absurd rfl hname
  | text chars | doctype chars => cases h
  | comment form value | opening tag slots =>
    cases h
    cases hend

namespace Part.GivesAll

variable {marker : Char} {raw : Option String} {first : Nat} {pending : List Piece}

/-- An opening tag is a token, and what is written after it gives the tokens after it. -/
theorem split_opening {before rest : List Part} {tag : SourceTag} {slots : List Slot}
    {tokens : List Token}
    (h : GivesAll marker raw first pending (before ++ .opening tag slots :: rest) tokens) :
    ∃ xs number line ys,
      tokens = xs ++ .startTag (tag.token marker number) line :: ys ∧
      GivesAll marker tag.rawElement? (number + slots.length) [] rest ys := by
  generalize hparts : before ++ .opening tag slots :: rest = parts at h
  induction h generalizing before with
  | nil => cases before <;> cases hparts
  | cons hpart hothers ih =>
    cases before with
    | nil =>
      cases hparts
      cases hpart with
      | piece hsignal | nothing hsignal => cases hsignal
      | token line hsignal =>
        cases hsignal
        exact ⟨_, _, line, _, List.append_assoc _ _ _, hothers⟩
    | cons part before =>
      cases hparts
      obtain ⟨xs, number, line, ys, rfl, hrest⟩ := ih rfl
      exact ⟨_, number, line, ys, (List.append_assoc _ _ _).symm, hrest⟩

/-- The end tag of an element is a closing tag, and what is written before it gives the tokens
before it. -/
theorem split_endTag {parts : List Part} {tokens : List Token}
    (h : GivesAll marker raw first pending parts tokens) {xs ys : List Token} {name : String}
    {line : Nat} (hname : name ≠ blockTag) (heq : tokens = xs ++ .endTag name line :: ys) :
    ∃ before written blanks rest, parts = before ++ .closing written blanks :: rest ∧
      smallName written = name ∧ GivesAll marker raw first pending before xs := by
  induction h generalizing xs with
  | nil =>
    exact absurd (heq ▸ List.mem_append_right xs List.mem_cons_self)
      (endTag_not_mem_textTokens name line _)
  | @cons _ _ _ part _ _ _ _ hpart hothers ih =>
    obtain ⟨zs, hown, -⟩ | ⟨zs, rfl, hrest⟩ := split_of_append_eq heq
    · cases hpart with
      | piece | nothing => cases xs <;> cases hown
      | token line' hsignal =>
        obtain ⟨ws, hpending, -⟩ | ⟨ws, rfl, hlast⟩ := split_of_append_eq hown
        · exact absurd (hpending ▸ List.mem_append_right xs List.mem_cons_self)
            (endTag_not_mem_textTokens name line _)
        · cases ws with
          | cons w ws => cases ws <;> cases hlast
          | nil =>
            obtain ⟨hend, -⟩ := List.cons.inj hlast
            obtain ⟨written, blanks, rfl, hwritten⟩ := closing_of_signal hsignal hend hname
            rw [List.append_nil]
            exact ⟨[], written, blanks, _, rfl, hwritten, .nil⟩
    · obtain ⟨before, written, blanks, rest, rfl, hwritten, hbefore⟩ := ih hrest
      exact ⟨part :: before, written, blanks, rest, rfl, hwritten, .cons hpart hbefore⟩

end Part.GivesAll

/-! ### How an element is printed -/

theorem smallName_of_isSelfClosingName {name : String} (h : isSelfClosingName name = true) :
    smallName name.toList = name := by
  have hsmall : ∀ other ∈ Markup.voidElements ++ shapeElements,
      smallName other.toList = other := by decide +kernel
  refine hsmall name (List.mem_append.2 ?_)
  simpa [isSelfClosingName, Markup.isVoid] using h

/-- An element that is read without an end tag is printed without one unless it is a void element
whose name has capitals. -/
theorem isClosed_of_standsAlone {tag : String} {selfClosing : Bool}
    (h : standsAlone tag selfClosing = true) :
    (selfClosing || isSelfClosingName tag) = true ↔
      selfClosing = true ∨ smallName tag.toList = tag := by
  rw [Bool.or_eq_true]
  refine or_congr_right' fun hopen => ⟨smallName_of_isSelfClosingName, fun hsmall => ?_⟩
  rw [standsAlone, hsmall, Bool.or_eq_true] at h
  rw [isSelfClosingName, h.resolve_left hopen, Bool.true_or]

/-- An element that is read with an end tag is printed with one unless it is a shape. -/
theorem isClosed_of_not_standsAlone {tag : String} {selfClosing : Bool}
    (h : standsAlone tag selfClosing = false) :
    (selfClosing || isSelfClosingName tag) = true ↔ tag ∈ shapeElements := by
  obtain ⟨rfl, hvoid⟩ := Bool.or_eq_false_iff.1 h
  rw [Bool.false_or]
  constructor
  · intro hclosed
    rw [smallName_of_isSelfClosingName hclosed] at hvoid
    rw [isSelfClosingName, hvoid, Bool.false_or] at hclosed
    exact List.contains_iff_mem.1 hclosed
  · intro hshape
    rw [isSelfClosingName, List.contains_iff_mem.2 hshape, Bool.or_true]

/-! ### The elements of a template -/

/-- What children have been read of: the document up to the closing tag of an opening tag. -/
def SourceTag.Encloses (tag : SourceTag) (rest : List Segment) (children : List Statement) : Prop :=
  ∃ inner name blanks after, rest = inner ++ .closing name blanks :: after ∧
    smallName name = smallName tag.name ∧
    Statement.writtenTagsOfAll children = inner.flatMap Segment.writtenTags

theorem exists_of_forall₂_append {α β : Type} {R : α → β → Prop} {xs ys : List α} {zs : List β}
    (h : List.Forall₂ R (xs ++ ys) zs) :
    ∃ us vs, zs = us ++ vs ∧ List.Forall₂ R xs us ∧ List.Forall₂ R ys vs := by
  induction xs generalizing zs with
  | nil => exact ⟨[], zs, rfl, .nil, h⟩
  | cons x xs ih =>
    cases h with
    | cons hx hrest =>
      obtain ⟨us, vs, rfl, hus, hvs⟩ := ih hrest
      exact ⟨_ :: us, vs, rfl, .cons hx hus, hvs⟩

namespace Template

variable {source : List Char} {lifted : Lifted} {next : Nat} {document before rest : List Segment}
  {tag : SourceTag}

/-- The tokens of a document with an opening tag. -/
theorem exists_tokens (hs : Lifted.ofSource source = .ok (lifted, next))
    (hsource : Markup.Lexer.withoutMark source = document.flatMap Segment.source)
    (hdocument : IsDocument none document) (hsplit : document = before ++ .opening tag :: rest) :
    ∃ xs number line ys raw first parts,
      Markup.tokens lifted.markup =
        xs ++ .startTag (tag.token lifted.marker number) line :: ys ∧
      List.Forall₂ Segment.Becomes rest parts ∧
      Part.GivesAll lifted.marker raw first [] parts ys := by
  obtain ⟨parts, hparts, -⟩ := Lifted.exists_hasParts hs hsource hdocument
  have hgives := hparts.givesAll hdocument
  have hbecomes := hparts.becomes
  rw [hsplit] at hbecomes
  obtain ⟨earlier, others, rfl, -, hothers⟩ := exists_of_forall₂_append hbecomes
  cases hothers with
  | cons hopening hlater =>
    cases hopening
    obtain ⟨xs, number, line, ys, htokens, hys⟩ := hgives.split_opening
    exact ⟨xs, number, line, ys, _, _, _, htokens, hlater, hys⟩

/-- The element of an opening tag holds what is written up to its closing tag. -/
theorem exists_element (hs : Lifted.ofSource source = .ok (lifted, next))
    (hsource : Markup.Lexer.withoutMark source = document.flatMap Segment.source)
    (hdocument : IsDocument none document) (hsplit : document = before ++ .opening tag :: rest)
    {template : Template} (hread : read source = .ok template) :
    ∃ attributes children,
      (Statement.element (String.ofList tag.name) attributes children tag.selfClosing).ReachedBy
        Statement.content template ∧
      attributes.map Attribute.name = tag.attributes.map (fun entry => String.ofList entry.name) ∧
      (standsAlone (String.ofList tag.name) tag.selfClosing = true → children = []) ∧
      (standsAlone (String.ofList tag.name) tag.selfClosing = false →
        tag.Encloses rest children) := by
  have hwritten : ∀ segment ∈ before ++ .opening tag :: rest, segment.IsWritten :=
    hsplit ▸ hdocument.written
  obtain ⟨-, hlater⟩ := List.forall_mem_append.1 hwritten
  obtain ⟨⟨htag, -⟩, hrest⟩ := List.forall_mem_cons.1 hlater
  obtain ⟨xs, number, line, ys, raw, first, parts, htokens, hbecomes, hgives⟩ :=
    exists_tokens hs hsource hdocument hsplit
  obtain ⟨hreads, -⟩ := reads_of_read hs hread
  have hmarker : IsElement (tag.token lifted.marker number) := htag.element
  obtain ⟨attributes, children, helement, hreached⟩ := hreads.holdsElement hmarker xs ys htokens
  rw [SourceTag.writtenName_token htag] at hreached
  have halone : standsAlone (String.ofList tag.name) tag.selfClosing =
      isLeaf (tag.token lifted.marker number) := by
    rw [standsAlone, String.toList_ofList]
    rfl
  rw [halone]
  refine ⟨attributes, children, hreached,
    helement.attributes.map_name.trans (SourceTag.spellings_token htag lifted.marker number),
    helement.leaf, fun hopen => ?_⟩
  obtain ⟨inner, line', after, rfl, hinner⟩ := helement.encloses hopen
  obtain ⟨earlier, name, blanks, later, rfl, hname, hbefore⟩ :=
    hgives.split_endTag htag.element.1 rfl
  have hflip : List.Forall₂ (flip Segment.Becomes) _ rest := List.Forall₂.flip hbecomes
  obtain ⟨content, others, rfl, hcontent, hothers⟩ := exists_of_forall₂_append hflip
  cases hothers with
  | cons hclosing _ =>
    cases hclosing
    obtain ⟨htags, hspelled⟩ := hbefore.writtenTags hcontent.flip
      (List.forall_mem_append.1 hrest).1
    exact ⟨content, name, blanks, _, rfl, hname, (hinner.writtenTags hspelled).trans htags⟩

/-- An opening tag of a document is read as an element. Between tokens that read and around content
that does, it is accepted with its end tag unless the small form of its name is that of a void
element. Its element holds what is written up to its closing tag, or nothing if it stands alone. An
element that stands alone is printed without an end tag if it closes itself or its name has no
capitals; so a component, whose name begins with one, is read like the element of its small name and
printed as it is written. -/
theorem element_of_openingTag (hs : Lifted.ofSource source = .ok (lifted, next))
    (hsource : Markup.Lexer.withoutMark source = document.flatMap Segment.source)
    (hdocument : IsDocument none document) (hsplit : document = before ++ .opening tag :: rest) :
    (tag.selfClosing = false →
      (∃ number, lifted.IsEnclosing (tag.token lifted.marker number)) →
      (lifted.marks (Markup.tokens lifted.markup)).Perm (List.range lifted.placeholders.length) →
      ((∃ template, read source = .ok template) ↔
        Markup.isVoid (smallName tag.name) = false)) ∧
    ∀ template, read source = .ok template → ∃ attributes children,
      (Statement.element (String.ofList tag.name) attributes children tag.selfClosing).ReachedBy
        Statement.content template ∧
      attributes.map Attribute.name = tag.attributes.map (fun entry => String.ofList entry.name) ∧
      (standsAlone (String.ofList tag.name) tag.selfClosing = true → children = []) ∧
      (standsAlone (String.ofList tag.name) tag.selfClosing = false →
        tag.Encloses rest children) ∧
      ∀ notes converted,
        (Statement.element (String.ofList tag.name) attributes children tag.selfClosing).convert
          notes = .ok converted →
        ∃ kept inner closed,
          converted = .element (.mk (String.ofList tag.name) kept inner closed) ∧
          (standsAlone (String.ofList tag.name) tag.selfClosing = true →
            (closed = true ↔
              tag.selfClosing = true ∨ smallName tag.name = String.ofList tag.name)) ∧
          (standsAlone (String.ofList tag.name) tag.selfClosing = false →
            (closed = true ↔ String.ofList tag.name ∈ shapeElements)) := by
  have hwritten : tag.IsWritten :=
    (hdocument.written (.opening tag) (hsplit ▸ List.mem_append_right _ List.mem_cons_self)).1
  constructor
  · rintro hopen ⟨number, henclosing⟩ hmarks
    have helement : IsElement (tag.token lifted.marker number) := hwritten.element
    rw [exists_read_iff hs, and_iff_left hmarks]
    exact henclosing.exists_reads_iff helement hopen
  · intro template hread
    obtain ⟨attributes, children, hreached, hnames, halone, hencloses⟩ :=
      exists_element hs hsource hdocument hsplit hread
    refine ⟨attributes, children, hreached, hnames, halone, hencloses, fun notes converted h => ?_⟩
    obtain ⟨kept, inner, -, -, rfl⟩ := Statement.exists_of_convert_element h
    refine ⟨kept, inner, _, rfl, fun h => ?_, isClosed_of_not_standsAlone⟩
    rw [isClosed_of_standsAlone h, String.toList_ofList]

/-! ### A component with content -/

def cardTag : SourceTag where
  name := "Card".toList
  attributes := []
  blanks := []
  selfClosing := false

def boldTag : SourceTag where
  name := ['b']
  attributes := []
  blanks := []
  selfClosing := false

def cardRest : List Segment :=
  [.opening boldTag, .text ['x'], .closing ['b'] [], .closing cardTag.name []]

def boldTokens : List Token :=
  [.startTag (boldTag.token '\ue000' 0) 1, .text ['x'], .endTag "b" 1]

theorem isDocument_card : IsDocument none (.opening cardTag :: cardRest) where
  written := by decide +kernel
  apart := by decide +kernel
  fits := by
    have hcard : cardTag.rawElement? = none := by decide +kernel
    have hbold : boldTag.rawElement? = none := by decide +kernel
    refine ⟨rfl, hcard, trivial, fun element helement => ?_, nofun, trivial⟩
    exact nomatch hbold.symm.trans helement

theorem reads_boldTokens (hmarker : lifted.marker = '\ue000') :
    ∃ children, lifted.Reads boldTokens children := by
  have hinner := (reads_plain hmarker
    (show Piece.split '\ue000' ['x'] = [.text ['x']] by decide +kernel)).2 rfl
  have helement : IsElement (boldTag.token '\ue000' 0) := ⟨by decide, by decide⟩
  exact ⟨_, .element helement (by decide +kernel) .nil hinner .nil⟩

/-- A card is read with a bold text in it. -/
theorem card_holds_bold :
    ∃ template attributes children,
      read ((Segment.opening cardTag :: cardRest).flatMap Segment.source) = .ok template ∧
      (Statement.element "Card" attributes children false).ReachedBy Statement.content template ∧
      cardTag.Encloses cardRest children := by
  have hcheck : (Lifted.ofSource
      ((Segment.opening cardTag :: cardRest).flatMap Segment.source)).toOption.any (fun found =>
        found.1.marker == '\ue000' && found.1.placeholders.isEmpty &&
          Markup.tokens found.1.markup ==
            .startTag (cardTag.token '\ue000' 0) 1 :: (boldTokens ++ [.endTag "card" 1])) =
      true := by decide +kernel
  obtain ⟨⟨lifted, next⟩, hs, hfound⟩ := exists_ok_of_check hcheck
  simp only [Bool.and_eq_true, beq_iff_eq, List.isEmpty_iff] at hfound
  obtain ⟨⟨hmarker, hplaceholders⟩, htokens⟩ := hfound
  have hmarks : (lifted.marks (Markup.tokens lifted.markup)).Perm
      (List.range lifted.placeholders.length) := by
    rw [Lifted.marks, htokens, hmarker, hplaceholders]
    decide +kernel
  have henclosing : lifted.IsEnclosing (cardTag.token lifted.marker 0) := by
    rw [hmarker]
    exact ⟨[], 1, boldTokens, 1, [], htokens, ⟨[], .nil⟩, reads_boldTokens hmarker, [], .nil⟩
  have hsplit : Segment.opening cardTag :: cardRest = [] ++ .opening cardTag :: cardRest := rfl
  obtain ⟨hiff, hholds⟩ := element_of_openingTag hs (by decide +kernel) isDocument_card hsplit
  obtain ⟨template, hread⟩ := (hiff rfl ⟨0, henclosing⟩ hmarks).2 (by decide +kernel)
  obtain ⟨attributes, children, hreached, -, -, hencloses, -⟩ := hholds template hread
  exact ⟨template, attributes, children, hread, hreached, hencloses (by decide +kernel)⟩

/-! ### A component called as a void element -/

/-- Without its end tag and its content, it is read: its small name is that of a void element. -/
theorem link_takes_no_content :
    (¬∃ template, read "<Link>x</Link>".toList = .ok template) ∧
      ∃ template, read "<Link>".toList = .ok template := by
  constructor
  · rintro ⟨template, hread⟩
    have hrefused : (read "<Link>x</Link>".toList).toOption.isNone = true := by decide +kernel
    rw [hread] at hrefused
    cases hrefused
  · have hcheck : (read "<Link>".toList).toOption.any (fun _ => true) = true := by decide +kernel
    obtain ⟨template, hread, -⟩ := exists_ok_of_check hcheck
    exact ⟨template, hread⟩

end Template

end MustacheJsx
