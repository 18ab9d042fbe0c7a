import MustacheJsx.Lifted.OfSource
import MustacheJsx.Proofs.Printing.Pieces
import MustacheJsx.Proofs.Printing.Template

/-!
# Lifting the tags out of a printed template

Item by item, the tags of a printed template are lifted out: what is written for an item is its
markup, in which holes stand for the tags, and the tags are stored in the order in which they were
printed. The state in between is `Lifting.Holds`; the main statement is `Lifted.ofSource_printed`.
-/

namespace MustacheJsx

open Statement (itemsOfAll itemsOfBody)

/-! ### Slots -/

/-- A tag that is lifted out, and whether it is an attribute value without quotes. -/
abbrev Slot := Placeholder × Bool

/-- A tag that was lifted out, without numbers. -/
def Placeholder.unnumbered : Placeholder → Placeholder
  | .expression m => .expression m.unnumbered
  | .partialCall call => .partialCall call.unnumbered
  | .comment value => .comment value
  | .block head => .block head.unnumbered
  | .elseIf head => .elseIf head.unnumbered

def unnumberedSlots (slots : List Slot) : List Slot :=
  slots.map fun slot => (slot.1.unnumbered, slot.2)

theorem length_of_unnumberedSlots {xs ys : List Slot}
    (h : unnumberedSlots xs = unnumberedSlots ys) : xs.length = ys.length := by
  have hlength := congrArg List.length h
  simpa [unnumberedSlots] using hlength

def Tag.slots : Tag → List Slot
  | .expression m => [(.expression m, false)]
  | .comment value => [(.comment value, false)]
  | .partialCall call => [(.partialCall call, false)]
  | .openBlock head => [(.block head, false)]
  | .elseBranch none => []
  | .elseBranch (some head) => [(.elseIf head, false)]
  | .closeBlock _ => []

def Statement.slotsInValue : Statement → List Slot
  | .mustache m => [(.expression m, false)]
  | _ => []

def AttributeValue.slots : AttributeValue → List Slot
  | .text _ => []
  | .mustache m => [(.expression m, true)]
  | .concat parts => parts.flatMap Statement.slotsInValue

def Item.slots : Item → List Slot
  | .text _ => []
  | .tag t => t.slots
  | .comment _ => []
  | .startTag _ attributes _ => attributes.flatMap fun entry => entry.value.slots
  | .endTag _ => []

/-! ### Markup -/

/-- The pieces of the parts of a quoted value, whose first tag has the index `first`. -/
def piecesOfParts (first : Nat) : List Statement → List Piece
  | [] => []
  | .text chars :: parts => .text chars.toList :: piecesOfParts first parts
  | .mustache _ :: parts => .hole (some first) :: piecesOfParts (first + 1) parts
  | _ :: parts => piecesOfParts first parts

def AttributeValue.pieces (first : Nat) : AttributeValue → List Piece
  | .text chars => if chars.toList.isEmpty then [] else [.text chars.toList]
  | .mustache _ => [.hole (some first)]
  | .concat parts => piecesOfParts first parts

def AttributeValue.markup (marker : Char) (first : Nat) (value : AttributeValue) : List Char :=
  (value.pieces first).flatMap (Piece.rendered marker)

/-- Attributes as markup holds them; all values are quoted. -/
def attributesMarkup (marker : Char) (first : Nat) : List Attribute → List Char
  | [] => []
  | entry :: attributes =>
    ' ' :: (entry.name.toList ++ '=' :: '"' :: (entry.value.markup marker first ++
      '"' :: attributesMarkup marker (first + entry.value.slots.length) attributes))

/-- What markup holds in place of a tag with the index `first`. -/
def Tag.markup (marker : Char) (first : Nat) : Tag → List Char
  | .expression _ => placeholderText marker first
  | .partialCall _ => placeholderText marker first
  | .comment _ => "<!--".toList ++ placeholderText marker first ++ "-->".toList
  | .openBlock _ => Lifting.numberedTag blockTag first
  | .elseBranch none => '<' :: elseTag.toList ++ ['>']
  | .elseBranch (some _) => Lifting.numberedTag elseTag first
  | .closeBlock _ => '<' :: '/' :: blockTag.toList ++ ['>']

def Item.markup (marker : Char) (first : Nat) : Item → List Char
  | .text chars => chars.toList
  | .tag t => t.markup marker first
  | .comment value => '<' :: '!' :: '-' :: '-' :: (value.toList ++ ['-', '-', '>'])
  | .startTag name attributes selfClosing =>
    '<' :: (name.toList ++ (attributesMarkup marker first attributes ++ tagEnd selfClosing))
  | .endTag name => '<' :: '/' :: (name.toList ++ ['>'])

def itemsMarkup (marker : Char) (first : Nat) : List Item → List Char
  | [] => []
  | item :: items =>
    item.markup marker first ++ itemsMarkup marker (first + item.slots.length) items

/-! ### Nesting of blocks -/

/-- The open blocks after an item, the innermost first; `none` if it does not fit into them. -/
def Item.blocksAfter (blocks : List String) : Item → Option (List String)
  | .tag (.openBlock head) => some (head.name :: blocks)
  | .tag (.elseBranch none) => if blocks.isEmpty then none else some blocks
  | .tag (.closeBlock name) =>
    match blocks with
    | opened :: blocks => if opened = name then some blocks else none
    | [] => none
  | _ => some blocks

def blocksAfterAll (blocks : List String) (items : List Item) : Option (List String) :=
  items.foldlM Item.blocksAfter blocks

theorem blocksAfterAll_append {blocks middle : List String} {xs : List Item}
    (h : blocksAfterAll blocks xs = some middle) (ys : List Item) :
    blocksAfterAll blocks (xs ++ ys) = blocksAfterAll middle ys := by
  rw [blocksAfterAll] at h
  rw [blocksAfterAll, List.foldlM_append, h]
  rfl

mutual

theorem blocksAfterAll_items (statement : Statement) (blocks : List String) :
    blocksAfterAll blocks statement.items = some blocks := by
  match statement with
  | .element tag attributes children selfClosing =>
    rw [Statement.items]
    cases selfClosing with
    | true => rfl
    | false =>
      have hchildren := blocksAfterAll_itemsOfAll children blocks
      show blocksAfterAll blocks (itemsOfAll children ++ [.endTag tag]) = some blocks
      rw [blocksAfterAll_append hchildren]
      rfl
  | .text chars => rfl
  | .mustache m => rfl
  | .block head program inverse =>
    have hprogram := blocksAfterAll_itemsOfBody program (head.name :: blocks)
    have hclose : blocksAfterAll (head.name :: blocks) [.tag (.closeBlock head.name)] =
        some blocks := by
      simp [blocksAfterAll, Item.blocksAfter]
    match inverse with
    | none =>
      show blocksAfterAll (head.name :: blocks)
        (itemsOfBody program ++ [.tag (.closeBlock head.name)]) = some blocks
      rw [blocksAfterAll_append hprogram, hclose]
    | some body =>
      have hbody := blocksAfterAll_itemsOfBody body (head.name :: blocks)
      show blocksAfterAll (head.name :: blocks) (itemsOfBody program ++
        (.tag (.elseBranch none) :: (itemsOfBody body ++ [.tag (.closeBlock head.name)]))) =
          some blocks
      rw [blocksAfterAll_append hprogram]
      show blocksAfterAll (head.name :: blocks)
        (itemsOfBody body ++ [.tag (.closeBlock head.name)]) = some blocks
      rw [blocksAfterAll_append hbody, hclose]
  | .partialCall call => rfl
  | .mustacheComment value => rfl
  | .markupComment value => rfl

theorem blocksAfterAll_itemsOfAll (statements : List Statement) (blocks : List String) :
    blocksAfterAll blocks (itemsOfAll statements) = some blocks := by
  match statements with
  | [] => rfl
  | statement :: statements =>
    have hfirst := blocksAfterAll_items statement blocks
    have hrest := blocksAfterAll_itemsOfAll statements blocks
    rw [itemsOfAll, blocksAfterAll_append hfirst, hrest]

theorem blocksAfterAll_itemsOfBody (body : Body) (blocks : List String) :
    blocksAfterAll blocks (itemsOfBody body) = some blocks := by
  match body with
  | .mk id statements => exact blocksAfterAll_itemsOfAll statements blocks

end

/-! ### Reading a stretch of the source -/

namespace Lifting

/-- Reading `source` brings one state to the other, whatever stands before and after it. -/
def Lifts (marker : Char) (source : List Char) (st st' : Lifting) : Prop :=
  ∀ offset rest, ∃ offset',
    run marker offset 0 st (source ++ rest) = run marker offset' 0 st' rest

section

variable {marker : Char}

theorem lifts_nil (st : Lifting) : Lifts marker [] st st :=
  fun offset _ => ⟨offset, rfl⟩

theorem Lifts.append {xs ys : List Char} {st middle st' : Lifting} (hx : Lifts marker xs st middle)
    (hy : Lifts marker ys middle st') : Lifts marker (xs ++ ys) st st' := by
  intro offset rest
  obtain ⟨offset', hx⟩ := hx offset (ys ++ rest)
  obtain ⟨offset'', hy⟩ := hy offset' rest
  exact ⟨offset'', by rw [List.append_assoc, hx, hy]⟩

theorem Lifts.cons {c : Char} {cs : List Char} {st middle st' : Lifting}
    (hc : Lifts marker [c] st middle) (hcs : Lifts marker cs middle st') :
    Lifts marker (c :: cs) st st' :=
  hc.append hcs

theorem run_skip (cs rest : List Char) (offset : Nat) (st : Lifting) :
    run marker offset cs.length st (cs ++ rest) =
      run marker (offset + Text.utf8Length cs) 0 st rest := by
  induction cs generalizing offset with
  | nil => rfl
  | cons c cs ih =>
    rw [List.length_cons, List.cons_append, run, ih, Text.utf8Length, Nat.add_assoc]

theorem lifts_of_step {c : Char} {cs : List Char} {st st' : Lifting}
    (h : ∀ offset rest, step marker st c (cs ++ rest) offset = .ok (st', cs.length + 1)) :
    Lifts marker (c :: cs) st st' := by
  intro offset rest
  refine ⟨offset + c.utf8Size + Text.utf8Length cs, ?_⟩
  rw [List.cons_append, run, h offset rest]
  exact run_skip cs rest (offset + c.utf8Size) st'

/-- A character that begins no tag is read by itself. -/
theorem step_plain {c : Char} (hbackslash : c ≠ '\\') (hbrace : c ≠ '{') (st : Lifting)
    (cs : List Char) (offset : Nat) :
    step marker st c cs offset =
      match st.tag with
      | none => .ok (st.stepText c cs)
      | some open_ => .ok (st.stepTag open_ c cs) := by
  rw [step.eq_def]
  split
  · exact absurd rfl hbackslash
  · exact absurd rfl hbrace
  · rfl

/-! ### Text -/

theorem stepText_plain {c : Char} (h : c ≠ '<') (st : Lifting) (cs : List Char) :
    st.stepText c cs = (st.write [c], 1) := by
  have hlead : Text.afterLead? "<!--".toList (c :: cs) = none := by
    have hne : '<' ≠ c := Ne.symm h
    have hchars : "<!--".toList = ['<', '!', '-', '-'] := by decide
    rw [hchars]
    simp [Text.afterLead?, hne]
  rw [stepText.eq_def, hlead]
  split
  · next heq => cases heq
  · exact absurd rfl h
  · rfl

theorem write_write (st : Lifting) (xs ys : List Char) :
    (st.write xs).write ys = st.write (xs ++ ys) := by
  simp [write]

theorem lifts_text {kept : Char → Bool} {chars : List Char}
    (h : ∀ c ∈ chars, isTextChar kept c = true) (st : Lifting) (htag : st.tag = none) :
    Lifts marker chars st (st.write chars) := by
  induction chars generalizing st with
  | nil => exact lifts_nil st
  | cons c chars ih =>
    have hc := h c List.mem_cons_self
    simp only [isTextChar, Bool.and_eq_true, bne_iff_ne] at hc
    have hstep : Lifts marker [c] st (st.write [c]) := by
      refine lifts_of_step fun offset rest => ?_
      rw [step_plain hc.2 hc.1.2, htag]
      exact congrArg Except.ok (stepText_plain hc.1.1.1.2 st _)
    have hrest := ih (fun d hd => h d (List.mem_cons_of_mem _ hd)) (st.write [c]) htag
    rw [write_write] at hrest
    exact hstep.cons hrest

theorem cutAt?_comment {value : List Char} (h : Undashed value) (rest : List Char) :
    Text.cutAt? ['-', '-', '>'] (value ++ '-' :: '-' :: '>' :: rest) = some (value, rest) := by
  induction value with
  | nil => simp [Text.cutAt?, Text.afterLead?]
  | cons c value ih =>
    rw [List.cons_append, Text.cutAt?, afterLead?_dashes h, ih h.tail]
    rfl

/-- The two dashes at the beginning of a comment are not those at its end. -/
theorem cutAt?_markupComment {value : List Char} (hundashed : Undashed value)
    (hgreater : value.head? ≠ some '>') (hdash : value.head? ≠ some '-') (rest : List Char) :
    Text.cutAt? ['-', '-', '>']
      ('<' :: '!' :: '-' :: '-' :: (value ++ '-' :: '-' :: '>' :: rest)) =
      some ('<' :: '!' :: '-' :: '-' :: value, rest) := by
  have hcut := cutAt?_comment hundashed rest
  cases value with
  | nil =>
    rw [List.nil_append] at hcut
    simp [Text.cutAt?, Text.afterLead?]
  | cons d ds =>
    have hgreater : '>' ≠ d := fun heq => hgreater (by rw [heq]; rfl)
    have hdash : '-' ≠ d := fun heq => hdash (by rw [heq]; rfl)
    have hfirst : Text.afterLead? ['-', '-', '>']
        ('-' :: '-' :: (d :: ds ++ '-' :: '-' :: '>' :: rest)) = none := by
      simp [Text.afterLead?, hgreater]
    have hsecond : Text.afterLead? ['-', '-', '>']
        ('-' :: (d :: ds ++ '-' :: '-' :: '>' :: rest)) = none := by
      simp [Text.afterLead?, hdash]
    rw [Text.cutAt?, Text.cutAt?, Text.cutAt?, hfirst, Text.cutAt?, hsecond, hcut]
    simp [Text.afterLead?]

theorem lifts_comment {value : String} (h : isPlainComment value = true) {st : Lifting}
    (htag : st.tag = none) :
    Lifts marker (Item.comment value).printed st
      (st.write (Item.comment value).printed) := by
  refine lifts_of_step fun offset rest => ?_
  have hopen : "<!--".toList = ['<', '!', '-', '-'] := by decide
  have hclose : "-->".toList = ['-', '-', '>'] := by decide
  have hsource : '!' :: '-' :: '-' :: (value.toList ++ ['-', '-', '>']) ++ rest =
      '!' :: '-' :: '-' :: (value.toList ++ '-' :: '-' :: '>' :: rest) := by
    simp
  have hlead : Text.afterLead? ['<', '!', '-', '-']
      ('<' :: '!' :: '-' :: '-' :: (value.toList ++ '-' :: '-' :: '>' :: rest)) =
      some (value.toList ++ '-' :: '-' :: '>' :: rest) :=
    Text.afterLead?_eq_some_iff.2 rfl
  rw [step_plain (by decide) (by decide), htag, hsource]
  dsimp only
  have hundashed := undashed_of_isPlainComment h
  simp only [isPlainComment, Bool.and_eq_true, bne_iff_ne] at h
  rw [stepText.eq_def, hopen, hlead]
  dsimp only
  rw [hclose, cutAt?_markupComment hundashed h.1.1.2 h.1.2]
  simp [Item.printed]

/-! ### Tags -/

/-- Writes a tag where the reader is: in text, or inside an opening tag. -/
def writeTag (marker : Char) (st : Lifting) (tag : Tag) : Except SyntaxFault Lifting :=
  match st.tag with
  | none => st.writeInText marker tag
  | some open_ => st.writeInTag marker open_ tag

theorem exists_printed_eq_braces (tag : Tag) : ∃ cs, tag.printed = '{' :: '{' :: cs := by
  rw [Tag.printed, Tag.braces]
  cases tag.isTrusting with
  | true => exact ⟨_, rfl⟩
  | false => exact ⟨_, rfl⟩

/-- A printed tag is read as a whole, and written as the tag that is found there. -/
theorem lifts_tag {tag found : Tag} (h : tag.isPlain = true) {st st' : Lifting} {last : Nat}
    (hread : ∀ offset, Tag.read tag.content tag.isTrusting offset st.next = (.ok found, last))
    (hwrite : writeTag marker { st with next := last } found = .ok st') :
    Lifts marker tag.printed st st' := by
  obtain ⟨cs, hprinted⟩ := exists_printed_eq_braces tag
  have hstep : ∀ offset rest, stepMustache marker st (tag.printed ++ rest) offset =
      .ok (st', tag.printed.length) := by
    intro offset rest
    have hlength : (tag.printed ++ rest).length - rest.length = tag.printed.length := by
      rw [List.length_append]
      omega
    have ok_bind : ∀ {α β : Type} (a : α) (f : α → Except CompileError β),
        ((Except.ok a : Except CompileError α) >>= f) = f a := fun _ _ => rfl
    rw [writeTag] at hwrite
    rw [stepMustache, Span.read_printed h rest, Except.mapError, ok_bind]
    dsimp only
    rw [hread]
    dsimp only
    rw [ok_bind]
    cases htag : st.tag with
    | none =>
      simp only [htag] at hwrite
      simp only [Bool.false_eq_true, if_false, hwrite, Except.mapError, ok_bind, Bool.false_and,
        hlength]
      rfl
    | some open_ =>
      simp only [htag] at hwrite
      simp only [hwrite, Except.mapError, ok_bind, Bool.false_and, Bool.false_eq_true, if_false,
        hlength]
      rfl
  rw [hprinted]
  refine lifts_of_step fun offset rest => ?_
  have hst := hstep offset rest
  rw [hprinted] at hst
  exact hst

/-! ### What the state holds -/

/-- The state after some of the source: the slots so far, the markup so far, the open blocks, and
the opening tag, if the reader is inside one. -/
structure Holds (st : Lifting) (slots : List Slot) (markup : List Char) (blocks : List String)
    (tag : Option OpenTag) : Prop where
  markup : st.markup = markup.reverse
  placeholders : st.placeholders = (slots.map Prod.fst).reverse
  unquoted : ∀ index, index ∈ st.unquoted ↔ slots[index]?.map Prod.snd = some true
  blocks : st.blocks = blocks
  tag : st.tag = tag

variable (marker) {st : Lifting} {slots : List Slot} {markup : List Char} {blocks : List String}
  {tag : Option OpenTag}

theorem Holds.write (h : Holds st slots markup blocks tag) (cs : List Char) :
    Holds (st.write cs) slots (markup ++ cs) blocks tag where
  markup := by simp [Lifting.write, h.markup]
  placeholders := h.placeholders
  unquoted := h.unquoted
  blocks := h.blocks
  tag := h.tag

theorem Holds.length_placeholders (h : Holds st slots markup blocks tag) :
    st.placeholders.length = slots.length := by
  simp [h.placeholders]

theorem Holds.store (h : Holds st slots markup blocks tag) (placeholder : Placeholder) :
    st.store placeholder =
        ({ st with placeholders := placeholder :: st.placeholders }, slots.length) ∧
      Holds { st with placeholders := placeholder :: st.placeholders }
        (slots ++ [(placeholder, false)]) markup blocks tag := by
  refine ⟨by rw [Lifting.store, h.length_placeholders], h.markup, ?_, ?_, h.blocks, h.tag⟩
  · simp [h.placeholders]
  · intro index
    rw [h.unquoted index]
    by_cases hi : index < slots.length
    · rw [List.getElem?_append_left hi]
    · have hle : slots.length ≤ index := Nat.le_of_not_lt hi
      rw [List.getElem?_append_right hle, List.getElem?_eq_none hle]
      cases index - slots.length with
      | zero => simp
      | succ n => simp

theorem Holds.writeHole (h : Holds st slots markup blocks tag) (placeholder : Placeholder) :
    Holds (st.writeHole marker placeholder) (slots ++ [(placeholder, false)])
      (markup ++ placeholderText marker slots.length) blocks tag := by
  obtain ⟨hstore, hafter⟩ := h.store placeholder
  rw [Lifting.writeHole, hstore]
  exact hafter.write _

theorem Holds.setBlocks (h : Holds st slots markup blocks tag) (opened : List String) :
    Holds { st with blocks := opened } slots markup opened tag where
  markup := h.markup
  placeholders := h.placeholders
  unquoted := h.unquoted
  blocks := rfl
  tag := h.tag

theorem Holds.setNext (h : Holds st slots markup blocks tag) (next : Nat) :
    Holds { st with next } slots markup blocks tag where
  markup := h.markup
  placeholders := h.placeholders
  unquoted := h.unquoted
  blocks := h.blocks
  tag := h.tag

theorem Holds.setTag (h : Holds st slots markup blocks tag) (opened : Option OpenTag) :
    Holds { st with tag := opened } slots markup blocks opened where
  markup := h.markup
  placeholders := h.placeholders
  unquoted := h.unquoted
  blocks := h.blocks
  tag := rfl

/-- A tag in text leaves its markup and takes its slot. -/
theorem Holds.writeInText (h : Holds st slots markup blocks tag) {written found : Tag}
    (hfound : found.unnumbered = written.unnumbered) (hplain : written.isPlain = true)
    {blocks' : List String} (hblocks : Item.blocksAfter blocks (.tag written) = some blocks') :
    ∃ st', st.writeInText marker found = .ok st' ∧
      Holds st' (slots ++ found.slots) (markup ++ written.markup marker slots.length) blocks'
        tag := by
  cases written with
  | expression m =>
    cases found with
    | expression m' =>
      cases hblocks
      exact ⟨_, rfl, h.writeHole marker _⟩
    | _ => cases hfound
  | comment value =>
    cases found with
    | comment value' =>
      cases hblocks
      obtain ⟨hstore, hafter⟩ := h.store (.comment value')
      refine ⟨_, by rw [Lifting.writeInText, hstore], ?_⟩
      exact hafter.write _
    | _ => cases hfound
  | partialCall call =>
    cases found with
    | partialCall call' =>
      cases hblocks
      exact ⟨_, rfl, h.writeHole marker _⟩
    | _ => cases hfound
  | openBlock head =>
    cases found with
    | openBlock head' =>
      cases hblocks
      simp only [Tag.unnumbered, BlockHead.unnumbered, Tag.openBlock.injEq, BlockHead.mk.injEq,
        Path.mk.injEq] at hfound
      have hname : head'.name = head.name := hfound.1.2.1
      obtain ⟨hstore, hafter⟩ := h.store (.block head')
      refine ⟨_, by rw [Lifting.writeInText, hstore], ?_⟩
      rw [hname, h.blocks]
      exact (hafter.write _).setBlocks (head.name :: blocks)
    | _ => cases hfound
  | elseBranch chain =>
    cases chain with
    | some head => cases hplain
    | none =>
      cases found with
      | elseBranch chain' =>
        cases chain' with
        | some head => cases hfound
        | none =>
          rw [Item.blocksAfter] at hblocks
          cases hempty : blocks.isEmpty with
          | true =>
            rw [hempty] at hblocks
            cases hblocks
          | false =>
            rw [hempty] at hblocks
            cases hblocks
            refine ⟨_, by rw [Lifting.writeInText, h.blocks, hempty]; rfl, ?_⟩
            rw [Tag.slots, List.append_nil]
            exact h.write _
      | _ => cases hfound
  | closeBlock name =>
    cases found with
    | closeBlock name' =>
      cases hfound
      rw [Item.blocksAfter.eq_def] at hblocks
      dsimp only at hblocks
      split at hblocks
      · next opened outer =>
        split at hblocks
        · next hopened =>
          cases hblocks
          have hwrite : st.writeInText marker (.closeBlock name) =
              .ok { st.write ('<' :: '/' :: blockTag.toList ++ ['>']) with blocks := blocks' } := by
            rw [Lifting.writeInText.eq_def]
            dsimp only
            rw [h.blocks]
            exact if_pos hopened
          rw [Tag.slots, List.append_nil]
          exact ⟨_, hwrite, (h.write _).setBlocks blocks'⟩
        · cases hblocks
      · cases hblocks
    | _ => cases hfound

theorem unnumberedSlots_slots (t : Tag) : unnumberedSlots t.slots = t.unnumbered.slots := by
  cases t with
  | elseBranch chain => cases chain <;> rfl
  | _ => rfl

/-- A printed tag in text is read, up to numbers, and leaves its markup. -/
theorem Holds.exists_lifts_tag (h : Holds st slots markup blocks none) {written : Tag}
    (hplain : written.isPlain = true) {blocks' : List String}
    (hblocks : Item.blocksAfter blocks (.tag written) = some blocks') :
    ∃ st' added, Lifts marker written.printed st st' ∧
      unnumberedSlots added = unnumberedSlots written.slots ∧
      Holds st' (slots ++ added) (markup ++ written.markup marker slots.length) blocks' none := by
  obtain ⟨found, last, hread, hfound⟩ := Tag.read_content hplain st.next
  obtain ⟨st', hwrite, hholds⟩ := (h.setNext last).writeInText marker hfound hplain hblocks
  refine ⟨st', found.slots, lifts_tag hplain hread ?_, ?_, hholds⟩
  · unfold writeTag
    split
    · exact hwrite
    · next heq =>
      rw [show st.tag = none from h.tag] at heq
      cases heq
  · rw [unnumberedSlots_slots, unnumberedSlots_slots, hfound]

/-! ### Opening tags -/

def opened (name : List Char) (position : ValuePosition) (key : List Char) : OpenTag :=
  { name, position, key, cased := [] }

/-- A small letter is a letter and no capital, and it ends no name. -/
structure IsSmall (c : Char) : Prop where
  letter : Text.isAsciiLetter c = true
  upper : Text.isAsciiUpper c = false
  name : isNameChar c = true

theorem isSmall_of_isAsciiLower {c : Char} (h : Text.isAsciiLower c = true) : IsSmall c := by
  have hletter : Text.isAsciiLetter c = true := by
    simp only [Text.isAsciiLower] at h
    simp [Text.isAsciiLetter, h]
  refine ⟨hletter, ?_, by simp [isNameChar, Text.isAsciiAlphanumeric, hletter]⟩
  simp only [Text.isAsciiLower, Bool.and_eq_true, decide_eq_true_eq, Char.le_def,
    UInt32.le_iff_toNat_le] at h
  simp only [Text.isAsciiUpper, Bool.and_eq_false_iff, decide_eq_false_iff_not, Char.le_def,
    UInt32.le_iff_toNat_le]
  have hlow : 97 ≤ c.val.toNat := h.1
  right
  intro hup
  have hhigh : c.val.toNat ≤ 90 := hup
  omega

theorem small_chars {name : String} (h : isSmallName name = true) :
    name.toList ≠ [] ∧ ∀ c ∈ name.toList, IsSmall c := by
  simp only [isSmallName, Bool.and_eq_true, Bool.not_eq_true', List.isEmpty_eq_false_iff,
    List.all_eq_true] at h
  exact ⟨h.1, fun c hc => isSmall_of_isAsciiLower (h.2 c hc)⟩

theorem any_isAsciiUpper_eq_false {cs : List Char} (h : ∀ c ∈ cs, IsSmall c) :
    cs.any Text.isAsciiUpper = false := by
  simp only [List.any_eq_false, Bool.not_eq_true]
  exact fun c hc => (h c hc).upper

/-- The name of a small tag is taken as a whole, and no spelling is recorded. -/
theorem openTag_small {name : List Char} (h : ∀ c ∈ name, IsSmall c) (tail : List Char)
    (htail : ∀ c ∈ tail.head?, endsTagName c = true) (st : Lifting) :
    st.openTag (name ++ tail) =
      ({ st.write ('<' :: name) with tag := some (opened name .none []) }, name.length + 1) := by
  have hname : ∀ c ∈ name, (!endsTagName c) = true := by
    intro c hc
    have hchar := (h c hc).name
    have hrange := toNat_of_isNameChar hchar
    have hblank : Text.isBlank c = false := isBlank_eq_false (by omega)
    have hslash : c ≠ '/' := ne_of_isNameChar hchar (by decide)
    have hgreater : c ≠ '>' := ne_of_isNameChar hchar (by decide)
    have hbrace : c ≠ '{' := ne_of_isNameChar hchar (by decide)
    simp [endsTagName, hblank, hslash, hgreater, hbrace]
  have htake : (name ++ tail).takeWhile (fun c => !endsTagName c) = name := by
    rw [List.takeWhile_append_of_pos hname]
    cases tail with
    | nil => simp
    | cons c cs =>
      have hc := htail c rfl
      simp [hc]
  rw [openTag, htake]
  dsimp only
  rw [any_isAsciiUpper_eq_false h]
  simp [opened]

theorem lifts_openTag {name : List Char} (hne : name ≠ []) (h : ∀ c ∈ name, IsSmall c)
    {tail : List Char} {c : Char} (htail : tail.head? = some c) (hc : endsTagName c = true)
    {st st' : Lifting} (htag : st.tag = none)
    (hrest : Lifts marker tail
      { st.write ('<' :: name) with tag := some (opened name .none []) } st') :
    Lifts marker ('<' :: (name ++ tail)) st st' := by
  cases name with
  | nil => exact absurd rfl hne
  | cons d ds =>
    intro offset rest
    have hlead : Text.afterLead? "<!--".toList ('<' :: (d :: ds ++ (tail ++ rest))) = none := by
      have hchars : "<!--".toList = ['<', '!', '-', '-'] := by decide
      have hd : '!' ≠ d := Ne.symm (ne_of_isNameChar (h d List.mem_cons_self).name (by decide))
      rw [hchars]
      simp [Text.afterLead?, hd]
    have hopen := openTag_small h (tail ++ rest) (by
      intro e he
      rw [List.head?_append, htail, Option.some_or, Option.mem_some_iff] at he
      rw [← he]
      exact hc) st
    have hstep : step marker st '<' (d :: ds ++ (tail ++ rest)) offset =
        .ok ({ st.write ('<' :: d :: ds) with tag := some (opened (d :: ds) .none []) },
          (d :: ds).length + 1) := by
      rw [step_plain (by decide) (by decide), htag]
      dsimp only
      rw [stepText.eq_def, hlead]
      split
      · next heq => cases heq
      · next heq =>
        cases heq
        rw [if_pos (h _ List.mem_cons_self).letter]
        exact congrArg Except.ok hopen
      · next hnot => exact (hnot d _ rfl rfl).elim
    have hskip := @run_skip marker (d :: ds) (tail ++ rest) (offset + '<'.utf8Size)
      { st.write ('<' :: d :: ds) with tag := some (opened (d :: ds) .none []) }
    obtain ⟨offset', hrest⟩ := hrest _ rest
    refine ⟨offset', ?_⟩
    rw [List.cons_append, List.append_assoc, run, hstep]
    dsimp only
    rw [Nat.add_sub_cancel, hskip, hrest]

/-! ### Inside an opening tag -/

variable {name : List Char}

/-- A character outside quotes that does not end the tag. -/
theorem Holds.lifts_outside {position : ValuePosition} {key : List Char}
    (h : Holds st slots markup blocks (some (opened name position key)))
    (hposition : ∀ quote, position ≠ .quoted quote) {c : Char} (hbackslash : c ≠ '\\')
    (hbrace : c ≠ '{') (hslash : c ≠ '/') (hgreater : c ≠ '>') :
    ∃ st', Lifts marker [c] st st' ∧
      Holds st' slots (markup ++ [c]) blocks (some ((opened name position key).after c)) := by
  refine ⟨{ st.write [c] with tag := some ((opened name position key).after c) }, ?_,
    (h.write [c]).setTag _⟩
  refine lifts_of_step fun offset rest => ?_
  rw [step_plain hbackslash hbrace, h.tag]
  dsimp only
  rw [stepTag.eq_def]
  split
  · next quote heq => exact absurd heq (hposition quote)
  · split
    · exact absurd rfl hslash
    · exact absurd rfl hgreater
    · rfl

theorem Holds.lifts_quoted (h : Holds st slots markup blocks (some (opened name (.quoted '"') [])))
    {kept : Char → Bool} {chars : List Char} (hchars : ∀ c ∈ chars, isQuotedChar kept c = true) :
    ∃ st', Lifts marker chars st st' ∧
      Holds st' slots (markup ++ chars) blocks (some (opened name (.quoted '"') [])) := by
  induction chars generalizing st markup with
  | nil => exact ⟨st, lifts_nil st, by rwa [List.append_nil]⟩
  | cons c chars ih =>
    have hc := hchars c List.mem_cons_self
    simp only [isQuotedChar, isTextChar, Bool.and_eq_true, bne_iff_ne] at hc
    have hstep : Lifts marker [c] st
        { st.write [c] with tag := some (opened name (.quoted '"') []) } := by
      refine lifts_of_step fun offset rest => ?_
      rw [step_plain hc.1.2 hc.1.1.2, h.tag]
      simp [stepTag, opened, hc.2]
    have hholds := (h.write [c]).setTag (some (opened name (.quoted '"') []))
    obtain ⟨st', hlifts, hst'⟩ := ih hholds fun d hd => hchars d (List.mem_cons_of_mem _ hd)
    refine ⟨st', hstep.cons hlifts, ?_⟩
    rwa [List.append_assoc] at hst'

theorem Holds.lifts_endQuote
    (h : Holds st slots markup blocks (some (opened name (.quoted '"') []))) :
    ∃ st', Lifts marker ['"'] st st' ∧
      Holds st' slots (markup ++ ['"']) blocks (some (opened name .none [])) := by
  refine ⟨{ st.write ['"'] with tag := some (opened name .none []) }, ?_, (h.write _).setTag _⟩
  refine lifts_of_step fun offset rest => ?_
  rw [step_plain (by decide) (by decide), h.tag]
  simp [stepTag, opened]

/-- The letters of the name of an attribute. -/
theorem Holds.lifts_name {key letters : List Char}
    (h : Holds st slots markup blocks (some (opened name .none key)))
    (hletters : ∀ c ∈ letters, IsSmall c) :
    ∃ st', Lifts marker letters st st' ∧
      Holds st' slots (markup ++ letters) blocks
        (some (opened name .none (letters.reverse ++ key))) := by
  induction letters generalizing st markup key with
  | nil => exact ⟨st, lifts_nil st, by rwa [List.append_nil]⟩
  | cons c letters ih =>
    have hc := (hletters c List.mem_cons_self).name
    have hrange := toNat_of_isNameChar hc
    have hblank : Text.isBlank c = false := isBlank_eq_false (by omega)
    have hequals : c ≠ '=' := ne_of_isNameChar hc (by decide)
    have hslash : c ≠ '/' := ne_of_isNameChar hc (by decide)
    have hafter : (opened name .none key).after c = opened name .none (c :: key) := by
      simp [OpenTag.after, opened, hblank, hequals, hslash]
    obtain ⟨middle, hfirst, hmiddle⟩ := h.lifts_outside marker
      nofun
      (ne_of_isNameChar hc (by decide)) (ne_of_isNameChar hc (by decide)) hslash
      (ne_of_isNameChar hc (by decide))
    rw [hafter] at hmiddle
    obtain ⟨st', hlifts, hst'⟩ := ih hmiddle fun d hd => hletters d (List.mem_cons_of_mem _ hd)
    refine ⟨st', hfirst.cons hlifts, ?_⟩
    rw [List.append_assoc] at hst'
    rw [List.reverse_cons, List.append_assoc]
    exact hst'

/-! ### Values of attributes -/

/-- A mustache where the reader is inside an opening tag. -/
theorem Holds.exists_read_mustache {open_ : OpenTag}
    (h : Holds st slots markup blocks (some open_)) {m : Mustache}
    (hplain : (Tag.expression m).isPlain = true) :
    ∃ m' last, m'.unnumbered = m.unnumbered ∧ ∀ st',
      ({ st with next := last } : Lifting).writeInTag marker open_ (.expression m') = .ok st' →
        Lifts marker (Tag.expression m).printed st st' := by
  obtain ⟨found, last, hread, hfound⟩ := Tag.read_content hplain st.next
  cases found with
  | expression m' =>
    simp only [Tag.unnumbered, Tag.expression.injEq] at hfound
    refine ⟨m', last, hfound, fun st' hwrite => lifts_tag hplain hread ?_⟩
    unfold writeTag
    split
    · next heq =>
      rw [show st.tag = some open_ from h.tag] at heq
      cases heq
    · next heq =>
      rw [show st.tag = some open_ from h.tag] at heq
      cases heq
      exact hwrite
  | _ => cases hfound

/-- A mustache in quotes leaves a hole. -/
theorem Holds.lifts_quoted_mustache
    (h : Holds st slots markup blocks (some (opened name (.quoted '"') []))) {m : Mustache}
    (hplain : (Tag.expression m).isPlain = true) :
    ∃ st' m', Lifts marker (Tag.expression m).printed st st' ∧ m'.unnumbered = m.unnumbered ∧
      Holds st' (slots ++ [(.expression m', false)])
        (markup ++ placeholderText marker slots.length) blocks
        (some (opened name (.quoted '"') [])) := by
  obtain ⟨m', last, hm, hlifts⟩ := h.exists_read_mustache marker hplain
  exact ⟨_, m', hlifts _ rfl, hm, (h.setNext last).writeHole marker _⟩

theorem Holds.storeUnquoted (h : Holds st slots markup blocks tag) (placeholder : Placeholder) :
    Holds { st with
        placeholders := placeholder :: st.placeholders
        unquoted := slots.length :: st.unquoted }
      (slots ++ [(placeholder, true)]) markup blocks tag where
  markup := h.markup
  placeholders := by simp [h.placeholders]
  unquoted := by
    intro index
    rw [List.mem_cons, h.unquoted index]
    by_cases hi : index < slots.length
    · have hne : index ≠ slots.length := by omega
      rw [List.getElem?_append_left hi]
      simp [hne]
    · have hle : slots.length ≤ index := Nat.le_of_not_lt hi
      rw [List.getElem?_append_right hle, List.getElem?_eq_none hle]
      cases hn : index - slots.length with
      | zero =>
        have heq : index = slots.length := by omega
        simp [heq]
      | succ n =>
        have hne : index ≠ slots.length := by omega
        simp [hne]
  blocks := h.blocks
  tag := h.tag

/-- A mustache without quotes gets them. -/
theorem Holds.lifts_unquoted_mustache
    (h : Holds st slots markup blocks (some (opened name .afterEquals []))) {m : Mustache}
    (hplain : (Tag.expression m).isPlain = true) :
    ∃ st' m', Lifts marker (Tag.expression m).printed st st' ∧ m'.unnumbered = m.unnumbered ∧
      Holds st' (slots ++ [(.expression m', true)])
        (markup ++ '"' :: (placeholderText marker slots.length ++ ['"'])) blocks
        (some (opened name .none [])) := by
  obtain ⟨m', last, hm, hlifts⟩ := h.exists_read_mustache marker hplain
  obtain ⟨hstore, -⟩ := (h.setNext last).store (.expression m')
  have hholds := (((h.setNext last).storeUnquoted (.expression m')).write
    ('"' :: (placeholderText marker slots.length ++ ['"']))).setTag (some (opened name .none []))
  refine ⟨_, m', hlifts _ ?_, hm, hholds⟩
  rw [Lifting.writeInTag]
  dsimp only [opened]
  rw [hstore]
  rfl

/-- The parts of a quoted value are read one by one. -/
theorem Holds.lifts_parts {kept : Char → Bool} {parts : List Statement}
    (hparts : ∀ part ∈ parts, part.isPlainInValue kept = true)
    (h : Holds st slots markup blocks (some (opened name (.quoted '"') []))) :
    ∃ st' added, Lifts marker (parts.flatMap Statement.printedInValue) st st' ∧
      unnumberedSlots added = unnumberedSlots (parts.flatMap Statement.slotsInValue) ∧
      Holds st' (slots ++ added)
        (markup ++ (piecesOfParts slots.length parts).flatMap (Piece.rendered marker)) blocks
        (some (opened name (.quoted '"') [])) := by
  induction parts generalizing st slots markup with
  | nil =>
    refine ⟨st, [], lifts_nil st, rfl, ?_⟩
    simpa only [List.append_nil, piecesOfParts, List.flatMap_nil] using h
  | cons part parts ih =>
    have hpart := hparts part List.mem_cons_self
    have hrest : ∀ part ∈ parts, part.isPlainInValue kept = true :=
      fun part hp => hparts part (List.mem_cons_of_mem _ hp)
    cases part with
    | text chars =>
      simp only [Statement.isPlainInValue, Bool.and_eq_true, List.all_eq_true] at hpart
      obtain ⟨middle, hfirst, hmiddle⟩ := h.lifts_quoted marker hpart.2
      obtain ⟨st', added, hlifts, hadded, hst'⟩ := ih hrest hmiddle
      refine ⟨st', added, ?_, hadded, ?_⟩
      · rw [List.flatMap_cons]
        exact hfirst.append hlifts
      · rw [piecesOfParts, List.flatMap_cons, ← List.append_assoc]
        exact hst'
    | mustache m =>
      obtain ⟨middle, m', hfirst, hm, hmiddle⟩ :=
        h.lifts_quoted_mustache marker (m := m) hpart
      obtain ⟨st', added, hlifts, hadded, hst'⟩ := ih hrest hmiddle
      refine ⟨st', (.expression m', false) :: added, ?_, ?_, ?_⟩
      · rw [List.flatMap_cons]
        exact hfirst.append hlifts
      · rw [List.flatMap_cons, Statement.slotsInValue, List.singleton_append]
        simp only [unnumberedSlots, List.map_cons, Placeholder.unnumbered] at hadded ⊢
        rw [hm, hadded]
      · rw [List.append_assoc, List.append_assoc, List.length_append] at hst'
        rw [piecesOfParts, List.flatMap_cons]
        exact hst'
    | _ => cases hpart

/-- A value after its equals sign. -/
theorem Holds.lifts_value {kept : Char → Bool} {value : AttributeValue}
    (hvalue : value.isPlain kept = true)
    (h : Holds st slots markup blocks (some (opened name .afterEquals []))) :
    ∃ st' added, Lifts marker value.printed st st' ∧
      unnumberedSlots added = unnumberedSlots value.slots ∧
      Holds st' (slots ++ added)
        (markup ++ '"' :: (value.markup marker slots.length ++ ['"'])) blocks
        (some (opened name .none [])) := by
  have hquote : (opened name .afterEquals []).after '"' = opened name (.quoted '"') [] := rfl
  obtain ⟨quoted, hopen, hquoted⟩ := h.lifts_outside marker (c := '"')
    nofun (by decide) (by decide) (by decide) (by decide)
  rw [hquote] at hquoted
  cases value with
  | text chars =>
    simp only [AttributeValue.isPlain, List.all_eq_true] at hvalue
    obtain ⟨middle, hchars, hmiddle⟩ := hquoted.lifts_quoted marker hvalue
    obtain ⟨st', hclose, hst'⟩ := hmiddle.lifts_endQuote marker
    have hmarkup : (AttributeValue.text chars).markup marker slots.length = chars.toList := by
      rw [AttributeValue.markup, AttributeValue.pieces]
      cases chars.toList with
      | nil => rfl
      | cons c cs => simp [Piece.rendered]
    refine ⟨st', [], hopen.cons (hchars.append hclose), rfl, ?_⟩
    rw [List.append_nil, hmarkup]
    simpa only [List.append_assoc, List.singleton_append, List.cons_append, List.nil_append]
      using hst'
  | mustache m =>
    obtain ⟨st', m', hlifts, hm, hst'⟩ :=
      h.lifts_unquoted_mustache marker (m := m) hvalue
    refine ⟨st', [(.expression m', true)], hlifts, ?_, ?_⟩
    · simp only [unnumberedSlots, AttributeValue.slots, List.map_cons, List.map_nil,
        Placeholder.unnumbered, hm]
    · simpa only [AttributeValue.markup, AttributeValue.pieces, List.flatMap_cons,
        List.flatMap_nil, List.append_nil, Piece.rendered] using hst'
  | concat parts =>
    simp only [AttributeValue.isPlain, Bool.and_eq_true, List.all_eq_true] at hvalue
    obtain ⟨middle, added, hparts, hadded, hmiddle⟩ :=
      hquoted.lifts_parts marker hvalue.1.1
    obtain ⟨st', hclose, hst'⟩ := hmiddle.lifts_endQuote marker
    refine ⟨st', added, hopen.cons (hparts.append hclose), hadded, ?_⟩
    rw [AttributeValue.markup, AttributeValue.pieces]
    simpa only [List.append_assoc, List.singleton_append, List.cons_append, List.nil_append]
      using hst'

theorem endName_opened {position : ValuePosition} {key : List Char}
    (hkey : ∀ c ∈ key, IsSmall c) :
    (opened name position key).endName = opened name position [] := by
  have hupper : key.reverse.any Text.isAsciiUpper = false :=
    any_isAsciiUpper_eq_false fun c hc => hkey c (List.mem_reverse.1 hc)
  simp [OpenTag.endName, opened, hupper]

/-- An attribute with the blank before it. -/
theorem Holds.lifts_attribute {kept : Char → Bool} {entry : Attribute}
    (hname : isSmallName entry.name = true) (hvalue : entry.value.isPlain kept = true)
    (h : Holds st slots markup blocks (some (opened name .none []))) :
    ∃ st' added, Lifts marker entry.printed st st' ∧
      unnumberedSlots added = unnumberedSlots entry.value.slots ∧
      Holds st' (slots ++ added)
        (markup ++ ' ' :: (entry.name.toList ++ '=' :: '"' ::
          (entry.value.markup marker slots.length ++ ['"']))) blocks
        (some (opened name .none [])) := by
  obtain ⟨-, hletters⟩ := small_chars hname
  have hblank : (opened name .none []).after ' ' = opened name .none [] := rfl
  have hequals : (opened name .none (entry.name.toList.reverse ++ [])).after '=' =
      opened name .afterEquals [] := by
    have hend := @endName_opened name .none (entry.name.toList.reverse ++ [])
      (fun c hc => hletters c (by simpa using hc))
    simp only [OpenTag.after, hend]
    rfl
  obtain ⟨first, hfirst, hholds⟩ := h.lifts_outside marker (c := ' ')
    nofun (by decide) (by decide) (by decide) (by decide)
  rw [hblank] at hholds
  obtain ⟨second, hsecond, hholds⟩ := hholds.lifts_name marker hletters
  obtain ⟨third, hthird, hholds⟩ := hholds.lifts_outside marker (c := '=')
    nofun (by decide) (by decide) (by decide) (by decide)
  rw [hequals] at hholds
  obtain ⟨st', added, hlifts, hadded, hst'⟩ := hholds.lifts_value marker hvalue
  refine ⟨st', added, hfirst.cons (hsecond.append (hthird.cons hlifts)), hadded, ?_⟩
  simpa only [List.append_assoc, List.singleton_append, List.cons_append, List.nil_append]
    using hst'

theorem Holds.lifts_attributes {kept : Char → Bool} {attributes : List Attribute}
    (hattributes : ∀ entry ∈ attributes,
      isSmallName entry.name = true ∧ entry.value.isPlain kept = true)
    (h : Holds st slots markup blocks (some (opened name .none []))) :
    ∃ st' added, Lifts marker (attributes.flatMap Attribute.printed) st st' ∧
      unnumberedSlots added =
        unnumberedSlots (attributes.flatMap fun entry => entry.value.slots) ∧
      Holds st' (slots ++ added) (markup ++ attributesMarkup marker slots.length attributes) blocks
        (some (opened name .none [])) := by
  induction attributes generalizing st slots markup with
  | nil =>
    refine ⟨st, [], lifts_nil st, rfl, ?_⟩
    simpa only [List.append_nil, attributesMarkup] using h
  | cons entry attributes ih =>
    obtain ⟨hname, hvalue⟩ := hattributes entry List.mem_cons_self
    obtain ⟨middle, first, hfirst, hslots, hmiddle⟩ :=
      h.lifts_attribute marker hname hvalue
    obtain ⟨st', added, hlifts, hadded, hst'⟩ :=
      ih (fun entry he => hattributes entry (List.mem_cons_of_mem _ he)) hmiddle
    have hlength := length_of_unnumberedSlots hslots
    refine ⟨st', first ++ added, ?_, ?_, ?_⟩
    · rw [List.flatMap_cons]
      exact hfirst.append hlifts
    · rw [List.flatMap_cons]
      simp only [unnumberedSlots, List.map_append] at hslots hadded ⊢
      rw [hslots, hadded]
    · rw [List.length_append, hlength] at hst'
      rw [attributesMarkup]
      simpa only [List.append_assoc, List.singleton_append, List.cons_append, List.nil_append]
        using hst'

theorem Holds.lifts_tagEnd (h : Holds st slots markup blocks (some (opened name .none [])))
    (selfClosing : Bool) :
    ∃ st', Lifts marker (tagEnd selfClosing) st st' ∧
      Holds st' slots (markup ++ tagEnd selfClosing) blocks none := by
  refine ⟨{ st.write (tagEnd selfClosing) with tag := none }, ?_, (h.write _).setTag none⟩
  cases selfClosing with
  | true =>
    refine lifts_of_step fun offset rest => ?_
    rw [step_plain (by decide) (by decide), h.tag]
    dsimp only
    rw [stepTag.eq_def]
    simp [opened, tagEnd, OpenTag.spellings, OpenTag.endName]
  | false =>
    refine lifts_of_step fun offset rest => ?_
    rw [step_plain (by decide) (by decide), h.tag]
    dsimp only
    rw [stepTag.eq_def]
    simp [opened, tagEnd, OpenTag.spellings, OpenTag.endName]

/-! ### Items -/

theorem Holds.lifts_startTag {kept : Char → Bool} {tag : String} {attributes : List Attribute}
    (selfClosing : Bool) (h : Holds st slots markup blocks none)
    (htag : isPlainTagName tag = true) (hattributes : attributesArePlain kept attributes = true) :
    ∃ st' added, Lifts marker (Item.startTag tag attributes selfClosing).printed st st' ∧
      unnumberedSlots added = unnumberedSlots (Item.startTag tag attributes selfClosing).slots ∧
      Holds st' (slots ++ added)
        (markup ++ (Item.startTag tag attributes selfClosing).markup marker slots.length)
        blocks none := by
  simp only [isPlainTagName, Bool.and_eq_true] at htag
  simp only [attributesArePlain, Bool.and_eq_true, List.all_eq_true] at hattributes
  obtain ⟨hne, hsmall⟩ := small_chars htag.1.1
  have hopened := (h.write ('<' :: tag.toList)).setTag (some (opened tag.toList .none []))
  obtain ⟨middle, added, hmiddle, hadded, hholds⟩ :=
    hopened.lifts_attributes marker hattributes.1
  obtain ⟨st', hend, hst'⟩ := hholds.lifts_tagEnd marker selfClosing
  have hhead : ∃ c, (attributes.flatMap Attribute.printed ++ tagEnd selfClosing).head? = some c ∧
      endsTagName c = true := by
    cases attributes with
    | nil =>
      cases selfClosing with
      | true => exact ⟨'/', rfl, by decide⟩
      | false => exact ⟨'>', rfl, by decide⟩
    | cons entry attributes => exact ⟨' ', rfl, by decide⟩
  obtain ⟨c, hc, hends⟩ := hhead
  refine ⟨st', added, ?_, hadded, ?_⟩
  · exact lifts_openTag marker hne hsmall hc hends h.tag (hmiddle.append hend)
  · simpa only [Item.markup, List.append_assoc, List.cons_append, List.nil_append] using hst'

theorem lifts_endTag {tag : String} (htag : isPlainTagName tag = true) (hst : st.tag = none) :
    Lifts marker (Item.endTag tag).printed st (st.write (Item.endTag tag).printed) := by
  simp only [isPlainTagName, Bool.and_eq_true] at htag
  obtain ⟨-, hsmall⟩ := small_chars htag.1.1
  have hopen : Lifts marker ['<', '/'] st (st.write ['<', '/']) := by
    have hchar : ∀ c ∈ ['/'], isTextChar (fun _ => true) c = true := by simp [isTextChar]
    have hslash : Lifts marker ['/'] (st.write ['<']) ((st.write ['<']).write ['/']) :=
      lifts_text hchar _ hst
    rw [write_write] at hslash
    intro offset rest
    obtain ⟨offset', hrest⟩ := hslash (offset + '<'.utf8Size) rest
    refine ⟨offset', ?_⟩
    have hchars : "<!--".toList = ['<', '!', '-', '-'] := by decide
    have hstep : step marker st '<' ('/' :: rest) offset = .ok (st.write ['<'], 1) := by
      rw [step_plain (by decide) (by decide), hst]
      dsimp only
      rw [stepText.eq_def, hchars]
      simp [Text.afterLead?, Text.isAsciiLetter]
    show run marker offset 0 st ('<' :: '/' :: rest) = _
    rw [run, hstep]
    exact hrest
  have hname : ∀ c ∈ tag.toList ++ ['>'], isTextChar (fun _ => true) c = true := by
    intro c hc
    rcases List.mem_append.1 hc with hc | hc
    · have hchar := (hsmall c hc).name
      simp [isTextChar, ne_of_isNameChar hchar (d := '<') (by decide),
        ne_of_isNameChar hchar (d := '&') (by decide),
        ne_of_isNameChar hchar (d := '{') (by decide),
        ne_of_isNameChar hchar (d := '\\') (by decide)]
    · cases List.mem_singleton.1 hc
      decide
  have hrest := @lifts_text marker _ _ hname (st.write ['<', '/']) hst
  rw [write_write] at hrest
  exact hopen.append hrest

/-- A printed item is read, up to numbers, and leaves its markup. -/
theorem Holds.exists_lifts_item {kept : Char → Bool} {item : Item}
    (h : Holds st slots markup blocks none) (hitem : item.isPlain kept = true)
    {blocks' : List String} (hblocks : item.blocksAfter blocks = some blocks') :
    ∃ st' added, Lifts marker item.printed st st' ∧
      unnumberedSlots added = unnumberedSlots item.slots ∧
      Holds st' (slots ++ added) (markup ++ item.markup marker slots.length) blocks' none := by
  cases item with
  | text chars =>
    simp only [Item.isPlain, Bool.and_eq_true, List.all_eq_true] at hitem
    cases hblocks
    refine ⟨_, [], lifts_text hitem.2 _ h.tag, rfl, ?_⟩
    rw [List.append_nil]
    exact h.write _
  | tag t => exact h.exists_lifts_tag marker hitem hblocks
  | comment value =>
    simp only [Item.isPlain, Bool.and_eq_true] at hitem
    cases hblocks
    refine ⟨_, [], lifts_comment hitem.1 h.tag, rfl, ?_⟩
    rw [List.append_nil]
    exact h.write _
  | startTag tag attributes selfClosing =>
    simp only [Item.isPlain, Bool.and_eq_true] at hitem
    cases hblocks
    exact h.lifts_startTag marker selfClosing hitem.1 hitem.2
  | endTag tag =>
    cases hblocks
    refine ⟨_, [], lifts_endTag marker hitem h.tag, rfl, ?_⟩
    rw [List.append_nil]
    exact h.write _

/-- Items are read one after another. -/
theorem Holds.exists_lifts_items {kept : Char → Bool} {items : List Item}
    (h : Holds st slots markup blocks none) (hitems : ∀ item ∈ items, item.isPlain kept = true)
    {blocks' : List String} (hblocks : blocksAfterAll blocks items = some blocks') :
    ∃ st' added, Lifts marker (items.flatMap Item.printed) st st' ∧
      unnumberedSlots added = unnumberedSlots (items.flatMap Item.slots) ∧
      Holds st' (slots ++ added) (markup ++ itemsMarkup marker slots.length items) blocks'
        none := by
  induction items generalizing st slots markup blocks with
  | nil =>
    cases hblocks
    exact ⟨st, [], lifts_nil st, rfl, by simpa only [List.append_nil, itemsMarkup] using h⟩
  | cons item items ih =>
    rw [blocksAfterAll, List.foldlM_cons] at hblocks
    cases hfirst : item.blocksAfter blocks with
    | none =>
      rw [hfirst] at hblocks
      cases hblocks
    | some between =>
      rw [hfirst] at hblocks
      obtain ⟨middle, first, hlifts, hslots, hmiddle⟩ :=
        h.exists_lifts_item marker (hitems item List.mem_cons_self) hfirst
      obtain ⟨st', added, hrest, hadded, hst'⟩ :=
        ih hmiddle (fun item hi => hitems item (List.mem_cons_of_mem _ hi)) hblocks
      refine ⟨st', first ++ added, ?_, ?_, ?_⟩
      · rw [List.flatMap_cons]
        exact hlifts.append hrest
      · rw [List.flatMap_cons]
        simp only [unnumberedSlots, List.map_append] at hslots hadded ⊢
        rw [hslots, hadded]
      · rw [List.length_append, length_of_unnumberedSlots hslots] at hst'
        rw [itemsMarkup]
        simpa only [List.append_assoc] using hst'

end

end Lifting

/-- The tags of a printed template are lifted out in their order, up to numbers, and its markup is
left. -/
theorem Lifted.ofSource_printed {kept : Char → Bool} {template : Template}
    (h : template.isPlain kept = true) {marker : Char}
    (hmarker : freeMarker? template.printed = some marker) :
    ∃ lifted next slots, Lifted.ofSource template.printed = .ok (lifted, next) ∧
      unnumberedSlots slots = unnumberedSlots ((itemsOfAll template).flatMap Item.slots) ∧
      lifted.markup = itemsMarkup marker 0 (itemsOfAll template) ∧
      lifted.placeholders = slots.map (fun slot => some slot.1) ∧
      (∀ index, index ∈ lifted.unquoted ↔ slots[index]?.map Prod.snd = some true) ∧
      lifted.marker = marker := by
  simp only [Template.isPlain, Bool.and_eq_true] at h
  have hstart : Lifting.Holds {} [] [] [] none := ⟨rfl, rfl, by simp, rfl, rfl⟩
  obtain ⟨st, slots, hlifts, hslots, hst⟩ := hstart.exists_lifts_items marker
    (Statement.isPlain_of_mem_itemsOfAll template h.1) (blocksAfterAll_itemsOfAll template [])
  obtain ⟨offset, hrun⟩ := hlifts 0 []
  rw [List.append_nil] at hrun
  have hrun : Lifting.run marker 0 0 {} template.printed = .ok st := hrun
  refine ⟨{ markup := st.markup.reverse
            placeholders := st.placeholders.reverse.map some
            unquoted := st.unquoted
            marker }, st.next, slots, ?_, hslots, ?_, ?_, ?_, rfl⟩
  · unfold Lifted.ofSource
    rw [hmarker]
    dsimp only
    rw [hrun]
    dsimp only
    rw [hst.blocks]
  · simp [hst.markup]
  · simp [hst.placeholders]
  · simpa using hst.unquoted

end MustacheJsx
