import MustacheJsx.Proofs.Opening.Restoring
import MustacheJsx.Proofs.Reading.Stack
import MustacheJsx.Proofs.Template.Numbering

/-!
# The element of an opening tag

A start tag among the tokens of a tree has its element in the tree, and the tags that lifting took
out of its values are kept, each under its number: `Lifted.Reads.restoresElement` and
`Lifting.Holds.keepsAll`.
-/

namespace MustacheJsx

open Markup (Token StartTag)

/-! ### Elements of a tree -/

/-- Somewhere in the statements there is an element of this name with these attributes. -/
inductive HasElement (tag : String) (attributes : List Attribute) : List Statement → Prop where
  | here {children selfClosing statements} :
      .element tag attributes children selfClosing ∈ statements →
      HasElement tag attributes statements
  | child {outer own children selfClosing statements} :
      .element outer own children selfClosing ∈ statements →
      HasElement tag attributes children → HasElement tag attributes statements
  | program {head id program inverse statements} :
      .block head (.mk id program) inverse ∈ statements →
      HasElement tag attributes program → HasElement tag attributes statements
  | inverse {head program id body statements} :
      .block head program (some (.mk id body)) ∈ statements →
      HasElement tag attributes body → HasElement tag attributes statements

variable {name : String} {attributes : List Attribute} {lifted : Lifted}

theorem HasElement.ne_nil {statements : List Statement}
    (h : HasElement name attributes statements) : statements ≠ [] := by
  cases h with
  | here hmem | child hmem | program hmem | inverse hmem => exact List.ne_nil_of_mem hmem

theorem HasElement.mono {statements more : List Statement}
    (h : HasElement name attributes statements)
    (hsubset : ∀ statement ∈ statements, statement ∈ more) : HasElement name attributes more := by
  cases h with
  | here hmem => exact .here (hsubset _ hmem)
  | child hmem hinner => exact .child (hsubset _ hmem) hinner
  | program hmem hinner => exact .program (hsubset _ hmem) hinner
  | inverse hmem hinner => exact .inverse (hsubset _ hmem) hinner

theorem HasElement.tail {statement : Statement} {statements : List Statement}
    (h : HasElement name attributes statements) :
    HasElement name attributes (statement :: statements) :=
  h.mono fun _ hmem => List.mem_cons_of_mem _ hmem

namespace Lifted

def RestoresElement (lifted : Lifted) (tag : StartTag) (statements : List Statement) : Prop :=
  ∃ attributes, lifted.RestoresAttributes tag attributes ∧
    HasElement (writtenName tag) attributes statements

mutual

theorem Reads.restoresElement {tokens : List Token} {statements : List Statement}
    (h : lifted.Reads tokens statements) {tag : StartTag} {line : Nat} (htag : IsElement tag)
    (hmem : .startTag tag line ∈ tokens) : lifted.RestoresElement tag statements := by
  match h with
  | .nil => cases hmem
  | .text _ h =>
    rcases List.mem_cons.1 hmem with heq | hmem
    · cases heq
    · obtain ⟨attributes, hattributes, hrest⟩ := h.restoresElement htag hmem
      exact ⟨attributes, hattributes, hrest.mono fun _ => List.mem_append_right _⟩
  | .markupComment _ h | .mustacheComment _ _ h =>
    rcases List.mem_cons.1 hmem with heq | hmem
    · cases heq
    · obtain ⟨attributes, hattributes, hrest⟩ := h.restoresElement htag hmem
      exact ⟨attributes, hattributes, hrest.tail⟩
  | .leaf _ _ ha h =>
    rcases List.mem_cons.1 hmem with heq | hmem
    · cases heq
      exact ⟨_, ha, .here List.mem_cons_self⟩
    · obtain ⟨attributes, hattributes, hrest⟩ := h.restoresElement htag hmem
      exact ⟨attributes, hattributes, hrest.tail⟩
  | .element _ _ ha hi h =>
    rcases List.mem_cons.1 hmem with heq | hmem
    · cases heq
      exact ⟨_, ha, .here List.mem_cons_self⟩
    · rcases List.mem_append.1 hmem with hmem | hmem
      · obtain ⟨attributes, hattributes, hinner⟩ := hi.restoresElement htag hmem
        exact ⟨attributes, hattributes, .child List.mem_cons_self hinner⟩
      · rcases List.mem_cons.1 hmem with heq | hmem
        · cases heq
        · obtain ⟨attributes, hattributes, hrest⟩ := h.restoresElement htag hmem
          exact ⟨attributes, hattributes, hrest.tail⟩
  | .block hblock _ _ hp hi h =>
    rcases List.mem_cons.1 hmem with heq | hmem
    · cases heq
      exact absurd hblock htag.1
    · rcases List.mem_append.1 hmem with hmem | hmem
      · obtain ⟨attributes, hattributes, hinner⟩ := hp.restoresElement htag hmem
        exact ⟨attributes, hattributes, .program List.mem_cons_self hinner⟩
      · rcases List.mem_append.1 hmem with hmem | hmem
        · obtain ⟨id, body, rfl, attributes, hattributes, hinner⟩ := hi.restoresElement htag hmem
          exact ⟨attributes, hattributes, .inverse List.mem_cons_self hinner⟩
        · rcases List.mem_cons.1 hmem with heq | hmem
          · cases heq
          · obtain ⟨attributes, hattributes, hrest⟩ := h.restoresElement htag hmem
            exact ⟨attributes, hattributes, hrest.tail⟩

theorem ReadsInverse.restoresElement {tokens : List Token} {inverse : Option Body}
    (h : lifted.ReadsInverse tokens inverse) {tag : StartTag} {line : Nat} (htag : IsElement tag)
    (hmem : .startTag tag line ∈ tokens) :
    ∃ id body, inverse = some (.mk id body) ∧ lifted.RestoresElement tag body := by
  match h with
  | .none => cases hmem
  | .otherwise helse _ hp =>
    rcases List.mem_cons.1 hmem with heq | hmem
    · cases heq
      exact absurd helse htag.2
    · exact ⟨_, _, rfl, hp.restoresElement htag hmem⟩
  | .elseIf helse _ _ hp hi =>
    rcases List.mem_cons.1 hmem with heq | hmem
    · cases heq
      exact absurd helse htag.2
    · rcases List.mem_append.1 hmem with hmem | hmem
      · obtain ⟨attributes, hattributes, hinner⟩ := hp.restoresElement htag hmem
        exact ⟨_, _, rfl, attributes, hattributes, .program List.mem_cons_self hinner⟩
      · obtain ⟨id, body, rfl, attributes, hattributes, hinner⟩ := hi.restoresElement htag hmem
        exact ⟨_, _, rfl, attributes, hattributes, .inverse List.mem_cons_self hinner⟩

end

end Lifted

/-! ### Where a tag begins -/

/-- What follows is no text, but a tag of markup or what begins with `other`. -/
def IsCut (other : Char) (cs : List Char) : Prop := ∀ c ∈ cs.head?, c = '<' ∨ c = other

theorem isCut_nil (other : Char) : IsCut other [] := fun c hc => by cases hc

instance (marker : Char) (entry : SourceAttribute) : Decidable (entry.AvoidsMarker marker) :=
  inferInstanceAs (Decidable (∀ value ∈ entry.value, ∀ part ∈ value.parts,
    marker ∉ part.denotedText))

theorem withoutMark_of_isCut {marker : Char} (hmarker : IsMarker marker) {cs : List Char}
    (h : IsCut marker cs) : Markup.Lexer.withoutMark cs = cs := by
  rw [Markup.Lexer.withoutMark.eq_def]
  split
  · rcases h '\ufeff' rfl with heq | rfl
    · cases heq
    · exact absurd hmarker.2 (by decide)
  · rfl

/-! ### What is left of a tag when lifting ends -/

section

variable {marker : Char} {st final : Lifting} {slots added : List Slot} {markup : List Char}
  {blocks : List String} {open_ : Option OpenTag}

def Lifting.result (marker : Char) (final : Lifting) : Lifted :=
  { markup := final.markup.reverse
    placeholders := final.placeholders.reverse.map some
    unquoted := final.unquoted
    marker }

theorem Lifting.Holds.keeps (marker : Char) (hst : Lifting.Holds st slots markup blocks open_)
    (hgrows : Lifting.Grows st final) {index : Nat} {slot : Slot}
    (hslot : slots[index]? = some slot) :
    (final.result marker).Keeps index slot.1 ∧
      (index ∈ (final.result marker).unquoted ↔ slot.2 = true) := by
  have hlt : index < slots.length := (List.getElem?_eq_some_iff.1 hslot).1
  constructor
  · obtain ⟨before, hbefore⟩ := hgrows.placeholders
    rw [hst.placeholders] at hbefore
    show (final.placeholders.reverse.map some)[index]? = some (some slot.1)
    rw [← hbefore, List.reverse_append, List.reverse_reverse, List.getElem?_map,
      List.getElem?_append_left (by rwa [List.length_map]), List.getElem?_map, hslot]
    rfl
  · obtain ⟨noted, hnoted, hbound⟩ := hgrows.unquoted
    have hlength := hst.length_placeholders
    show index ∈ final.unquoted ↔ _
    rw [hnoted, List.mem_append, hst.unquoted, hslot, Option.map_some, Option.some.injEq]
    refine or_iff_right fun hmem => ?_
    have hle := (hbound index hmem).1
    omega

theorem Lifting.Holds.keepsAll (marker : Char)
    (hst : Lifting.Holds st (slots ++ added) markup blocks open_)
    (hgrows : Lifting.Grows st final) {mustaches : List (List Char × Bool)}
    (hadded : List.Forall₂ TakesSlot mustaches added) :
    (final.result marker).KeepsAll slots.length mustaches := by
  intro i written hwritten
  obtain ⟨hlt, hget⟩ := List.getElem?_eq_some_iff.1 hwritten
  have hlt' : i < added.length := hadded.length_eq ▸ hlt
  obtain ⟨hquoted, m, hslot, hread⟩ := hadded.get hlt hlt'
  simp only [List.get_eq_getElem, hget] at hquoted hslot hread
  have hfound : (slots ++ added)[slots.length + i]? = some added[i] := by
    rw [List.getElem?_append_right (Nat.le_add_right _ _), Nat.add_sub_cancel_left,
      List.getElem?_eq_getElem hlt']
  obtain ⟨hkeeps, hunquoted⟩ := hst.keeps marker hgrows hfound
  rw [hslot] at hkeeps
  rw [hquoted] at hunquoted
  exact ⟨m, hkeeps, hread, hunquoted⟩

/-- The markup of a tag stays, since a tag ends with no blank. -/
theorem Lifting.Holds.exists_markup_eq {cs : List Char} {last : Char}
    (hst : Lifting.Holds st slots (cs ++ [last]) blocks open_) (hgrows : Lifting.Grows st final)
    (hlast : Text.isBlank last = false) :
    ∃ more, final.markup.reverse = cs ++ [last] ++ more := by
  have hmarkup : st.markup = last :: cs.reverse := by
    rw [hst.markup, List.reverse_append]
    rfl
  obtain ⟨before, hbefore⟩ := hgrows.markup last cs.reverse hlast (hmarkup ▸ List.suffix_refl _)
  refine ⟨before.reverse, ?_⟩
  rw [← hbefore, List.reverse_append, List.reverse_cons, List.reverse_reverse]

end

/-! ### Opening tags -/

theorem SourceTag.exists_markup_eq_concat (tag : SourceTag) (marker : Char) (first : Nat) :
    ∃ cs, tag.markup marker first = cs ++ ['>'] := by
  have hend : ∃ cs, tagEnd tag.selfClosing = cs ++ ['>'] := by
    cases tag.selfClosing with
    | false => exact ⟨[], rfl⟩
    | true => exact ⟨['/'], rfl⟩
  obtain ⟨cs, hcs⟩ := hend
  refine ⟨'<' :: (tag.name ++ (tag.nameSpelling ++ (SourceAttribute.markupOfAll marker first
    tag.attributes ++ (tag.blanks ++ (tag.attributeSpelling ++ cs))))), ?_⟩
  rw [SourceTag.markup, hcs]
  simp

theorem SourceTag.isCut_source (tag : SourceTag) (other : Char) (rest : List Char) :
    IsCut other (tag.source ++ rest) := by
  intro c hc
  rw [SourceTag.source, List.cons_append, List.head?_cons] at hc
  cases hc
  exact .inl rfl

end MustacheJsx
