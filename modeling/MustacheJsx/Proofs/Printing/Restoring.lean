import MustacheJsx.Proofs.Printing.Assembly

/-!
# Restoring the tags of a printed template

The tags that were lifted out wait in the order in which they were printed, and they are taken in
that order: `Lifted.Waits`. Restoring the pieces of a text or of an attribute value takes its own
tags, and gives back what was printed up to numbers.
-/

namespace MustacheJsx

open Statement (unnumberedAll unnumberedAttributes unnumberedValue)

/-! ### Tags that wait -/

/-- The tags of the slots wait, up to numbers. The first has the index `first`; all before it have
been taken. -/
structure Lifted.Waits (lifted : Lifted) (marker : Char) (first : Nat) (slots : List Slot) :
    Prop where
  marker : lifted.marker = marker
  placeholders : lifted.placeholders.map (Option.map Placeholder.unnumbered) =
    List.replicate first none ++ slots.map fun slot => some slot.1.unnumbered
  unquoted : ∀ index slot, slots[index]? = some slot →
    (first + index ∈ lifted.unquoted ↔ slot.2 = true)
  bound : first + slots.length ≤ Nat.pow 2 64

namespace Lifted

variable {lifted : Lifted} {marker : Char} {first : Nat} {slot : Slot} {slots : List Slot}

theorem Waits.take (h : lifted.Waits marker first (slot :: slots)) :
    ∃ found lifted', lifted.take first = (some found, lifted') ∧
      found.unnumbered = slot.1.unnumbered ∧ lifted'.Waits marker (first + 1) slots := by
  have hfirst : (lifted.placeholders.map (Option.map Placeholder.unnumbered))[first]? =
      some (some slot.1.unnumbered) := by
    rw [h.placeholders, List.getElem?_append_right (by simp)]
    simp
  rw [List.getElem?_map, Option.map_eq_some_iff] at hfirst
  obtain ⟨waiting, hwaiting, hslot⟩ := hfirst
  obtain ⟨found, rfl, hfound⟩ := Option.map_eq_some_iff.1 hslot
  refine ⟨found, { lifted with placeholders := lifted.placeholders.set first none }, ?_, hfound,
    h.marker, ?_, ?_, ?_⟩
  · rw [Lifted.take, hwaiting]
  · rw [List.map_set, h.placeholders, List.set_append_right _ _ (by simp)]
    simp [List.replicate_succ', List.append_assoc]
  · intro index other hother
    have hnext := h.unquoted (index + 1) other (by simpa using hother)
    rwa [Nat.add_assoc, Nat.add_comm 1]
  · have hbound := h.bound
    rw [List.length_cons] at hbound
    omega

theorem Waits.lt (h : lifted.Waits marker first (slot :: slots)) : first < Nat.pow 2 64 := by
  have hbound := h.bound
  rw [List.length_cons] at hbound
  omega

theorem Waits.contains (h : lifted.Waits marker first (slot :: slots)) :
    lifted.unquoted.contains first = slot.2 := by
  have hslot := h.unquoted 0 slot rfl
  rw [Nat.add_zero] at hslot
  rw [Bool.eq_iff_iff, List.contains_iff_mem, hslot]

theorem Waits.take_expression {m : Mustache} {quoted : Bool}
    (h : lifted.Waits marker first ((.expression m, quoted) :: slots)) :
    ∃ m' lifted', lifted.take first = (some (.expression m'), lifted') ∧
      m'.unnumbered = m.unnumbered ∧ lifted'.Waits marker (first + 1) slots := by
  obtain ⟨found, lifted', htake, hfound, hrest⟩ := h.take
  cases found with
  | expression m' =>
    injection hfound with hm
    exact ⟨m', lifted', htake, hm, hrest⟩
  | _ => cases hfound

theorem Waits.take_partialCall {call : PartialCall} {quoted : Bool}
    (h : lifted.Waits marker first ((.partialCall call, quoted) :: slots)) :
    ∃ call' lifted', lifted.take first = (some (.partialCall call'), lifted') ∧
      call'.unnumbered = call.unnumbered ∧ lifted'.Waits marker (first + 1) slots := by
  obtain ⟨found, lifted', htake, hfound, hrest⟩ := h.take
  cases found with
  | partialCall call' =>
    injection hfound with hcall
    exact ⟨call', lifted', htake, hcall, hrest⟩
  | _ => cases hfound

theorem Waits.take_comment {value : String} {quoted : Bool}
    (h : lifted.Waits marker first ((.comment value, quoted) :: slots)) :
    ∃ lifted', lifted.take first = (some (.comment value), lifted') ∧
      lifted'.Waits marker (first + 1) slots := by
  obtain ⟨found, lifted', htake, hfound, hrest⟩ := h.take
  cases found with
  | comment value' =>
    injection hfound with hvalue
    rw [hvalue] at htake
    exact ⟨lifted', htake, hrest⟩
  | _ => cases hfound

theorem Waits.take_block {head : BlockHead} {quoted : Bool}
    (h : lifted.Waits marker first ((.block head, quoted) :: slots)) :
    ∃ head' lifted', lifted.take first = (some (.block head'), lifted') ∧
      head'.unnumbered = head.unnumbered ∧ lifted'.Waits marker (first + 1) slots := by
  obtain ⟨found, lifted', htake, hfound, hrest⟩ := h.take
  cases found with
  | block head' =>
    injection hfound with hhead
    exact ⟨head', lifted', htake, hhead, hrest⟩
  | _ => cases hfound

end Lifted

/-! ### Values of attributes -/

namespace Assembly

section

variable {lifted : Lifted} {marker : Char} {first : Nat} {waiting : List Slot}

theorem restore_piecesOfParts {parts : List Statement}
    (hparts : ∀ part ∈ parts, part.isPlainInValue isKept = true)
    (h : lifted.Waits marker first (parts.flatMap Statement.slotsInValue ++ waiting)) :
    ∃ statements lifted', restore lifted (piecesOfParts first parts) = .ok (statements, lifted') ∧
      unnumberedAll statements = unnumberedAll parts ∧
      lifted'.Waits marker (first + (parts.flatMap Statement.slotsInValue).length) waiting := by
  induction parts generalizing lifted first with
  | nil => exact ⟨[], lifted, rfl, rfl, h⟩
  | cons part parts ih =>
    have hpart := hparts part List.mem_cons_self
    have hrest : ∀ part ∈ parts, part.isPlainInValue isKept = true :=
      fun part hp => hparts part (List.mem_cons_of_mem _ hp)
    cases part with
    | text chars =>
      obtain ⟨statements, lifted', hrestore, hstatements, hwaits⟩ := ih hrest h
      have hofList : String.ofList chars.toList = chars := String.ofList_toList
      refine ⟨.text chars :: statements, lifted', ?_, ?_, hwaits⟩
      · rw [piecesOfParts, restore_cons, restorePiece, hofList]
        rw [ok_bind]
        dsimp only
        rw [hrestore]
        rfl
      · rw [unnumberedAll, hstatements, unnumberedAll]
    | mustache m =>
      obtain ⟨m', middle, htake, hm, hmiddle⟩ := Lifted.Waits.take_expression h
      obtain ⟨statements, lifted', hrestore, hstatements, hwaits⟩ := ih hrest hmiddle
      refine ⟨.mustache m' :: statements, lifted', ?_, ?_, ?_⟩
      · rw [piecesOfParts, restore_cons, restorePiece, htake]
        rw [ok_bind]
        dsimp only
        rw [hrestore]
        rfl
      · rw [unnumberedAll, hstatements, unnumberedAll, Statement.unnumbered, Statement.unnumbered,
          hm]
      · rw [List.flatMap_cons, List.length_append, ← Nat.add_assoc]
        exact hwaits
    | _ => cases hpart

/-- The pieces of a plain value can be told apart. -/
theorem separated_piecesOfParts {parts : List Statement} (first : Nat)
    (hparts : ∀ part ∈ parts, part.isPlainInValue isKept = true)
    (hapart : Statement.textsApart parts = true)
    (hfree : marker ∉ parts.flatMap Statement.printedInValue)
    (hbound : first + (parts.flatMap Statement.slotsInValue).length ≤ Nat.pow 2 64) :
    Piece.Separated marker (piecesOfParts first parts) ∧
      ∀ piece ∈ (piecesOfParts first parts).head?, ∃ part ∈ parts.head?,
        piece.isText = part.isText := by
  induction parts generalizing first with
  | nil => exact ⟨⟨by simp [piecesOfParts], List.isChain_nil⟩, by simp [piecesOfParts]⟩
  | cons part parts ih =>
    have hpart := hparts part List.mem_cons_self
    have hrest : ∀ part ∈ parts, part.isPlainInValue isKept = true :=
      fun part hp => hparts part (List.mem_cons_of_mem _ hp)
    have hapartRest : Statement.textsApart parts = true := by
      cases parts with
      | nil => rfl
      | cons next parts =>
        rw [Statement.textsApart, Bool.and_eq_true] at hapart
        exact hapart.2
    rw [List.flatMap_cons, List.mem_append, not_or] at hfree
    rw [List.flatMap_cons, List.length_append] at hbound
    cases part with
    | text chars =>
      simp only [Statement.isPlainInValue, Bool.and_eq_true, Bool.not_eq_true',
        List.isEmpty_eq_false_iff] at hpart
      have hslots : (Statement.text chars).slotsInValue.length = 0 := rfl
      obtain ⟨hseparated, hhead⟩ := ih first hrest hapartRest hfree.2 (by omega)
      refine ⟨⟨fun piece hp => ?_, ?_⟩, fun piece hp => ?_⟩
      · rcases List.mem_cons.1 hp with rfl | hp
        · exact ⟨hpart.1, hfree.1⟩
        · exact hseparated.good piece hp
      · rw [piecesOfParts, List.isChain_cons]
        refine ⟨fun next hn hboth => ?_, hseparated.apart⟩
        obtain ⟨part, hp, htext⟩ := hhead next hn
        cases parts with
        | nil => cases hp
        | cons other parts =>
          cases hp
          rw [Statement.textsApart, ← htext, hboth.2] at hapart
          cases hapart
      · cases hp
        exact ⟨_, rfl, rfl⟩
    | mustache m =>
      have hslots : (Statement.mustache m).slotsInValue.length = 1 := rfl
      obtain ⟨hseparated, -⟩ := ih (first + 1) hrest hapartRest hfree.2 (by omega)
      refine ⟨⟨fun piece hp => ?_, ?_⟩, fun piece hp => ?_⟩
      · rcases List.mem_cons.1 hp with rfl | hp
        · exact ⟨first, by omega, rfl⟩
        · exact hseparated.good piece hp
      · rw [piecesOfParts, List.isChain_cons]
        exact ⟨fun next _ hboth => Bool.noConfusion hboth.1, hseparated.apart⟩
      · cases hp
        exact ⟨_, rfl, rfl⟩
    | _ => cases hpart

theorem any_hole_piecesOfParts {parts : List Statement} (first : Nat)
    (hparts : ∀ part ∈ parts, part.isPlainInValue isKept = true) :
    ((piecesOfParts first parts).any fun piece => piece matches .hole _) =
      !parts.all Statement.isText := by
  induction parts generalizing first with
  | nil => rfl
  | cons part parts ih =>
    have hpart := hparts part List.mem_cons_self
    have hrest := fun n => ih n fun part hp => hparts part (List.mem_cons_of_mem _ hp)
    cases part with
    | text chars =>
      rw [piecesOfParts, List.any_cons, hrest, List.all_cons]
      rfl
    | mustache m => rfl
    | _ => cases hpart

/-- What is quoted is restored as a text, or piece by piece. -/
theorem mixedValue_text {chars : List Char} (hmarker : IsMarker marker)
    (hlifted : lifted.marker = marker) (hfree : marker ∉ chars) :
    mixedValue lifted chars = .ok (.text (String.ofList chars), lifted) := by
  have hsplit : Piece.split marker chars = if chars.isEmpty then [] else [.text chars] := by
    cases chars with
    | nil => rfl
    | cons c cs =>
      have hgood : Piece.Separated marker [.text (c :: cs)] := by
        refine ⟨fun piece hp => ?_, List.isChain_singleton _⟩
        cases List.mem_singleton.1 hp
        exact ⟨List.cons_ne_nil c cs, hfree⟩
      have hpieces := Piece.split_rendered hmarker hgood
      rw [List.flatMap_cons, List.flatMap_nil, List.append_nil] at hpieces
      exact hpieces
  rw [mixedValue, hlifted, hsplit]
  cases chars with
  | nil => rfl
  | cons c cs => rfl

theorem mixedValue_concat {parts : List Statement} (hmarker : IsMarker marker)
    (hvalue : (AttributeValue.concat parts).isPlain isKept = true)
    (hfree : marker ∉ parts.flatMap Statement.printedInValue)
    (h : lifted.Waits marker first (parts.flatMap Statement.slotsInValue ++ waiting)) :
    ∃ parts' lifted',
      mixedValue lifted ((AttributeValue.concat parts).markup marker first) =
        .ok (.concat parts', lifted') ∧
      unnumberedAll parts' = unnumberedAll parts ∧
      lifted'.Waits marker (first + (parts.flatMap Statement.slotsInValue).length) waiting := by
  simp only [AttributeValue.isPlain, Bool.and_eq_true, List.all_eq_true] at hvalue
  obtain ⟨⟨hparts, hapart⟩, hmixed⟩ := hvalue
  have hbound := h.bound
  rw [List.length_append] at hbound
  obtain ⟨hseparated, -⟩ := separated_piecesOfParts first hparts hapart hfree (by omega)
  obtain ⟨parts', lifted', hrestore, hparts', hwaits⟩ := restore_piecesOfParts hparts h
  refine ⟨parts', lifted', ?_, hparts', hwaits⟩
  have hholes := any_hole_piecesOfParts first hparts
  rw [hmixed] at hholes
  rw [mixedValue, h.marker, AttributeValue.markup, AttributeValue.pieces,
    Piece.split_rendered hmarker hseparated]
  dsimp only
  split
  · rw [hrestore]
    rfl
  · next hnone => exact absurd hholes hnone

/-- A quoted value is no lone mustache, even if nothing else stands in its quotes. -/
theorem restoreValue_concat {parts : List Statement} (hmarker : IsMarker marker)
    (hvalue : (AttributeValue.concat parts).isPlain isKept = true)
    (hfree : marker ∉ parts.flatMap Statement.printedInValue)
    (h : lifted.Waits marker first (parts.flatMap Statement.slotsInValue ++ waiting)) :
    restoreValue lifted ((AttributeValue.concat parts).markup marker first) =
      mixedValue lifted ((AttributeValue.concat parts).markup marker first) := by
  simp only [AttributeValue.isPlain, Bool.and_eq_true, List.all_eq_true] at hvalue
  obtain ⟨⟨hparts, hapart⟩, hmixed⟩ := hvalue
  have hbound := h.bound
  rw [List.length_append] at hbound
  obtain ⟨hseparated, -⟩ := separated_piecesOfParts first hparts hapart hfree (by omega)
  rw [restoreValue, h.marker]
  split
  · rfl
  · next index hwhole =>
    have hpieces := Piece.eq_singleton_of_whole? hmarker hseparated hwhole
    have hquoted : lifted.unquoted.contains index = false := by
      cases parts with
      | nil => cases hpieces
      | cons part parts =>
        have hpart := hparts part List.mem_cons_self
        cases part with
        | text chars => cases hpieces
        | mustache m =>
          injection hpieces with hhole
          injection hhole with hindex
          cases hindex
          exact Lifted.Waits.contains h
        | _ => cases hpart
    rw [hquoted]
    rfl

/-- The value of an attribute is restored up to numbers. -/
theorem exists_restoreValue {value : AttributeValue} (hmarker : IsMarker marker)
    (hvalue : value.isPlain isKept = true) (hfree : marker ∉ value.printed)
    (h : lifted.Waits marker first (value.slots ++ waiting)) :
    ∃ value' lifted', restoreValue lifted (value.markup marker first) = .ok (value', lifted') ∧
      unnumberedValue value' = unnumberedValue value ∧
      lifted'.Waits marker (first + value.slots.length) waiting := by
  cases value with
  | text chars =>
    have hchars : marker ∉ chars.toList := by
      intro hm
      exact hfree (List.mem_cons_of_mem _ (List.mem_append_left _ hm))
    have hmarkup : (AttributeValue.text chars).markup marker first = chars.toList := by
      rw [AttributeValue.markup, AttributeValue.pieces]
      cases chars.toList with
      | nil => rfl
      | cons c cs => simp [Piece.rendered]
    have hofList : String.ofList chars.toList = chars := String.ofList_toList
    refine ⟨.text chars, lifted, ?_, rfl, h⟩
    rw [restoreValue, h.marker, hmarkup, Piece.whole?_of_not_mem hchars]
    dsimp only
    rw [mixedValue_text hmarker h.marker hchars, hofList]
  | mustache m =>
    obtain ⟨m', lifted', htake, hm, hwaits⟩ := Lifted.Waits.take_expression h
    refine ⟨.mustache m', lifted', ?_, ?_, hwaits⟩
    · have hmarkup : (AttributeValue.mustache m).markup marker first =
          placeholderText marker first := List.append_nil _
      have hcontains : lifted.unquoted.contains first = true := Lifted.Waits.contains h
      rw [restoreValue, h.marker, hmarkup, Piece.whole?_placeholderText hmarker
        (Lifted.Waits.lt h)]
      dsimp only
      rw [hcontains, htake]
      rfl
    · rw [unnumberedValue, unnumberedValue, hm]
  | concat parts =>
    have hparts : marker ∉ parts.flatMap Statement.printedInValue := by
      intro hm
      exact hfree (List.mem_cons_of_mem _ (List.mem_append_left _ hm))
    obtain ⟨parts', lifted', hmixed, hparts', hwaits⟩ := mixedValue_concat hmarker hvalue hparts h
    refine ⟨.concat parts', lifted', ?_, ?_, hwaits⟩
    · rw [restoreValue_concat hmarker hvalue hparts h, hmixed]
    · rw [unnumberedValue, hparts', unnumberedValue]

/-! ### Attributes -/

theorem isSmallName_ne {name : String} (h : isSmallName name = true) {other : String}
    (hother : '-' ∈ other.toList) : name ≠ other := by
  rintro rfl
  simp only [isSmallName, Bool.and_eq_true, List.all_eq_true] at h
  exact absurd (h.2 '-' hother) (by decide)

/-- Attributes are restored up to numbers. -/
theorem exists_restoreAttributes {attributes : List Attribute} (hmarker : IsMarker marker)
    (hattributes : ∀ entry ∈ attributes,
      isSmallName entry.name = true ∧ entry.value.isPlain isKept = true)
    (hfree : marker ∉ attributes.flatMap Attribute.printed)
    (h : lifted.Waits marker first
      ((attributes.flatMap fun entry => entry.value.slots) ++ waiting)) :
    ∃ attributes' lifted',
      restoreAttributes [] lifted (renderedAttributes marker first attributes) =
        .ok (attributes', lifted') ∧
      unnumberedAttributes attributes' = unnumberedAttributes attributes ∧
      lifted'.Waits marker
        (first + (attributes.flatMap fun entry => entry.value.slots).length) waiting := by
  induction attributes generalizing lifted first with
  | nil => exact ⟨[], lifted, rfl, rfl, h⟩
  | cons entry attributes ih =>
    obtain ⟨hname, hvalue⟩ := hattributes entry List.mem_cons_self
    rw [List.flatMap_cons, List.mem_append, not_or] at hfree
    rw [List.flatMap_cons, List.append_assoc] at h
    have hfreeValue : marker ∉ entry.value.printed := by
      intro hm
      exact hfree.1 (List.mem_cons_of_mem _ (List.mem_append_right _ (List.mem_cons_of_mem _ hm)))
    obtain ⟨value, middle, hrestore, hvalue', hmiddle⟩ :=
      exists_restoreValue hmarker hvalue hfreeValue h
    obtain ⟨attributes', lifted', hrest, hattributes', hwaits⟩ :=
      ih (fun entry he => hattributes entry (List.mem_cons_of_mem _ he)) hfree.2 hmiddle
    have hordinary : ¬(entry.name = tagSpelling ∨ entry.name = attributeSpellings) := by
      rintro (hspelling | hspelling)
      · exact isSmallName_ne hname (by decide) hspelling
      · exact isSmallName_ne hname (by decide) hspelling
    have hchars : (String.ofList (entry.value.markup marker first)).toList =
        entry.value.markup marker first := String.toList_ofList
    refine ⟨.mk entry.name value :: attributes', lifted', ?_, ?_, ?_⟩
    · rw [renderedAttributes, restoreAttributes, if_neg hordinary, hchars, hrestore]
      rw [ok_bind]
      dsimp only
      rw [hrest]
      rfl
    · cases entry with
      | mk name written =>
        rw [unnumberedAttributes, unnumberedAttributes, hattributes']
        exact congrArg (fun v => Attribute.mk name v :: unnumberedAttributes attributes) hvalue'
    · rw [List.flatMap_cons, List.length_append, ← Nat.add_assoc]
      exact hwaits

end

end Assembly

end MustacheJsx
