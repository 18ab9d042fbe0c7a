import MustacheJsx.Proofs.Printing.Tree

/-!
# Reading a printed template

A plain template is read back from its printed form, up to the numbers of its paths and bodies. It
takes a character of the private area that does not occur in it, and a source that does not begin
with a byte order mark. The main statement is `Template.read_printed`.
-/

namespace MustacheJsx

open Statement (itemsOfAll)

/-! ### Markers -/

theorem exists_freeMarker? {source : List Char} {c : Char} (hmarker : IsMarker c)
    (hfree : c ∉ source) : ∃ marker, freeMarker? source = some marker := by
  cases h : freeMarker? source with
  | some marker => exact ⟨marker, rfl⟩
  | none =>
    obtain ⟨hlow, hhigh⟩ := hmarker
    have hall := List.find?_eq_none.1 h
    have hvalue : Char.ofNat (0xE000 + (c.toNat - 0xE000)) = c := by
      rw [Nat.add_sub_cancel' hlow, Char.ofNat_toNat]
    have hmem : c ∈ (List.range (0xF8FF - 0xE000 + 1)).map fun n => Char.ofNat (0xE000 + n) :=
      List.mem_map.2 ⟨c.toNat - 0xE000, List.mem_range.2 (by omega), hvalue⟩
    have hused := hall c hmem
    simp [hfree] at hused

/-! ### Slots -/

theorem length_flatMap_le {α β γ : Type} {f : α → List β} {g : α → List γ}
    (h : ∀ x, (f x).length ≤ (g x).length) (xs : List α) :
    (xs.flatMap f).length ≤ (xs.flatMap g).length := by
  induction xs with
  | nil => exact Nat.le_refl _
  | cons x xs ih =>
    have hx := h x
    rw [List.flatMap_cons, List.flatMap_cons, List.length_append, List.length_append]
    omega

theorem length_slotsInValue_le (part : Statement) :
    part.slotsInValue.length ≤ part.printedInValue.length := by
  cases part with
  | mustache m =>
    obtain ⟨cs, hprinted⟩ := Lifting.exists_printed_eq_braces (.expression m)
    rw [Statement.printedInValue, hprinted]
    simp [Statement.slotsInValue]
  | _ => exact Nat.zero_le _

theorem length_valueSlots_le (value : AttributeValue) :
    value.slots.length ≤ value.printed.length := by
  cases value with
  | text chars => exact Nat.zero_le _
  | mustache m =>
    obtain ⟨cs, hprinted⟩ := Lifting.exists_printed_eq_braces (.expression m)
    rw [AttributeValue.printed, hprinted]
    simp [AttributeValue.slots]
  | concat parts =>
    have hparts := length_flatMap_le length_slotsInValue_le parts
    rw [AttributeValue.slots, AttributeValue.printed, List.length_cons, List.length_append]
    omega

theorem length_slots_le (item : Item) : item.slots.length ≤ item.printed.length := by
  cases item with
  | tag t =>
    obtain ⟨cs, hprinted⟩ := Lifting.exists_printed_eq_braces t
    have hone : t.slots.length ≤ 1 := by
      cases t with
      | elseBranch chain =>
        cases chain with
        | none => exact Nat.zero_le _
        | some head => exact Nat.le_refl _
      | closeBlock name => exact Nat.zero_le _
      | _ => exact Nat.le_refl _
    rw [Item.slots, Item.printed, hprinted, List.length_cons]
    omega
  | startTag name attributes selfClosing =>
    have hattributes := length_flatMap_le (f := fun entry : Attribute => entry.value.slots)
      (g := Attribute.printed) (fun entry => ?_) attributes
    · rw [Item.slots, Item.printed, List.length_cons, List.length_append, List.length_append]
      omega
    · have hvalue := length_valueSlots_le entry.value
      rw [Attribute.printed, List.length_cons, List.length_append, List.length_cons]
      omega
  | _ => exact Nat.zero_le _

/-- The tags of a printed template wait from the first on. -/
theorem waits_of_unnumberedSlots {lifted : Lifted} {marker : Char} {found slots : List Slot}
    (h : unnumberedSlots found = unnumberedSlots slots) (hmarker : lifted.marker = marker)
    (hplaceholders : lifted.placeholders = found.map fun slot => some slot.1)
    (hunquoted : ∀ index, index ∈ lifted.unquoted ↔ found[index]?.map Prod.snd = some true)
    (hbound : slots.length ≤ Nat.pow 2 64) : lifted.Waits marker 0 slots where
  marker := hmarker
  placeholders := by
    have hslots := congrArg (List.map fun slot : Slot => some slot.1) h
    rw [unnumberedSlots, unnumberedSlots, List.map_map, List.map_map] at hslots
    rw [hplaceholders, List.map_map]
    exact hslots
  unquoted := by
    intro index slot hslot
    have hquoted := congrArg (fun slots : List Slot => slots[index]?.map Prod.snd) h
    simp only [unnumberedSlots, List.getElem?_map, Option.map_map, Function.comp_def, hslot]
      at hquoted
    rw [Nat.zero_add, hunquoted]
    show found[index]?.map (fun slot => slot.2) = some true ↔ _
    rw [hquoted]
    simp
  bound := by
    rw [Nat.zero_add]
    exact hbound

theorem Lifted.Waits.isEmpty {lifted : Lifted} {marker : Char} {first : Nat}
    (h : lifted.Waits marker first []) : lifted.isEmpty = true := by
  have hplaceholders := h.placeholders
  rw [List.map_nil, List.append_nil] at hplaceholders
  refine List.all_eq_true.2 fun entry he => ?_
  have hmem := List.mem_map_of_mem (f := Option.map Placeholder.unnumbered) he
  rw [hplaceholders] at hmem
  have hnone := List.eq_of_mem_replicate hmem
  rw [Option.map_eq_none_iff] at hnone
  rw [hnone]
  rfl

/-! ### Templates -/

theorem Assembly.foldl_add_body (lifted : Lifted) (next : Nat) (body statements : List Statement) :
    statements.foldl add { lifted, next, body } =
      { lifted, next, body := statements.reverse ++ body } := by
  induction statements generalizing body with
  | nil => rfl
  | cons statement statements ih =>
    have hfirst : add { lifted, next, body } statement =
        { lifted, next, body := statement :: body } := rfl
    rw [List.foldl_cons, hfirst, ih, List.reverse_cons, List.append_assoc, List.singleton_append]

namespace Template

/-- The printed form of a template is read as the template, up to the numbers of its paths and
bodies. -/
def IsReadBack (template : Template) : Prop :=
  ∃ found, Template.read template.printed = .ok found ∧ found.unnumbered = template.unnumbered

/-- A plain template is read back, however its blocks and elements are nested and its values quoted.
Its texts are kept, one marker is free, and no byte order mark is lost. -/
theorem isReadBack_of_isPlain {template : Template} (hplain : template.isPlain isKept = true)
    (hmark : template.printed.head? ≠ some '\ufeff')
    (hmarker : ∃ c, IsMarker c ∧ c ∉ template.printed)
    (hlength : template.printed.length < Nat.pow 2 64) : template.IsReadBack := by
  obtain ⟨c, hc, hunused⟩ := hmarker
  obtain ⟨marker, hfree⟩ := exists_freeMarker? hc hunused
  have hprivate := isMarker_of_freeMarker? hfree
  have hnot := freeMarker?_not_mem hfree
  obtain ⟨lifted, next, slots, hsource, hslots, hmarkup, hplaceholders, hunquoted, hlifted⟩ :=
    Lifted.ofSource_printed hplain hfree
  have hstatements := hplain
  simp only [isPlain, Bool.and_eq_true] at hstatements
  have hitems := Statement.isPlain_of_mem_itemsOfAll template hstatements.1
  have hchain := Statement.isChain_itemsOfAll template hstatements.1 hstatements.2
  have hfreeItems : ∀ item ∈ itemsOfAll template, marker ∉ item.printed :=
    fun item hi hm => hnot (List.mem_flatMap.2 ⟨item, hi, hm⟩)
  have hbound : ((itemsOfAll template).flatMap Item.slots).length ≤ Nat.pow 2 64 :=
    Nat.le_trans (length_flatMap_le length_slots_le _) (Nat.le_of_lt hlength)
  have hwaits := waits_of_unnumberedSlots hslots hlifted hplaceholders hunquoted hbound
  -- the items build the template in an empty assembly
  obtain ⟨found, rest, last, habsorbs, hrest, hfound⟩ :=
    Assembly.builds_itemsOfAll hprivate template hstatements.1 hfreeItems { lifted, next } 0 []
      (by rwa [List.append_nil])
  -- and the tokens of the markup absorb the items
  obtain ⟨tokens, m, pieces, a, hlexes, hread, hm, hpieces, ha, hsettle⟩ :=
    Assembly.exists_reads hprivate hitems hfreeItems hchain 0 (by rwa [Nat.zero_add]) {} []
      ⟨rfl, rfl, rfl⟩ ⟨by simp, List.isChain_nil⟩ (by simp) (a := { lifted, next })
      (s := { lifted, next }) hlifted hlifted rfl habsorbs
  have htokens : Markup.tokens lifted.markup =
      tokens ++ Markup.Lexer.textTokens (pieces.flatMap (Piece.rendered marker)) := by
    have hrun := hlexes []
    rw [List.append_nil] at hrun
    rw [Markup.tokens, hmarkup, Markup.Lexer.withoutMark_of_ne
      (Markup.Lexer.head?_itemsMarkup_ne hprivate hitems 0 hmark),
      Markup.Lexer.unifyLineEnds_of_forall (Markup.Lexer.mem_itemsMarkup_ne hprivate hitems 0),
      hrun, Markup.Lexer.run, Markup.Lexer.atEnd, hm.state]
    exact congrArg (tokens ++ ·) (Markup.Lexer.pending_eq_textTokens hm.text)
  have hfold : (Markup.tokens lifted.markup).foldlM Assembly.read { lifted, next } =
      .ok (found.foldl Assembly.add { lifted := rest, next := last }) := by
    rw [htokens, List.foldlM_append, hread]
    exact Assembly.foldlM_textTokens hprivate hpieces ha hsettle
  refine ⟨found, ?_, hfound⟩
  have hresult : (found.foldl Assembly.add { lifted := rest, next := last }).result =
      .ok found := by
    rw [Assembly.foldl_add_body, Assembly.result]
    dsimp only
    rw [if_pos hrest.isEmpty, List.append_nil, List.reverse_reverse]
  rw [Template.read, hsource]
  show Except.mapError _ (do
    let a ← (Markup.tokens lifted.markup).foldlM Assembly.read { lifted, next }
    a.result) = _
  rw [hfold]
  show Except.mapError _ (found.foldl Assembly.add { lifted := rest, next := last }).result = _
  rw [hresult]
  rfl

/-- A list of people, or a partial if there are none. -/
def people : Template :=
  [.element "ul"
    [.mk "class" (.concat [.text "list ",
      .mustache ⟨.path ⟨0, "kind", ["kind"], false, 0⟩, [], [], false⟩]),
      .mk "title" (.mustache ⟨.path ⟨1, "../title", ["title"], false, 1⟩, [], [], false⟩)]
    [.block ⟨⟨2, "each", ["each"], false, 0⟩,
        [.path ⟨3, "people.all", ["people", "all"], false, 0⟩], []⟩
      (.mk 9 [.element "li" []
        [.mustache ⟨.path ⟨4, "@index", ["index"], true, 0⟩, [], [], false⟩, .text ": ",
          .mustache ⟨.path ⟨5, "show", ["show"], false, 0⟩,
            [.call (.path ⟨6, "name", ["name"], false, 0⟩) [.literal (.string "a \"b\"")] []],
            [("short", .literal (.boolean true))], true⟩] false,
        .mustacheComment " the next one "])
      (some (.mk 10 [.partialCall ⟨"nobody", [], []⟩, .markupComment " none "]))] false]

theorem people_isReadBack :
    people.isPlain isKept = true ∧ people.printed.head? ≠ some '\ufeff' ∧
      IsMarker '\ue000' ∧ '\ue000' ∉ people.printed ∧ people.IsReadBack := by
  have hplain : people.isPlain isKept = true := by decide +kernel
  have hmark : people.printed.head? ≠ some '\ufeff' := by decide +kernel
  have hmarker : IsMarker '\ue000' := ⟨by decide, by decide⟩
  have hfree : '\ue000' ∉ people.printed := by decide +kernel
  exact ⟨hplain, hmark, hmarker, hfree,
    isReadBack_of_isPlain hplain hmark ⟨_, hmarker, hfree⟩ (by decide +kernel)⟩

/-! ### Texts that are not read back -/

def isOneText (chars : String) : Template → Bool
  | [.text found] => found == chars
  | _ => false

theorem not_isReadBack_text {chars : String} (other : String) (hne : other ≠ chars)
    (h : (Template.read (printed [.text chars])).toOption.any (isOneText other) = true) :
    ¬IsReadBack [.text chars] := by
  rintro ⟨found, hread, hfound⟩
  obtain ⟨template, hok, hcheck⟩ := exists_ok_of_check h
  rw [hread] at hok
  cases hok
  rw [isOneText.eq_def] at hcheck
  split at hcheck
  · next text =>
    cases hfound
    exact hne (beq_iff_eq.1 hcheck).symm
  · cases hcheck

def privateArea : List Char :=
  (List.range (0xF8FF - 0xE000 + 1)).map fun n => Char.ofNat (0xE000 + n)

theorem isPlain_text {kept : Char → Bool} {chars : List Char} (hne : chars ≠ [])
    (h : ∀ c ∈ chars, isTextChar kept c = true) :
    isPlain kept [.text (String.ofList chars)] = true := by
  have hchars : (String.ofList chars).toList = chars := String.toList_ofList
  have hempty : chars.isEmpty = false := List.isEmpty_eq_false_iff.2 hne
  have hall : chars.all (isTextChar kept) = true := List.all_eq_true.2 h
  simp only [isPlain, Statement.allPlain, Statement.isPlain, Statement.textsApart, hchars, hempty,
    hall]
  rfl

theorem isPlain_privateArea :
    isPlain (fun _ => true) [.text (String.ofList privateArea)] = true := by
  refine isPlain_text (by simp [privateArea]) fun c hc => ?_
  obtain ⟨n, hn, rfl⟩ := List.mem_map.1 hc
  have hmarker := isMarker_ofNat (List.mem_range.1 hn)
  simp [isTextChar, hmarker.ne]

theorem not_isReadBack_of_freeMarker? {template : Template}
    (h : freeMarker? template.printed = none) : ¬template.IsReadBack := by
  rintro ⟨found, hread, -⟩
  obtain ⟨⟨lifted, next⟩, hlifted, -⟩ := bind_eq_ok hread
  unfold Lifted.ofSource at hlifted
  rw [h] at hlifted
  cases hlifted

theorem not_isReadBack_privateArea : ¬IsReadBack [.text (String.ofList privateArea)] := by
  have hprinted (chars : List Char) : printed [.text (String.ofList chars)] = chars := by
    have hchars : (String.ofList chars).toList = chars := String.toList_ofList
    show (String.ofList chars).toList ++ [] = chars
    rw [List.append_nil, hchars]
  refine not_isReadBack_of_freeMarker? ?_
  rw [hprinted]
  refine List.find?_eq_none.2 fun c hc => ?_
  have hused : c ∈ privateArea := hc
  simp [hused]

/-- Among all characters, texts need not be read back: a line end is unified, NUL is replaced, a
byte order mark at the start is lost, and no marker is left when all are used. -/
theorem texts_not_isReadBack :
    (isPlain (fun _ => true) [.text "a\rb"] = true ∧ ¬IsReadBack [.text "a\rb"]) ∧
      (isPlain (fun _ => true) [.text "a\x00b"] = true ∧ ¬IsReadBack [.text "a\x00b"]) ∧
      (isPlain (fun _ => true) [.text "\ufeffa"] = true ∧ ¬IsReadBack [.text "\ufeffa"]) ∧
      isPlain (fun _ => true) [.text (String.ofList privateArea)] = true ∧
        ¬IsReadBack [.text (String.ofList privateArea)] := by
  refine ⟨⟨by decide +kernel, ?_⟩, ⟨by decide +kernel, ?_⟩, ⟨by decide +kernel, ?_⟩,
    isPlain_privateArea, not_isReadBack_privateArea⟩
  · exact not_isReadBack_text "a\nb" (by decide) (by decide +kernel)
  · exact not_isReadBack_text "a\ufffdb" (by decide) (by decide +kernel)
  · exact not_isReadBack_text "a" (by decide) (by decide +kernel)

end Template

end MustacheJsx
