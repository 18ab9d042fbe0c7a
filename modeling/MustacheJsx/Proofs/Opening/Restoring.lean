import Mathlib.Data.List.Nodup
import MustacheJsx.Proofs.Opening.Token
import MustacheJsx.Proofs.Reading.Basic

/-!
# Restoring the attributes of an opening tag

A value is split at the holes that its mustaches left, so it is restored to the parts that were
written, if no reference in its text spells the marker. The names that were written come back from
the spellings.
-/

namespace MustacheJsx

open Markup (valueText StartTag)

/-! ### Lifted mustaches -/

namespace Lifted

/-- The tags from the number `first` on are what these mustaches are read as. -/
def KeepsAll (lifted : Lifted) (first : Nat) (mustaches : List (List Char × Bool)) : Prop :=
  ∀ i written, mustaches[i]? = some written → ∃ m, lifted.Keeps (first + i) (.expression m) ∧
    IsReadAs written.1 m ∧ (first + i ∈ lifted.unquoted ↔ written.2 = true)

variable {lifted : Lifted} {first : Nat}

theorem KeepsAll.left {xs ys : List (List Char × Bool)} (h : lifted.KeepsAll first (xs ++ ys)) :
    lifted.KeepsAll first xs := fun i written hwritten =>
  h i written (List.getElem?_append_left (List.getElem?_eq_some_iff.1 hwritten).1 ▸ hwritten)

theorem KeepsAll.right {xs ys : List (List Char × Bool)} (h : lifted.KeepsAll first (xs ++ ys)) :
    lifted.KeepsAll (first + xs.length) ys := by
  intro i written hwritten
  have hfound : (xs ++ ys)[xs.length + i]? = some written := by
    rw [List.getElem?_append_right (Nat.le_add_right _ _), Nat.add_sub_cancel_left]
    exact hwritten
  rw [Nat.add_assoc]
  exact h _ written hfound

theorem KeepsAll.head {written : List Char × Bool} {mustaches : List (List Char × Bool)}
    (h : lifted.KeepsAll first (written :: mustaches)) : ∃ m, lifted.Keeps first (.expression m) ∧
      IsReadAs written.1 m ∧ (first ∈ lifted.unquoted ↔ written.2 = true) :=
  h 0 written rfl

theorem KeepsAll.tail {written : List Char × Bool} {mustaches : List (List Char × Bool)}
    (h : lifted.KeepsAll first (written :: mustaches)) : lifted.KeepsAll (first + 1) mustaches :=
  @KeepsAll.right lifted first [written] mustaches h

theorem Keeps.unique {index : Nat} {placeholder other : Placeholder}
    (h : lifted.Keeps index placeholder) (h' : lifted.Keeps index other) : placeholder = other :=
  Option.some.inj (Option.some.inj (h.symm.trans h'))

end Lifted

/-! ### Values -/

section

variable {lifted : Lifted} {marker : Char} {first : Nat}

theorem forall₂_denotes {parts : List ValuePart} {lone : Bool} {statements : List Statement}
    (hkeeps : lifted.KeepsAll first
      ((parts.filterMap ValuePart.mustache?).map fun source => (source, lone)))
    (h : lifted.Restores ((ValuePart.pieces first parts).map Piece.decoded) statements) :
    List.Forall₂ ValuePart.Denotes parts statements := by
  induction parts generalizing first statements with
  | nil =>
    cases h
    exact .nil
  | cons part parts ih =>
    cases part with
    | text chars =>
      cases h with
      | text hrest => exact .cons (.text chars) (ih hkeeps hrest)
    | mustache source =>
      obtain ⟨m, hm, hread, -⟩ := hkeeps.head
      cases h with
      | mustache hfound hrest =>
        cases hm.unique hfound
        exact .cons (.mustache hread) (ih hkeeps.tail hrest)
      | partialCall hfound hrest => cases hm.unique hfound

theorem exists_mustache_of_hole {parts : List ValuePart} {index : Option Nat}
    (h : .hole index ∈ (ValuePart.pieces first parts).map Piece.decoded) :
    ∃ source, .mustache source ∈ parts := by
  induction parts generalizing first with
  | nil => cases h
  | cons part parts ih =>
    cases part with
    | text chars =>
      rcases List.mem_cons.1 h with heq | h
      · cases heq
      · obtain ⟨source, hsource⟩ := ih h
        exact ⟨source, List.mem_cons_of_mem _ hsource⟩
    | mustache source => exact ⟨source, List.mem_cons_self⟩

theorem exists_hole_of_mustache (first : Nat) {parts : List ValuePart} {source : List Char}
    (h : .mustache source ∈ parts) :
    ∃ index, .hole index ∈ (ValuePart.pieces first parts).map Piece.decoded := by
  induction parts generalizing first with
  | nil => cases h
  | cons part parts ih =>
    cases part with
    | text chars =>
      rcases List.mem_cons.1 h with heq | h
      · cases heq
      · obtain ⟨index, hindex⟩ := ih first h
        exact ⟨index, List.mem_cons_of_mem _ hindex⟩
    | mustache other => exact ⟨some first, List.mem_cons_self⟩

theorem rendered_decoded {parts : List ValuePart} (h : ∀ source, .mustache source ∉ parts) :
    ((ValuePart.pieces first parts).map Piece.decoded).flatMap (Piece.rendered marker) =
      parts.flatMap ValuePart.denotedText := by
  induction parts with
  | nil => rfl
  | cons part parts ih =>
    have hrest := ih fun source hmem => h source (List.mem_cons_of_mem _ hmem)
    cases part with
    | text chars =>
      rw [ValuePart.pieces, List.map_cons, List.flatMap_cons, hrest]
      rfl
    | mustache source => exact absurd List.mem_cons_self (h source)

/-- No reference in the text of the parts spells the marker. -/
def ValuePart.AvoidMarker (marker : Char) (parts : List ValuePart) : Prop :=
  ∀ part ∈ parts, marker ∉ part.denotedText

theorem separated_decoded {parts : List ValuePart} (hne : ∀ chars, .text chars ∈ parts → chars ≠ [])
    (hapart : parts.IsChain ValuePart.Apart) (havoids : ValuePart.AvoidMarker marker parts)
    (hbound : first + (parts.filterMap ValuePart.mustache?).length ≤ Nat.pow 2 64) :
    Piece.Separated marker ((ValuePart.pieces first parts).map Piece.decoded) := by
  induction parts generalizing first with
  | nil => exact ⟨nofun, List.isChain_nil⟩
  | cons part parts ih =>
    obtain ⟨hhead, htail⟩ := List.isChain_cons.1 hapart
    have hrest := fun n => @ih n (fun chars hmem => hne chars (List.mem_cons_of_mem _ hmem))
      htail fun part hmem => havoids part (List.mem_cons_of_mem _ hmem)
    cases part with
    | text chars =>
      have hseparated := hrest first hbound
      refine ⟨fun piece hmem => ?_, ?_⟩
      · rcases List.mem_cons.1 hmem with rfl | hmem
        · exact ⟨Markup.valueText_ne_nil (hne chars List.mem_cons_self),
            havoids _ List.mem_cons_self⟩
        · exact hseparated.good piece hmem
      · refine List.isChain_cons.2 ⟨fun next hnext htexts => ?_, hseparated.apart⟩
        cases parts with
        | nil => cases hnext
        | cons part parts =>
          cases part with
          | text other => exact hhead _ rfl
          | mustache source =>
            cases hnext
            exact absurd htexts.2 Bool.false_ne_true
    | mustache source =>
      rw [List.filterMap_cons_some (f := ValuePart.mustache?) rfl, List.length_cons] at hbound
      have hseparated := hrest (first + 1) (by omega)
      refine ⟨fun piece hmem => ?_, ?_⟩
      · rcases List.mem_cons.1 hmem with rfl | hmem
        · exact ⟨first, by omega, rfl⟩
        · exact hseparated.good piece hmem
      · exact List.isChain_cons.2 ⟨fun next _ htexts => absurd htexts.1 Bool.false_ne_true,
          hseparated.apart⟩

end

namespace SourceValue

variable {lifted : Lifted} {marker : Char} {first : Nat} {value : SourceValue}

theorem separated (hvalue : value.IsWritten) (havoids : ValuePart.AvoidMarker marker value.parts)
    (hbound : first + value.mustaches.length ≤ Nat.pow 2 64) :
    Piece.Separated marker (value.decodedPieces first) := by
  rw [mustaches, List.length_map] at hbound
  exact separated_decoded (fun chars hmem => (hvalue.texts chars hmem).1) hvalue.apart havoids
    hbound

theorem denotes_of_restoresValue (hmarker : IsMarker lifted.marker) (hvalue : value.IsWritten)
    (havoids : ValuePart.AvoidMarker lifted.marker value.parts)
    (hbound : first + value.mustaches.length ≤ Nat.pow 2 64)
    (hkeeps : lifted.KeepsAll first value.mustaches) {found : AttributeValue}
    (h : lifted.RestoresValue (value.decoded lifted.marker first) found) : value.Denotes found := by
  have hseparated := separated hvalue havoids hbound
  have hsplit : Piece.split lifted.marker (value.decoded lifted.marker first) =
      value.decodedPieces first := Piece.split_rendered hmarker hseparated
  cases h with
  | text hnone =>
    rw [hsplit] at hnone
    have htexts : ∀ source, .mustache source ∉ value.parts := by
      intro source hmem
      obtain ⟨index, hindex⟩ := exists_hole_of_mustache first hmem
      exact hnone index hindex
    rw [decoded, decodedPieces, rendered_decoded htexts]
    exact .text htexts
  | @mustache index m hlone hfound =>
    have hpieces := Piece.eq_singleton_of_whole? hmarker hseparated hlone.1
    have hparts : ∃ source, value.parts = [.mustache source] ∧ index = first := by
      rw [decodedPieces] at hpieces
      match hcases : value.parts, hpieces with
      | [.mustache source], rfl => exact ⟨source, rfl, rfl⟩
    obtain ⟨source, hparts, rfl⟩ := hparts
    have hmustaches : value.mustaches = [(source, value.lone?.isSome)] := by
      rw [mustaches, hparts]
      rfl
    rw [hmustaches] at hkeeps
    obtain ⟨m', hkept, hread, hunquoted⟩ := hkeeps.head
    cases hkept.unique hfound
    obtain ⟨source', hsource⟩ := Option.isSome_iff_exists.1 (hunquoted.1 hlone.2)
    have hsame := (lone?_eq_some hsource).2
    rw [hparts] at hsame
    cases hsame
    exact .mustache hsource hread
  | concat hmem hnone hparts =>
    rw [hsplit] at hmem hparts
    obtain ⟨source, hsource⟩ := exists_mustache_of_hole hmem
    refine .concat ?_ hsource (forall₂_denotes hkeeps hparts)
    cases hlone : value.lone? with
    | none => rfl
    | some source =>
      obtain ⟨-, hlist⟩ := lone?_eq_some hlone
      have hmustaches : value.mustaches = [(source, true)] := by
        rw [mustaches, hlist, hlone]
        rfl
      have hdecoded : value.decoded lifted.marker first = placeholderText lifted.marker first := by
        rw [decoded, decodedPieces, hlist]
        exact List.append_nil _
      rw [hmustaches] at hkeeps hbound
      obtain ⟨m, -, -, hunquoted⟩ := hkeeps.head
      refine absurd ⟨?_, hunquoted.2 rfl⟩ (hnone first)
      rw [hdecoded]
      exact Piece.whole?_placeholderText hmarker (Nat.lt_of_succ_le hbound)

end SourceValue

/-! ### Attributes -/

namespace SourceAttribute

/-- No reference in the value spells the marker. -/
def AvoidsMarker (marker : Char) (entry : SourceAttribute) : Prop :=
  ∀ value ∈ entry.value, ValuePart.AvoidMarker marker value.parts

variable {lifted : Lifted} {first : Nat} {spellings : List (List Char)}

theorem denotes_of_restoresAttribute (hmarker : IsMarker lifted.marker) {entry : SourceAttribute}
    (hentry : entry.IsWritten) (havoids : entry.AvoidsMarker lifted.marker)
    (hbound : first + entry.mustaches.length ≤ Nat.pow 2 64)
    (hkeeps : lifted.KeepsAll first entry.mustaches)
    (hspelling : Assembly.spellingOf spellings (smallName entry.name) = String.ofList entry.name)
    {found : Attribute}
    (h : lifted.RestoresAttribute spellings (entry.decoded lifted.marker first) found) :
    entry.Denotes found := by
  obtain ⟨hname, hvalue⟩ := h
  refine ⟨hname.trans hspelling, ?_⟩
  rw [decoded, String.toList_ofList] at hvalue
  cases hcases : entry.value with
  | some value =>
    rw [hcases] at hvalue
    rw [mustaches, hcases] at hbound hkeeps
    exact SourceValue.denotes_of_restoresValue hmarker (hentry.value value hcases)
      (havoids value hcases) hbound hkeeps hvalue
  | none =>
    rw [hcases] at hvalue
    show found.value = .text ""
    generalize found.value = restored at hvalue ⊢
    cases hvalue with
    | text hnone => rfl
    | mustache hlone hfound => cases hlone.1
    | concat hmem hnone hparts => cases hmem

theorem forall₂_denotes (hmarker : IsMarker lifted.marker) {attributes : List SourceAttribute}
    (hattributes : ∀ entry ∈ attributes, entry.IsWritten)
    (havoids : ∀ entry ∈ attributes, entry.AvoidsMarker lifted.marker)
    (hbound : first + (attributes.flatMap mustaches).length ≤ Nat.pow 2 64)
    (hkeeps : lifted.KeepsAll first (attributes.flatMap mustaches))
    (hspellings : ∀ entry ∈ attributes,
      Assembly.spellingOf spellings (smallName entry.name) = String.ofList entry.name)
    {found : List Attribute} (h : List.Forall₂ (lifted.RestoresAttribute spellings)
      (decodedOfAll lifted.marker first attributes) found) :
    List.Forall₂ Denotes attributes found := by
  induction attributes generalizing first found with
  | nil =>
    cases h
    exact .nil
  | cons entry attributes ih =>
    rw [List.flatMap_cons, List.length_append] at hbound
    rw [List.flatMap_cons] at hkeeps
    cases h with
    | cons hfirst hrest =>
      refine .cons ?_ ?_
      · exact denotes_of_restoresAttribute hmarker (hattributes entry List.mem_cons_self)
          (havoids entry List.mem_cons_self) (by omega) hkeeps.left
          (hspellings entry List.mem_cons_self) hfirst
      · exact ih (fun other hmem => hattributes other (List.mem_cons_of_mem _ hmem))
          (fun other hmem => havoids other (List.mem_cons_of_mem _ hmem)) (by omega) hkeeps.right
          (fun other hmem => hspellings other (List.mem_cons_of_mem _ hmem)) hrest

end SourceAttribute

/-! ### Spellings -/

theorem smallName_of_not_upper {name : List Char} (h : name.any Text.isAsciiUpper = false) :
    smallName name = String.ofList name := by
  rw [List.any_eq_false] at h
  rw [smallName, List.map_congr_left fun c hc => Markup.Lexer.lowerAscii_of_not_upper
    (Bool.eq_false_iff.2 (h c hc)), List.map_id']

theorem lowerAscii_lowerAscii (c : Char) :
    Text.lowerAscii (Text.lowerAscii c) = Text.lowerAscii c := by
  by_cases hupper : Text.isAsciiUpper c = true
  · refine Markup.Lexer.lowerAscii_of_not_upper ?_
    simp only [Text.isAsciiUpper, Bool.and_eq_true, decide_eq_true_eq, Char.le_def,
      UInt32.le_iff_toNat_le] at hupper
    have hlow : 65 ≤ c.val.toNat := hupper.1
    have hhigh : c.val.toNat ≤ 90 := hupper.2
    have hval : (Text.lowerAscii c).val.toNat = c.val.toNat + 32 := by
      rw [Text.lowerAscii]
      delta Char.toLower
      rw [dif_pos ⟨hupper.1, hupper.2⟩]
      show (c.val + 32).toNat = _
      rw [UInt32.toNat_add]
      exact Nat.mod_eq_of_lt (by
        show c.val.toNat + 32 < 2 ^ 32
        omega)
    simp only [Text.isAsciiUpper, Bool.and_eq_false_iff, decide_eq_false_iff_not, Char.le_def,
      UInt32.le_iff_toNat_le, hval]
    right
    show ¬ c.val.toNat + 32 ≤ 90
    omega
  · rw [Markup.Lexer.lowerAscii_of_not_upper (Bool.eq_false_iff.2 hupper),
      Markup.Lexer.lowerAscii_of_not_upper (Bool.eq_false_iff.2 hupper)]

theorem map_lowerAscii_smallName (name : List Char) :
    (smallName name).toList.map Text.lowerAscii = name.map Text.lowerAscii := by
  rw [smallName, String.toList_ofList, List.map_map]
  exact List.map_congr_left fun c _ => lowerAscii_lowerAscii c

theorem spellingOf_casedNames {attributes : List SourceAttribute}
    (hdistinct : (attributes.map fun entry => smallName entry.name).Nodup) :
    ∀ entry ∈ attributes, Assembly.spellingOf (casedNames attributes) (smallName entry.name) =
      String.ofList entry.name := by
  intro entry hentry
  have hsame : ∀ name ∈ casedNames attributes,
      name.map Text.lowerAscii = entry.name.map Text.lowerAscii → name = entry.name := by
    intro name hmem hlower
    obtain ⟨other, hother, rfl⟩ := List.mem_map.1 (List.mem_filter.1 hmem).1
    have hsmall : smallName other.name = smallName entry.name := by
      rw [smallName, hlower, smallName]
    rw [List.inj_on_of_nodup_map hdistinct hother hentry hsmall]
  rw [Assembly.spellingOf]
  split
  · next found hfound =>
    have hequal := List.find?_some hfound
    rw [map_lowerAscii_smallName, beq_iff_eq] at hequal
    rw [hsame found (List.mem_of_find?_eq_some hfound) hequal]
  · next hnone =>
    refine smallName_of_not_upper (Bool.eq_false_iff.2 fun hupper => ?_)
    have hmem : entry.name ∈ casedNames attributes :=
      List.mem_filter.2 ⟨List.mem_map_of_mem hentry, hupper⟩
    have hdiffers := List.find?_eq_none.1 hnone entry.name hmem
    rw [map_lowerAscii_smallName, beq_self_eq_true] at hdiffers
    exact hdiffers rfl

theorem wordsAfter_append {chars : List Char} (h : ∀ c ∈ chars, Text.isBlank c = false)
    (word rest : List Char) :
    Text.wordsAfter word (chars ++ rest) = Text.wordsAfter (chars.reverse ++ word) rest := by
  induction chars generalizing word with
  | nil => rfl
  | cons c chars ih =>
    have hc : ¬ Text.isBlank c = true := Bool.eq_false_iff.1 (h c List.mem_cons_self)
    rw [List.cons_append, Text.wordsAfter, if_neg hc,
      ih fun d hd => h d (List.mem_cons_of_mem c hd), List.reverse_cons, List.append_assoc]
    rfl

theorem words_joinWith {names : List (List Char)}
    (h : ∀ name ∈ names, name ≠ [] ∧ ∀ c ∈ name, Text.isBlank c = false) :
    Text.words (Text.joinWith ' ' names) = names := by
  rw [Text.words]
  induction names with
  | nil => rfl
  | cons name names ih =>
    obtain ⟨hne, hchars⟩ := h name List.mem_cons_self
    have hempty : name.reverse.isEmpty = false := by
      rw [List.isEmpty_reverse, List.isEmpty_eq_false_iff]
      exact hne
    have hrest := ih fun other hmem => h other (List.mem_cons_of_mem name hmem)
    cases names with
    | nil =>
      have hread := wordsAfter_append hchars [] []
      rw [List.append_nil, List.append_nil] at hread
      rw [Text.joinWith, hread, Text.wordsAfter, hempty, List.reverse_reverse]
      rfl
    | cons next names =>
      show Text.wordsAfter [] (name ++ ' ' :: Text.joinWith ' ' (next :: names)) = _
      rw [wordsAfter_append hchars, List.append_nil, Text.wordsAfter,
        if_pos (by decide : Text.isBlank ' ' = true), hempty, List.reverse_reverse, hrest]
      rfl

/-! ### The token of a tag -/

theorem valueText_of_forall {chars : List Char}
    (h : ∀ c ∈ chars, c ≠ '&' ∧ c ≠ '\r' ∧ c ≠ '\x00') : valueText chars = chars := by
  rw [valueText, Markup.Lexer.unifyLineEnds_of_forall fun c hc => (h c hc).2.1]
  induction chars with
  | nil => rfl
  | cons c chars ih =>
    obtain ⟨hamp, -, hnul⟩ := h c List.mem_cons_self
    rw [Markup.valueTextAfter, if_neg hamp, Markup.Lexer.visible_of_ne hnul,
      ih fun d hd => h d (List.mem_cons_of_mem c hd)]

theorem decoded_spellingEntry (marker : Char) (first : Nat) (blanks : List Char) {key : String}
    (hkey : smallName key.toList = key) {spelling : List Char}
    (hspelling : ∀ c ∈ spelling, c = ' ' ∨ IsNamePart c) :
    (spellingEntry blanks key spelling).decoded marker first = (key, String.ofList spelling) := by
  have htext : valueText spelling = spelling := by
    refine valueText_of_forall fun c hc => ?_
    rcases hspelling c hc with rfl | hpart
    · decide
    · exact ⟨hpart.amp, (Markup.Lexer.isMarkupBlank_of_isBlank hpart.blank).2.2, hpart.nul⟩
  refine Prod.ext hkey ?_
  show String.ofList (valueText spelling ++ []) = _
  rw [htext, List.append_nil]

namespace SourceTag

variable {tag : SourceTag}

theorem attributes_token (htag : tag.IsWritten) (marker : Char) (first : Nat) :
    (tag.token marker first).attributes =
      (if tag.name.any Text.isAsciiUpper then [(tagSpelling, String.ofList tag.name)] else []) ++
        (SourceAttribute.decodedOfAll marker first tag.attributes ++
          if (casedNames tag.attributes).isEmpty then []
          else [(attributeSpellings,
            String.ofList (Text.joinWith ' ' (casedNames tag.attributes)))]) := by
  have hname : ∀ n, SourceAttribute.decodedOfAll marker n tag.nameEntries =
      if tag.name.any Text.isAsciiUpper then [(tagSpelling, String.ofList tag.name)] else [] := by
    intro n
    rw [nameEntries]
    split
    · rw [SourceAttribute.decodedOfAll, decoded_spellingEntry marker n _ (by decide)
        fun c hc => .inr (isNamePart_of_isTagNameChar (htag.name.2 c hc))]
      rfl
    · rfl
  have hlast : ∀ n, SourceAttribute.decodedOfAll marker n tag.attributeEntries =
      if (casedNames tag.attributes).isEmpty then []
      else [(attributeSpellings,
        String.ofList (Text.joinWith ' ' (casedNames tag.attributes)))] := by
    intro n
    rw [attributeEntries]
    split
    · rfl
    · rw [SourceAttribute.decodedOfAll, decoded_spellingEntry marker n _ (by decide) fun c hc => ?_]
      · rfl
      · rcases Lifting.mem_joinWith hc with rfl | ⟨name, hmem, hc⟩
        · exact .inl rfl
        · exact .inr ((isNamePart_of_mem_casedNames htag name hmem).2 c hc)
  rw [token, entries, SourceAttribute.decodedOfAll_append, SourceAttribute.decodedOfAll_append,
    hname, hlast, mustaches_nameEntries, List.append_assoc]
  rfl

theorem own_decodedOfAll (htag : tag.IsWritten) (marker : Char) (first : Nat) :
    ∀ entry ∈ SourceAttribute.decodedOfAll marker first tag.attributes,
      entry.1 ≠ tagSpelling ∧ entry.1 ≠ attributeSpellings := by
  intro entry hentry
  have hname := List.mem_map_of_mem (f := Prod.fst) hentry
  rw [SourceAttribute.map_fst_decodedOfAll] at hname
  obtain ⟨written, hwritten, heq⟩ := List.mem_map.1 hname
  rw [← heq]
  exact htag.own written hwritten

theorem ownAttributes_token (htag : tag.IsWritten) (marker : Char) (first : Nat) :
    ownAttributes (tag.token marker first) =
      SourceAttribute.decodedOfAll marker first tag.attributes := by
  have hown : (SourceAttribute.decodedOfAll marker first tag.attributes).filter isOwn =
      SourceAttribute.decodedOfAll marker first tag.attributes := by
    refine List.filter_eq_self.2 fun entry hentry => ?_
    obtain ⟨htagName, hnames⟩ := own_decodedOfAll htag marker first entry hentry
    simp [isOwn, htagName, hnames]
  rw [ownAttributes, attributes_token htag, List.filter_append, List.filter_append, hown]
  split <;> split <;> simp [isOwn]

theorem attribute?_token (htag : tag.IsWritten) (marker : Char) (first : Nat) {key : String}
    (hkey : key = tagSpelling ∨ key = attributeSpellings) :
    (SourceAttribute.decodedOfAll marker first tag.attributes).find? (fun entry => entry.1 == key) =
      none := by
  refine List.find?_eq_none.2 fun entry hentry heq => ?_
  obtain ⟨htagName, hnames⟩ := own_decodedOfAll htag marker first entry hentry
  rcases hkey with rfl | rfl
  · exact htagName (beq_iff_eq.1 heq)
  · exact hnames (beq_iff_eq.1 heq)

theorem writtenName_token (htag : tag.IsWritten) (marker : Char) (first : Nat) :
    writtenName (tag.token marker first) = String.ofList tag.name := by
  rw [writtenName, StartTag.attribute?, attributes_token htag, List.find?_append, List.find?_append,
    attribute?_token htag marker first (.inl rfl)]
  split
  · rfl
  · next hupper =>
    have hsmall := smallName_of_not_upper (Bool.eq_false_iff.2 hupper)
    split
    · exact hsmall
    · exact hsmall

theorem writtenSpellings_token (htag : tag.IsWritten) (marker : Char) (first : Nat) :
    writtenSpellings (tag.token marker first) = casedNames tag.attributes := by
  have hwords := words_joinWith fun name hmem =>
    ⟨(isNamePart_of_mem_casedNames htag name hmem).1,
      fun c hc => ((isNamePart_of_mem_casedNames htag name hmem).2 c hc).blank⟩
  have hfirst : (if tag.name.any Text.isAsciiUpper then [(tagSpelling, String.ofList tag.name)]
      else []).find? (fun entry => entry.1 == attributeSpellings) = none := by
    split <;> rfl
  rw [writtenSpellings, StartTag.attribute?, attributes_token htag, List.find?_append,
    List.find?_append, attribute?_token htag marker first (.inr rfl), hfirst]
  split
  · next hempty =>
    rw [List.isEmpty_iff.1 hempty]
    rfl
  · show Text.words (String.ofList _).toList = _
    rw [String.toList_ofList]
    exact hwords

/-- The attributes that a tag is restored to are those that were written. -/
theorem forall₂_denotes {lifted : Lifted} {first : Nat} (hmarker : IsMarker lifted.marker)
    (htag : tag.IsWritten) (havoids : ∀ entry ∈ tag.attributes, entry.AvoidsMarker lifted.marker)
    (hbound : first + tag.mustaches.length ≤ Nat.pow 2 64)
    (hkeeps : lifted.KeepsAll first tag.mustaches) {found : List Attribute}
    (h : lifted.RestoresAttributes (tag.token lifted.marker first) found) :
    List.Forall₂ SourceAttribute.Denotes tag.attributes found := by
  rw [Lifted.RestoresAttributes, ownAttributes_token htag, writtenSpellings_token htag] at h
  exact SourceAttribute.forall₂_denotes hmarker htag.attributes havoids hbound hkeeps
    (spellingOf_casedNames htag.distinct) h

end SourceTag

end MustacheJsx
