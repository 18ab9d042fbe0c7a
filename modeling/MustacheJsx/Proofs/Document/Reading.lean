import MustacheJsx.Proofs.Document.Lexing
import MustacheJsx.Proofs.Reading.Strings

/-!
# The template of a document

When a document is read, each part settles what stands before it: the tokens that it ends show the
strings of the document, and leave its landmarks. So the template has no string that was not
written, and every tag of the document is in it, where it was written:
`Template.strings_and_landmarks_of_read`.
-/

namespace MustacheJsx

open Markup (Token StartTag)
open Markup.Lexer (textTokens)

/-! ### Landmarks of parts -/

def Part.landmarks : Part → List Landmark
  | .tag t => t.landmarks
  | .opening _ slots => slots.map fun slot => .tag slot.1
  | _ => []

theorem Tag.landmarks_of_slots {t : Tag} {placeholder : Placeholder} {lone : Bool}
    (h : t.slots = [(placeholder, lone)]) : t.landmarks = [.tag placeholder] := by
  cases t with
  | elseBranch chain =>
    cases chain with
    | none => cases h
    | some head =>
      cases h
      rfl
  | closeBlock name => cases h
  | _ =>
    cases h
    rfl

theorem Segment.Becomes.leaves {segment : Segment} {part : Part} (h : segment.Becomes part) :
    segment.Leaves part.landmarks := by
  cases h with
  | text chars => exact .text chars
  | mustache hread => exact .mustache hread
  | comment form value => exact .comment form value
  | doctype chars => exact .doctype chars
  | closing name blanks => exact .closing name blanks
  | @opening tag slots hslots =>
    have hmustaches : ∀ {written : List (List Char × Bool)} {slots : List Slot},
        List.Forall₂ TakesSlot written slots → ∃ mustaches : List Mustache,
          List.Forall₂ IsReadAs (written.map Prod.fst) mustaches ∧
            (slots.map fun slot => Landmark.tag slot.1) =
              mustaches.map fun m => .tag (.expression m) := by
      intro written slots hslots
      induction hslots with
      | nil => exact ⟨[], .nil, rfl⟩
      | cons hslot _ ih =>
        obtain ⟨-, m, hm, hread⟩ := hslot
        obtain ⟨mustaches, hall, heq⟩ := ih
        refine ⟨m :: mustaches, .cons hread hall, ?_⟩
        rw [List.map_cons, List.map_cons, heq, hm]
    obtain ⟨mustaches, hall, heq⟩ := hmustaches hslots
    rw [Part.landmarks, heq]
    exact .opening hall

/-! ### What text stands for -/

theorem contentText_ne_nil (refs : Bool) {cs : List Char} (h : cs ≠ []) :
    contentText refs cs ≠ [] := by
  have hunified := Markup.Lexer.unifyLineEnds_ne_nil h
  rw [contentText]
  cases hcs : Markup.Lexer.unifyLineEnds cs with
  | nil => exact absurd hcs hunified
  | cons c cs =>
    rw [contentTextAfter]
    split
    · split
      · next hread =>
        exact List.append_ne_nil_of_left_ne_nil
          (fun hnil => (Markup.Reference.read?_bounds hread).1 (List.map_eq_nil_iff.1 hnil)) _
      · exact List.cons_ne_nil _ _
    · exact List.cons_ne_nil _ _

theorem mem_of_mem_contentText {marker : Char} (hmarker : IsMarker marker) {cs : List Char}
    (h : marker ∈ contentText false cs) : marker ∈ cs := by
  rw [contentText_false] at h
  obtain ⟨c, hc, hvisible⟩ := List.mem_map.1 h
  rw [Markup.Lexer.visible] at hvisible
  split at hvisible
  · obtain ⟨-, hhigh⟩ := hmarker
    rw [← hvisible] at hhigh
    exact absurd hhigh (by decide)
  · subst hvisible
    rcases Markup.Lexer.mem_of_mem_unifyLineEnds hc with heq | hmem
    · exact absurd heq (hmarker.ne (by decide))
    · exact hmem

theorem unescaped_ne_nil {chars : List Char} (h : chars ≠ []) : unescaped chars ≠ [] := by
  rw [unescaped.eq_def]
  split
  · exact List.cons_ne_nil _ _
  · exact List.cons_ne_nil _ _
  · exact absurd rfl h

namespace Lifted

variable {lifted : Lifted} {P : String → Prop} {first : Nat} {refs : Bool} {pending : List Piece}

/-! ### Slots -/

/-- The tags from the number `first` on are those of the slots. -/
def KeepsSlots (lifted : Lifted) (first : Nat) (slots : List Slot) : Prop :=
  ∀ i slot, slots[i]? = some slot → lifted.Keeps (first + i) slot.1 ∧
    (first + i ∈ lifted.unquoted ↔ slot.2 = true)

theorem KeepsSlots.left {xs ys : List Slot} (h : lifted.KeepsSlots first (xs ++ ys)) :
    lifted.KeepsSlots first xs := fun i slot hslot =>
  h i slot (List.getElem?_append_left (List.getElem?_eq_some_iff.1 hslot).1 ▸ hslot)

theorem KeepsSlots.right {xs ys : List Slot} (h : lifted.KeepsSlots first (xs ++ ys)) :
    lifted.KeepsSlots (first + xs.length) ys := by
  intro i slot hslot
  have hfound : (xs ++ ys)[xs.length + i]? = some slot := by
    rw [List.getElem?_append_right (Nat.le_add_right _ _), Nat.add_sub_cancel_left]
    exact hslot
  rw [Nat.add_assoc]
  exact h _ slot hfound

theorem KeepsSlots.tail {slot : Slot} {slots : List Slot}
    (h : lifted.KeepsSlots first (slot :: slots)) : lifted.KeepsSlots (first + 1) slots :=
  @right lifted first [slot] slots h

theorem KeepsSlots.head {slot : Slot} {slots : List Slot}
    (h : lifted.KeepsSlots first (slot :: slots)) : lifted.Keeps first slot.1 := (h 0 slot rfl).1

theorem KeepsSlots.keepsAll {mustaches : List (List Char × Bool)} {slots : List Slot}
    (h : lifted.KeepsSlots first slots) (hslots : List.Forall₂ TakesSlot mustaches slots) :
    lifted.KeepsAll first mustaches := by
  induction hslots generalizing first with
  | nil => exact nofun
  | @cons written slot mustaches slots hslot _ ih =>
    obtain ⟨hlone, m, hm, hread⟩ := hslot
    intro i other hother
    cases i with
    | zero =>
      cases hother
      obtain ⟨hkeeps, hunquoted⟩ := h 0 slot rfl
      rw [hm] at hkeeps
      rw [hlone] at hunquoted
      exact ⟨m, hkeeps, hread, hunquoted⟩
    | succ i =>
      rw [← Nat.add_assoc, Nat.add_right_comm]
      exact ih h.tail i other hother

theorem KeepsSlots.landmarksAt {slots : List Slot} (h : lifted.KeepsSlots first slots) :
    lifted.landmarksAt (List.range' first slots.length) = slots.map fun slot => .tag slot.1 := by
  induction slots generalizing first with
  | nil => rfl
  | cons slot slots ih =>
    rw [List.length_cons, List.range'_succ, h.head.landmarksAt, ih h.tail]
    rfl

/-! ### Text that is pending -/

/-- The pieces of a text can be told apart, and its strings have the property. -/
structure IsPending (lifted : Lifted) (P : String → Prop) (pending : List Piece) : Prop where
  separated : Piece.Separated lifted.marker pending
  texts : ∀ chars, .text chars ∈ pending → P (String.ofList chars)

def landmarksOf (lifted : Lifted) (pending : List Piece) : List Landmark :=
  lifted.landmarksAt (pending.filterMap Piece.mark?)

theorem isPending_nil : lifted.IsPending P [] := ⟨⟨nofun, List.isChain_nil⟩, nofun⟩

/-- The token of a text that is pending has its landmarks and shows its strings. -/
theorem IsPending.settles (hmarker : IsMarker lifted.marker) (h : lifted.IsPending P pending) :
    (textTokens (pending.flatMap (Piece.rendered lifted.marker))).flatMap lifted.landmarks =
        lifted.landmarksOf pending ∧
      ∀ token ∈ textTokens (pending.flatMap (Piece.rendered lifted.marker)),
        lifted.Shows P token := by
  have hsplit := Piece.split_rendered hmarker h.separated
  generalize pending.flatMap (Piece.rendered lifted.marker) = chars at hsplit
  cases chars with
  | nil =>
    have hnil : pending = [] := hsplit.symm
    rw [hnil]
    exact ⟨rfl, nofun⟩
  | cons c cs =>
    have hsingle : textTokens (c :: cs) = [.text (c :: cs)] := rfl
    rw [hsingle, List.flatMap_singleton]
    refine ⟨?_, fun token hmem => ?_⟩
    · show lifted.landmarksAt ((Piece.split lifted.marker (c :: cs)).filterMap Piece.mark?) = _
      rw [hsplit]
      rfl
    · cases List.mem_singleton.1 hmem
      intro text htext
      rw [hsplit] at htext
      exact h.texts text htext

theorem IsPending.concat_hole (h : lifted.IsPending P pending) (hfirst : first < Nat.pow 2 64) :
    lifted.IsPending P (pending ++ [.hole (some first)]) := by
  refine ⟨h.separated.concat ⟨first, hfirst, rfl⟩ fun _ _ htexts => ?_, fun chars hmem => ?_⟩
  · cases htexts.2
  · rcases List.mem_append.1 hmem with hmem | hmem
    · exact h.texts chars hmem
    · cases List.mem_singleton.1 hmem

theorem IsPending.concat_text (h : lifted.IsPending P pending) {chars : List Char}
    (hne : chars ≠ []) (havoids : lifted.marker ∉ chars) (hshows : P (String.ofList chars))
    (hlast : ∀ last ∈ pending.getLast?, last.isText = false) :
    lifted.IsPending P (pending ++ [.text chars]) := by
  refine ⟨h.separated.concat ⟨hne, havoids⟩ fun last hmem htexts => ?_, fun other hmem => ?_⟩
  · rw [hlast last hmem] at htexts
    cases htexts.1
  · rcases List.mem_append.1 hmem with hmem | hmem
    · exact h.texts other hmem
    · cases List.mem_singleton.1 hmem
      exact hshows

theorem landmarksOf_concat (pending : List Piece) (piece : Piece) :
    lifted.landmarksOf (pending ++ [piece]) =
      lifted.landmarksOf pending ++ lifted.landmarksAt piece.mark?.toList := by
  have hsingle : [piece].filterMap Piece.mark? = piece.mark?.toList := by
    cases hmark : piece.mark? <;> simp [hmark]
  rw [landmarksOf, List.filterMap_append, landmarksAt_append, hsingle]
  rfl

/-! ### One part after the other -/

/-- What the tokens that a part ends have to do with what was pending before it and is pending
after it. -/
structure Settles (lifted : Lifted) (P : String → Prop) (part : Part) (pending : List Piece)
    (tokens : List Token) (next : List Piece) : Prop where
  landmarks : tokens.flatMap lifted.landmarks ++ lifted.landmarksOf next =
    lifted.landmarksOf pending ++ part.landmarks
  shows : ∀ token ∈ tokens, lifted.Shows P token
  pending : lifted.IsPending P next

theorem settles_of_token (hmarker : IsMarker lifted.marker) (hpending : lifted.IsPending P pending)
    {part : Part} {token : Token} (hlandmarks : lifted.landmarks token = part.landmarks)
    (hshows : lifted.Shows P token) : lifted.Settles P part pending
      (textTokens (pending.flatMap (Piece.rendered lifted.marker)) ++ [token]) [] := by
  obtain ⟨hbefore, hall⟩ := hpending.settles hmarker
  refine ⟨?_, fun other hmem => ?_, isPending_nil⟩
  · rw [List.flatMap_append, List.flatMap_singleton, hbefore, hlandmarks, landmarksOf]
    exact List.append_nil _
  · rcases List.mem_append.1 hmem with hmem | hmem
    · exact hall other hmem
    · cases List.mem_singleton.1 hmem
      exact hshows

theorem settles_of_piece {part : Part} {piece : Piece}
    (hpending : lifted.IsPending P (pending ++ [piece]))
    (hlandmarks : lifted.landmarksAt piece.mark?.toList = part.landmarks) :
    lifted.Settles P part pending [] (pending ++ [piece]) := by
  refine ⟨?_, nofun, hpending⟩
  rw [landmarksOf_concat, hlandmarks]
  rfl

theorem number?_numberAttributes (tag : String) (hfirst : first < Nat.pow 2 64) :
    number? ⟨tag, numberAttributes first, false⟩ = some first := by
  have hfind : StartTag.attribute? ⟨tag, numberAttributes first, false⟩ numberAttribute =
      some (String.ofList (Nat.toDigits 10 first)) := by
    simp [StartTag.attribute?, numberAttributes]
  rw [number?, hfind, Option.bind_some, String.toList_ofList]
  exact signedIndex?_toDigits hfirst

theorem KeepsSlots.one {t : Tag} {placeholder : Placeholder}
    (hkeeps : lifted.KeepsSlots first t.slots) (hbound : first + t.slots.length ≤ Nat.pow 2 64)
    (hone : t.slots = [(placeholder, false)]) : first < Nat.pow 2 64 ∧
      lifted.Keeps first placeholder ∧ lifted.landmarksAt [first] = t.landmarks := by
  rw [hone] at hkeeps hbound
  refine ⟨hbound, hkeeps.head, ?_⟩
  rw [Tag.landmarks_of_slots hone]
  exact hkeeps.head.landmarksAt []

theorem settles_of_hole (hpending : lifted.IsPending P pending) {t : Tag}
    {placeholder : Placeholder} (hone : t.slots = [(placeholder, false)])
    (hkeeps : lifted.KeepsSlots first t.slots) (hbound : first + t.slots.length ≤ Nat.pow 2 64) :
    lifted.Settles P (.tag t) pending [] (pending ++ [.hole (some first)]) := by
  obtain ⟨hlt, -, hlandmarks⟩ := hkeeps.one hbound hone
  exact settles_of_piece (hpending.concat_hole hlt) hlandmarks

theorem settles_of_numbered (hmarker : IsMarker lifted.marker)
    (hpending : lifted.IsPending P pending) {t : Tag} {placeholder : Placeholder}
    (hone : t.slots = [(placeholder, false)]) (hkeeps : lifted.KeepsSlots first t.slots)
    (hbound : first + t.slots.length ≤ Nat.pow 2 64) {name : String}
    (hname : name = blockTag ∨ name = elseTag) (line : Nat) :
    lifted.Settles P (.tag t) pending
      (textTokens (pending.flatMap (Piece.rendered lifted.marker)) ++
        [.startTag ⟨name, numberAttributes first, false⟩ line]) [] := by
  obtain ⟨hlt, hkept, -⟩ := hkeeps.one hbound hone
  refine settles_of_token hmarker hpending ?_ fun helement => absurd hname (not_or.2 helement)
  rw [Part.landmarks, Tag.landmarks_of_slots hone]
  exact landmarks_numbered hname (number?_numberAttributes name hlt) hkept line

theorem settles_of_lifted (hmarker : IsMarker lifted.marker)
    (hpending : lifted.IsPending P pending) {value : String}
    (hkeeps : lifted.KeepsSlots first (Tag.comment value).slots)
    (hbound : first + (Tag.comment value).slots.length ≤ Nat.pow 2 64) :
    lifted.Settles P (.tag (.comment value)) pending
      (textTokens (pending.flatMap (Piece.rendered lifted.marker)) ++
        [.comment (placeholderText lifted.marker first)]) [] := by
  obtain ⟨hlt, -, hlandmarks⟩ := hkeeps.one hbound rfl
  have hwhole := Piece.whole?_placeholderText hmarker hlt
  refine settles_of_token hmarker hpending ?_ fun hnone => ?_
  · rw [landmarks, Token.marks, hwhole]
    · exact hlandmarks
    · nofun
    · nofun
  · rw [hwhole] at hnone
    cases hnone

/-- A mustache in text settles what stands before it, or waits with it. -/
theorem settles_of_mustache (hmarker : IsMarker lifted.marker)
    (hpending : lifted.IsPending P pending) {t : Tag} {tokens : List Token} {next : List Piece}
    (hgives : (Part.tag t).Gives lifted.marker first refs pending tokens next)
    (hkeeps : lifted.KeepsSlots first t.slots) (hbound : first + t.slots.length ≤ Nat.pow 2 64) :
    lifted.Settles P (.tag t) pending tokens next := by
  cases hgives with
  | piece hsignal =>
    cases t with
    | expression m =>
      cases hsignal
      exact settles_of_hole hpending rfl hkeeps hbound
    | partialCall call =>
      cases hsignal
      exact settles_of_hole hpending rfl hkeeps hbound
    | elseBranch chain => cases chain <;> cases hsignal
    | _ => cases hsignal
  | nothing hsignal => cases hsignal
  | token line hsignal =>
    cases t with
    | comment value =>
      cases hsignal
      exact settles_of_lifted hmarker hpending hkeeps hbound
    | openBlock head =>
      cases hsignal
      exact settles_of_numbered hmarker hpending rfl hkeeps hbound (.inl rfl) line
    | elseBranch chain =>
      cases chain with
      | some head =>
        cases hsignal
        exact settles_of_numbered hmarker hpending rfl hkeeps hbound (.inr rfl) line
      | none =>
        cases hsignal
        have hlandmarks :
            lifted.landmarks (.startTag ⟨elseTag, [], false⟩ line) = [.otherwise] := by
          rw [landmarks, if_pos ⟨rfl, rfl⟩]
        exact settles_of_token hmarker hpending hlandmarks fun helement => absurd rfl helement.2
    | closeBlock name =>
      cases hsignal
      exact settles_of_token hmarker hpending (landmarks_endBlock line) trivial
    | _ => cases hsignal

/-! ### Opening tags -/

theorem filterMap_mark?_pieces (first : Nat) (parts : List ValuePart) :
    ((ValuePart.pieces first parts).map Piece.decoded).filterMap Piece.mark? =
      List.range' first (parts.filterMap ValuePart.mustache?).length := by
  induction parts generalizing first with
  | nil => rfl
  | cons part parts ih =>
    cases part with
    | text chars => exact ih first
    | mustache source =>
      have hmore : ((ValuePart.mustache source :: parts).filterMap ValuePart.mustache?).length =
          (parts.filterMap ValuePart.mustache?).length + 1 := rfl
      rw [hmore, List.range'_succ, ← ih (first + 1)]
      rfl

theorem marksOf_decoded (hmarker : IsMarker lifted.marker) {entry : SourceAttribute}
    (hentry : entry.IsWritten) (havoids : entry.AvoidsMarker lifted.marker)
    (hbound : first + entry.mustaches.length ≤ Nat.pow 2 64) :
    marksOf lifted.marker (entry.decoded lifted.marker first).2.toList =
      List.range' first entry.mustaches.length := by
  rw [SourceAttribute.mustaches] at hbound ⊢
  rw [SourceAttribute.decoded, String.toList_ofList]
  cases hvalue : entry.value with
  | none => rfl
  | some value =>
    rw [hvalue] at hbound
    have hseparated :=
      SourceValue.separated (hentry.value value hvalue) (havoids value hvalue) hbound
    have hsplit : Piece.split lifted.marker (value.decoded lifted.marker first) =
        value.decodedPieces first := Piece.split_rendered hmarker hseparated
    rw [Option.map_some, Option.getD_some, marksOf, hsplit, SourceValue.decodedPieces,
      filterMap_mark?_pieces, Option.map_some, Option.getD_some, SourceValue.mustaches,
      List.length_map]

theorem marksOf_decodedOfAll (hmarker : IsMarker lifted.marker) {attributes : List SourceAttribute}
    (hattributes : ∀ entry ∈ attributes, entry.IsWritten)
    (havoids : ∀ entry ∈ attributes, entry.AvoidsMarker lifted.marker)
    (hbound : first + (attributes.flatMap SourceAttribute.mustaches).length ≤ Nat.pow 2 64) :
    ((SourceAttribute.decodedOfAll lifted.marker first attributes).flatMap fun entry =>
        marksOf lifted.marker entry.2.toList) =
      List.range' first (attributes.flatMap SourceAttribute.mustaches).length := by
  induction attributes generalizing first with
  | nil => rfl
  | cons entry attributes ih =>
    rw [List.flatMap_cons, List.length_append] at hbound
    have hentry := marksOf_decoded hmarker (hattributes entry List.mem_cons_self)
      (havoids entry List.mem_cons_self)
      (show first + entry.mustaches.length ≤ Nat.pow 2 64 by omega)
    have hlater : first + entry.mustaches.length +
        (attributes.flatMap SourceAttribute.mustaches).length ≤ Nat.pow 2 64 := by omega
    have hrest := ih (fun other hmem => hattributes other (List.mem_cons_of_mem _ hmem))
      (fun other hmem => havoids other (List.mem_cons_of_mem _ hmem)) hlater
    rw [SourceAttribute.decodedOfAll, List.flatMap_cons, hentry, hrest, List.flatMap_cons,
      List.length_append, List.range'_append_1]

/-- A value without mustaches is one text, if it is not empty. -/
theorem hasString_of_texts {tag : SourceTag} {entry : SourceAttribute} {value : SourceValue}
    (hentry : entry ∈ tag.attributes) (hwritten : value.IsWritten)
    (hvalue : entry.value = some value)
    (htexts : ∀ source, .mustache source ∉ value.parts) :
    (Segment.opening tag).HasString
      (String.ofList (value.parts.flatMap ValuePart.denotedText)) := by
  have hmem : ∀ chars, .text chars ∈ value.parts →
      (Segment.opening tag).HasString (String.ofList (Markup.valueText chars)) :=
    fun chars hmem => .value hentry hvalue hmem
  match hparts : value.parts with
  | [] => exact .noValue hentry
  | [.text chars] =>
    rw [List.flatMap_singleton]
    exact hmem chars (hparts ▸ List.mem_cons_self)
  | .text chars :: .text more :: parts =>
    have happart := hwritten.apart
    rw [hparts] at happart
    exact ((List.isChain_cons.1 happart).1 _ rfl).elim
  | .text chars :: .mustache source :: parts =>
    exact absurd (hparts ▸ List.mem_cons_of_mem _ List.mem_cons_self) (htexts source)
  | .mustache source :: parts => exact absurd (hparts ▸ List.mem_cons_self) (htexts source)

theorem mem_strings_of_denotes {tag : SourceTag} {entry : SourceAttribute} {found : Attribute}
    (hentry : entry ∈ tag.attributes) (hwritten : entry.IsWritten) (h : entry.Denotes found)
    {string : String} (hmem : string = found.name ∨ string ∈ found.value.strings) :
    (Segment.opening tag).HasString string := by
  obtain ⟨hname, hvalue⟩ := h
  rcases hmem with rfl | hmem
  · rw [hname]
    exact .name hentry
  · cases hcases : entry.value with
    | none =>
      rw [hcases] at hvalue
      have hempty : found.value = .text "" := hvalue
      rw [hempty] at hmem
      cases List.mem_singleton.1 hmem
      exact .noValue hentry
    | some value =>
      rw [hcases] at hvalue
      have hdenotes : value.Denotes found.value := hvalue
      have hparts : ∀ {parts : List ValuePart} {statements : List Statement},
          (∀ part ∈ parts, part ∈ value.parts) →
          List.Forall₂ ValuePart.Denotes parts statements →
          string ∈ stringsOfAll statements → (Segment.opening tag).HasString string := by
        intro parts statements hall hforall hstring
        induction hforall with
        | nil => cases hstring
        | @cons part statement parts statements hpart _ ih =>
          have hrest := ih fun other hmem => hall other (List.mem_cons_of_mem _ hmem)
          cases hpart with
          | text chars =>
            rcases List.mem_cons.1 hstring with rfl | hstring
            · exact .value hentry hcases (hall _ List.mem_cons_self)
            · exact hrest hstring
          | mustache _ => exact hrest hstring
      generalize found.value = restored at hdenotes hmem
      cases hdenotes with
      | text htexts =>
        cases List.mem_singleton.1 hmem
        exact hasString_of_texts hentry (hwritten.value value hcases) hcases htexts
      | mustache hlone hread => cases hmem
      | concat hlone hmustache hforall => exact hparts (fun _ h => h) hforall hmem

theorem settles_of_opening (hmarker : IsMarker lifted.marker)
    (hpending : lifted.IsPending P pending) {tag : SourceTag} {slots : List Slot}
    (htag : tag.IsWritten) (hslots : List.Forall₂ TakesSlot tag.mustaches slots)
    (hkeeps : lifted.KeepsSlots first slots) (hbound : first + slots.length ≤ Nat.pow 2 64)
    (havoids : ∀ entry ∈ tag.attributes, entry.AvoidsMarker lifted.marker)
    (hshows : ∀ string, (Segment.opening tag).HasString string → P string) (line : Nat) :
    lifted.Settles P (.opening tag slots) pending
      (textTokens (pending.flatMap (Piece.rendered lifted.marker)) ++
        [.startTag (tag.token lifted.marker first) line]) [] := by
  rw [← hslots.length_eq] at hbound
  refine settles_of_token hmarker hpending ?_ fun _ => ⟨?_, fun attributes hrestores => ?_⟩
  · have hkind : IsElement (tag.token lifted.marker first) := htag.element
    rw [landmarks_element hkind, SourceTag.ownAttributes_token htag,
      marksOf_decodedOfAll hmarker htag.attributes havoids hbound]
    show lifted.landmarksAt (List.range' first tag.mustaches.length) = _
    rw [hslots.length_eq]
    exact hkeeps.landmarksAt
  · rw [SourceTag.writtenName_token htag]
    exact hshows _ (.tag tag)
  · have hdenotes := SourceTag.forall₂_denotes hmarker htag havoids hbound
      (hkeeps.keepsAll hslots) hrestores
    intro string hmem
    obtain ⟨found, hfound, hstring⟩ := mem_stringsOfAttributes hmem
    obtain ⟨i, hi, rfl⟩ := List.getElem_of_mem hfound
    have hlt : i < tag.attributes.length := hdenotes.length_eq ▸ hi
    have hentry : tag.attributes[i] ∈ tag.attributes := List.getElem_mem hlt
    exact hshows string (mem_strings_of_denotes hentry (htag.attributes _ hentry)
      (hdenotes.get hlt hi) hstring)

/-! ### Documents -/

/-- A part of a document settles what stands before it. -/
theorem settles_of_gives (hmarker : IsMarker lifted.marker) (hpending : lifted.IsPending P pending)
    {segment : Segment} {part : Part} (hpart : segment.Becomes part)
    (hsegment : segment.IsWritten) (hfree : lifted.marker ∉ segment.source)
    (havoids : segment.AvoidsMarker lifted.marker)
    (hshows : ∀ string, segment.HasString string → P string)
    (hkeeps : lifted.KeepsSlots first part.slots)
    (hbound : first + part.slots.length ≤ Nat.pow 2 64)
    (hlast : ∀ chars, segment = .text chars → ∀ last ∈ pending.getLast?, last.isText = false)
    {tokens : List Token} {next : List Piece}
    (hgives : part.Gives lifted.marker first refs pending tokens next) :
    lifted.Settles P part pending tokens next := by
  cases hpart with
  | text chars =>
    cases hgives with
    | piece hsignal =>
      cases hsignal
      refine settles_of_piece (hpending.concat_text ?_ ?_ (hshows _ (.text chars refs))
        (hlast chars rfl)) rfl
      · exact contentText_ne_nil refs (unescaped_ne_nil hsegment.1)
      · cases refs with
        | true => exact havoids _ List.mem_cons_self
        | false =>
          exact fun hmem => hfree (mem_of_mem_unescaped (mem_of_mem_contentText hmarker hmem))
    | token line hsignal => cases hsignal
    | nothing hsignal => cases hsignal
  | mustache hread => exact settles_of_mustache hmarker hpending hgives hkeeps hbound
  | comment form value =>
    cases hgives with
    | piece hsignal => cases hsignal
    | token line hsignal =>
      cases hsignal
      refine settles_of_token hmarker hpending ?_ fun _ => hshows _ (.comment form value)
      have hnot : lifted.marker ∉ contentText false value := fun hmem =>
        hfree (by simp [Segment.source, mem_of_mem_contentText hmarker hmem])
      rw [landmarks, Token.marks, Piece.whole?_of_not_mem hnot]
      · rfl
      · intro _ _ heq
        cases heq
      · intro _ _ heq
        cases heq
    | nothing hsignal => cases hsignal
  | doctype chars =>
    cases hgives with
    | piece hsignal => cases hsignal
    | token line hsignal => cases hsignal
    | nothing _ =>
      exact ⟨(List.append_nil _).symm, by simp, hpending⟩
  | @opening tag slots hslots =>
    cases hgives with
    | piece hsignal => cases hsignal
    | token line hsignal =>
      cases hsignal
      refine settles_of_opening hmarker hpending hsegment.1 hslots hkeeps hbound
        (fun entry hentry value hvalue part hmem => havoids _ ?_) hshows line
      exact List.mem_flatMap.2 ⟨entry, hentry, List.mem_flatMap.2
        ⟨value, Option.mem_toList.2 hvalue, List.mem_map_of_mem hmem⟩⟩
    | nothing hsignal => cases hsignal
  | closing name blanks =>
    cases hgives with
    | piece hsignal => cases hsignal
    | token line hsignal =>
      cases hsignal
      exact settles_of_token hmarker hpending (landmarks_endTag hsegment.1.element line) trivial
    | nothing hsignal => cases hsignal

/-- Only text leaves text at the end of what is pending, and a doctype what was there. -/
theorem isText_getLast?_of_gives {segment : Segment} {part : Part} (hpart : segment.Becomes part)
    {tokens : List Token} {next : List Piece}
    (hgives : part.Gives lifted.marker first refs pending tokens next) {last : Piece}
    (hmem : last ∈ next.getLast?) (htext : last.isText = true) :
    (∃ chars, segment = .text chars) ∨ (∃ chars, segment = .doctype chars) ∧ next = pending := by
  cases hgives with
  | piece hsignal =>
    rw [List.getLast?_concat] at hmem
    cases hmem
    cases hpart with
    | text chars => exact .inl ⟨chars, rfl⟩
    | @mustache _ _ _ tag _ =>
      cases tag with
      | expression m =>
        cases hsignal
        cases htext
      | partialCall call =>
        cases hsignal
        cases htext
      | elseBranch chain => cases chain <;> cases hsignal
      | _ => cases hsignal
    | _ => cases hsignal
  | token line hsignal => cases hmem
  | nothing hsignal =>
    cases hpart with
    | doctype chars => exact .inr ⟨⟨chars, rfl⟩, rfl⟩
    | _ => cases hsignal

/-- The tokens of a document have its landmarks and show its strings. -/
theorem settles_of_givesAll (hmarker : IsMarker lifted.marker) {raw : Option String}
    {document : List Segment} {parts : List Part}
    (hparts : List.Forall₂ Segment.Becomes document parts) (hdocument : IsDocument raw document)
    (hfree : ∀ segment ∈ document, lifted.marker ∉ segment.source)
    (havoids : ∀ segment ∈ document, segment.AvoidsMarker lifted.marker)
    (hshows : ∀ segment ∈ document, ∀ string, segment.HasString string → P string)
    (hkeeps : lifted.KeepsSlots first (parts.flatMap Part.slots))
    (hbound : first + (parts.flatMap Part.slots).length ≤ Nat.pow 2 64)
    (hpending : lifted.IsPending P pending)
    (hlast : ∀ segment ∈ document.head?, ∀ last ∈ pending.getLast?, last.isText = true →
      (∀ chars, segment ≠ .text chars) ∧ ∀ chars, segment ≠ .doctype chars)
    {tokens : List Token} (hgives : Part.GivesAll lifted.marker raw first pending parts tokens) :
    tokens.flatMap lifted.landmarks =
        lifted.landmarksOf pending ++ parts.flatMap Part.landmarks ∧
      ∀ token ∈ tokens, lifted.Shows P token := by
  -- What carries the induction is that the pieces of the pending text can be told apart.
  induction hparts generalizing raw first pending tokens with
  | nil =>
    cases hgives
    rw [List.flatMap_nil, List.append_nil]
    exact hpending.settles hmarker
  | @cons segment part document parts hpart hparts ih =>
    have htail : ∀ other ∈ document, other ∈ segment :: document :=
      fun other hmem => List.mem_cons_of_mem segment hmem
    rw [List.flatMap_cons] at hkeeps hbound
    rw [List.length_append] at hbound
    cases hgives with
    | @cons _ _ _ _ first' next _ others hfirst hrest =>
      have hsettles := settles_of_gives hmarker hpending hpart hdocument.head.1
        (hfree segment List.mem_cons_self) (havoids segment List.mem_cons_self)
        (hshows segment List.mem_cons_self) hkeeps.left (by omega)
        (fun chars heq last hmem => Bool.eq_false_iff.2 fun htext =>
          (hlast segment rfl last hmem htext).1 chars heq) hfirst
      have hlater : ∀ other ∈ document.head?, ∀ last ∈ next.getLast?, last.isText = true →
          (∀ chars, other ≠ .text chars) ∧ ∀ chars, other ≠ .doctype chars := by
        intro other hother last hmem htext
        rcases isText_getLast?_of_gives hpart hfirst hmem htext with
          ⟨chars, rfl⟩ | ⟨⟨chars, rfl⟩, rfl⟩
        · have hapart := (hdocument.next other hother).2
          cases other with
          | text more => exact hapart.elim
          | doctype more => exact hapart.elim
          | _ => exact ⟨nofun, nofun⟩
        · exact absurd rfl ((hlast _ rfl last hmem htext).2 chars)
      rw [hpart.rawAfter] at hrest
      obtain ⟨hlandmarks, hall⟩ := ih hdocument.tail
        (fun other hmem => hfree other (htail other hmem))
        (fun other hmem => havoids other (htail other hmem))
        (fun other hmem => hshows other (htail other hmem)) hkeeps.right (by omega)
        hsettles.pending hlater hrest
      refine ⟨?_, fun token hmem => ?_⟩
      · rw [List.flatMap_append, hlandmarks, ← List.append_assoc, hsettles.landmarks,
          List.append_assoc, List.flatMap_cons]
      · exact (List.mem_append.1 hmem).elim (hsettles.shows token) (hall token)

end Lifted

/-! ### What lifting leaves -/

namespace Lifting

variable {marker : Char} {st : Lifting} {slots : List Slot} {markup : List Char}
  {blocks : List String}

theorem Holds.keepsSlots (hst : Holds st slots markup blocks none) :
    (st.result marker).KeepsSlots 0 slots := by
  intro i slot hslot
  rw [Nat.zero_add]
  exact hst.keeps marker (.refl st) hslot

theorem Holds.exists_slot (hst : Holds st slots markup blocks none) {index : Nat}
    {placeholder : Placeholder} (h : (st.result marker).Keeps index placeholder) :
    ∃ slot ∈ slots, slot.1 = placeholder := by
  have hplaceholders : (st.result marker).placeholders = (slots.map Prod.fst).map some := by
    show st.placeholders.reverse.map some = _
    rw [hst.placeholders]
    simp
  rw [Lifted.Keeps, hplaceholders, List.getElem?_map, List.getElem?_map] at h
  obtain ⟨other, hother, heq⟩ := Option.map_eq_some_iff.1 h
  obtain ⟨slot, hslot, rfl⟩ := Option.map_eq_some_iff.1 hother
  exact ⟨slot, List.mem_of_getElem? hslot, Option.some.inj heq⟩

end Lifting

theorem Segment.Becomes.hasString_of_comment {segment : Segment} {part : Part}
    (h : segment.Becomes part) {slot : Slot} (hmem : slot ∈ part.slots) {value : String}
    (hvalue : slot.1 = .comment value) : segment.HasString value := by
  cases h with
  | @mustache _ _ _ tag hread =>
    cases tag with
    | elseBranch chain =>
      cases chain with
      | none => cases hmem
      | some head =>
        cases List.mem_singleton.1 hmem
        cases hvalue
    | closeBlock name => cases hmem
    | comment other =>
      cases List.mem_singleton.1 hmem
      cases hvalue
      exact .mustacheComment hread
    | _ =>
      cases List.mem_singleton.1 hmem
      cases hvalue
  | @opening tag slots hslots =>
    have hmem : slot ∈ slots := hmem
    obtain ⟨i, hi, rfl⟩ := List.getElem_of_mem hmem
    obtain ⟨-, m, hm, -⟩ := hslots.get (hslots.length_eq.symm ▸ hi) hi
    exact nomatch hvalue.symm.trans hm
  | _ => cases hmem

/-! ### Byte order marks -/

theorem eq_append_withoutMark (source : List Char) : ∃ mark,
    source = mark ++ Markup.Lexer.withoutMark source ∧
      (mark = [] ∧ source.head? ≠ some '\ufeff' ∨ mark = ['\ufeff']) := by
  rw [Markup.Lexer.withoutMark.eq_def]
  split
  · exact ⟨['\ufeff'], rfl, .inr rfl⟩
  · next hnot =>
    refine ⟨[], rfl, .inl ⟨rfl, fun hhead => ?_⟩⟩
    obtain ⟨cs, rfl⟩ := List.head?_eq_some_iff.1 hhead
    exact hnot cs rfl

theorem Lifting.Ends.mark {marker : Char} {mark rest : List Char} {final : Lifting}
    (h : Ends marker {} (mark ++ rest) final) (hmark : mark = [] ∨ mark = ['\ufeff']) :
    ∃ st, Ends marker st rest final ∧ Holds st [] mark [] none := by
  have hstart : Holds {} [] [] [] none := ⟨rfl, rfl, by simp, rfl, rfl⟩
  rcases hmark with rfl | rfl
  · exact ⟨{}, h, hstart⟩
  · exact h.textChar (not_beginsTag_of_ne (by decide) (by decide)) (by decide) hstart

/-- The lexer drops the byte order mark of a document, and nothing else. -/
theorem withoutMark_markupOfAll {marker : Char} (hmarker : IsMarker marker)
    {document : List Segment} {parts : List Part}
    (hparts : List.Forall₂ Segment.Becomes document parts)
    (hwritten : ∀ segment ∈ document, segment.IsWritten) {mark : List Char}
    (hmark : mark = [] ∧ (document.flatMap Segment.source).head? ≠ some '\ufeff' ∨
      mark = ['\ufeff']) (first : Nat) {rest : List Char} (hrest : IsCut marker rest) :
    Markup.Lexer.withoutMark (mark ++ (Part.markupOfAll marker first parts ++ rest)) =
      Part.markupOfAll marker first parts ++ rest := by
  rcases hmark with ⟨rfl, hmark⟩ | rfl
  · rw [List.nil_append]
    cases hparts with
    | nil => exact withoutMark_of_isCut hmarker hrest
    | @cons segment part document parts hpart hparts =>
      rw [Part.markupOfAll, List.append_assoc]
      by_cases htext : ∃ chars, segment = .text chars
      · obtain ⟨chars, rfl⟩ := htext
        cases hpart
        obtain ⟨c, cs, rfl⟩ := List.exists_cons_of_ne_nil (hwritten _ List.mem_cons_self).1
        have hc : c ≠ '\ufeff' := fun heq => hmark (by rw [heq]; rfl)
        refine Markup.Lexer.withoutMark_of_ne fun hhead => ?_
        have hne : unescaped (c :: cs) ≠ [] := unescaped_ne_nil (List.cons_ne_nil c cs)
        rw [Part.markup, List.head?_append_of_ne_nil _ hne, unescaped.eq_def] at hhead
        split at hhead
        · cases hhead
        · next heq =>
          cases heq
          exact hc (Option.some.inj hhead)
        · cases hhead
      · exact withoutMark_of_isCut hmarker
          (hpart.isCut (fun chars heq => htext ⟨chars, heq⟩) marker first _)
  · rfl

/-! ### From the source to the template -/

/-- What lifting leaves of a document: its parts, whose tags are stored in their order. -/
structure Lifted.HasParts (lifted : Lifted) (document : List Segment) (parts : List Part) :
    Prop where
  marker : IsMarker lifted.marker
  free : ∀ segment ∈ document, lifted.marker ∉ segment.source
  becomes : List.Forall₂ Segment.Becomes document parts
  keeps : lifted.KeepsSlots 0 (parts.flatMap Part.slots)
  slots : ∀ {index placeholder}, lifted.Keeps index placeholder →
    ∃ slot ∈ parts.flatMap Part.slots, slot.1 = placeholder
  markup : Markup.Lexer.withoutMark lifted.markup = Part.markupOfAll lifted.marker 0 parts

theorem Lifted.exists_hasParts {source : List Char} {lifted : Lifted × Nat}
    (hs : Lifted.ofSource source = .ok lifted) {document : List Segment}
    (hsource : Markup.Lexer.withoutMark source = document.flatMap Segment.source)
    (hdocument : IsDocument none document) :
    ∃ parts, lifted.1.HasParts document parts ∧ freeMarker? source = some lifted.1.marker ∧
      (parts.flatMap Part.slots).length ≤ source.length := by
  obtain ⟨lifted, next⟩ := lifted
  obtain ⟨marker, final, hfree, hrun, rfl, -⟩ := Lifted.exists_of_ofSource hs
  have hmarker : IsMarker marker := isMarker_of_freeMarker? hfree
  obtain ⟨mark, hwhole, hmark⟩ := eq_append_withoutMark source
  rw [hsource] at hwhole
  have hends : Lifting.Ends marker {} (mark ++ (document.flatMap Segment.source ++ [])) final := by
    rw [List.append_nil, ← hwhole]
    exact ⟨0, hrun⟩
  obtain ⟨begun, hbegun, hstart⟩ := hends.mark (hmark.imp And.left id)
  have hafter : ∀ segment, Lifting.StartsAfter mark segment :=
    fun segment => Lifting.startsAfter_mark (hmark.imp And.left id) segment
  obtain ⟨st, parts, blocks, ⟨offset, hrest⟩, hparts, hst⟩ := hbegun.document hmarker hdocument
    (fun segment _ => Lifting.before_nil segment) (fun segment _ => hafter segment) hstart
  cases hrest
  rw [List.nil_append] at hst
  refine ⟨parts, ⟨hmarker, ?_, hparts, hst.keepsSlots, hst.exists_slot, ?_⟩, hfree, ?_⟩
  · intro segment hmem hmarked
    refine freeMarker?_not_mem hfree ?_
    rw [hwhole]
    exact List.mem_append_right mark (List.mem_flatMap.2 ⟨segment, hmem, hmarked⟩)
  · have hfront : mark = [] ∧ (document.flatMap Segment.source).head? ≠ some '\ufeff' ∨
        mark = ['\ufeff'] := by
      rcases hmark with ⟨rfl, hhead⟩ | hmark
      · rw [hwhole] at hhead
        exact .inl ⟨rfl, hhead⟩
      · exact .inr hmark
    show Markup.Lexer.withoutMark final.markup.reverse = _
    rw [hst.markup, List.reverse_reverse]
    have hwithout := withoutMark_markupOfAll hmarker hparts hdocument.written hfront 0
      (isCut_nil marker)
    rwa [List.append_nil] at hwithout
  · have htotal := Lifting.run_length_le hrun
    have hslots := hst.length_placeholders
    have hnone : ({} : Lifting).placeholders.length = 0 := rfl
    omega

theorem Lifted.HasParts.givesAll {lifted : Lifted} {document : List Segment} {parts : List Part}
    (h : lifted.HasParts document parts) (hdocument : IsDocument none document) :
    Part.GivesAll lifted.marker none 0 [] parts (Markup.tokens lifted.markup) := by
  have hempty : Markup.Lexer.InContent {} none
      (([] : List Piece).flatMap (Piece.rendered lifted.marker)) :=
    ⟨rfl, rfl, rfl, by simp⟩
  obtain ⟨tokens, hgives, hrun⟩ := hempty.run_parts h.marker h.becomes hdocument 0
  rwa [Markup.tokens, h.markup, hrun]

namespace Template

/-- A template that is read from a document has the strings and the landmarks of the document. -/
theorem strings_and_landmarks_of_read {source : List Char} {template : Template}
    (hread : read source = .ok template) {document : List Segment}
    (hsource : Markup.Lexer.withoutMark source = document.flatMap Segment.source)
    (hdocument : IsDocument none document)
    (havoids : ∀ marker ∈ freeMarker? source, ∀ segment ∈ document, segment.AvoidsMarker marker)
    (hlength : source.length ≤ Nat.pow 2 64) :
    (∀ string ∈ template.strings, ∃ segment ∈ document, segment.HasString string) ∧
      ∃ landmarks, Outlines template landmarks.flatten ∧
        List.Forall₂ Segment.Leaves document landmarks := by
  obtain ⟨⟨lifted, next⟩, hs, -⟩ := bind_eq_ok hread
  obtain ⟨parts, hparts, hfree, hslots⟩ := Lifted.exists_hasParts hs hsource hdocument
  obtain ⟨hreads, -⟩ := reads_of_read hs hread
  have hpending : lifted.IsPending (fun string => ∃ segment ∈ document, segment.HasString string)
      [] := Lifted.isPending_nil
  obtain ⟨hlandmarks, hshows⟩ := Lifted.settles_of_givesAll hparts.marker hparts.becomes hdocument
    hparts.free (havoids _ hfree) (fun segment hmem string hstring => ⟨segment, hmem, hstring⟩)
    hparts.keeps (by omega) hpending (fun _ _ _ h => by cases h) (hparts.givesAll hdocument)
  refine ⟨hreads.forall_strings (fun index value hkeeps => ?_) hshows,
    parts.map Part.landmarks, ?_, ?_⟩
  · obtain ⟨slot, hslot, hvalue⟩ := hparts.slots hkeeps
    obtain ⟨part, hpart, hmem⟩ := List.mem_flatMap.1 hslot
    obtain ⟨i, hi, rfl⟩ := List.getElem_of_mem hpart
    have hlt : i < document.length := hparts.becomes.length_eq.symm ▸ hi
    have hbecomes : document[i].Becomes parts[i] := hparts.becomes.get hlt hi
    exact ⟨document[i], List.getElem_mem hlt, hbecomes.hasString_of_comment hmem hvalue⟩
  · have houtlines := hreads.outlines
    rw [hlandmarks] at houtlines
    exact houtlines
  · rw [List.forall₂_map_right_iff]
    exact hparts.becomes.imp fun _ _ hpart => hpart.leaves

end Template

end MustacheJsx
