import MustacheJsx.Proofs.Document.Reading
import MustacheJsx.Proofs.Lowering.Lifting
import MustacheJsx.Proofs.Mustache.Content

/-!
# The tokens of a document with small names

What a tag leaves in markup is decided by the beginning of its text (`Tag.kind_of_read`), so a
document and the same document with small names give the same tokens one by one, up to lines and to
the spellings that a start tag carries: `Lifted.HasParts.lowers`.
-/

namespace MustacheJsx

open Markup (Token StartTag)
open Markup.Lexer (textTokens)

/-! ### The kinds of tags -/

/-- What a tag leaves in markup. -/
inductive TagKind where
  | hole
  | comment
  | block
  | otherwise
  | elseIf
  | close
  deriving DecidableEq

namespace Tag

def kind : Tag → TagKind
  | .expression _ | .partialCall _ => .hole
  | .comment _ => .comment
  | .openBlock _ => .block
  | .elseBranch none => .otherwise
  | .elseBranch (some _) => .elseIf
  | .closeBlock _ => .close

def kindOfTrimmed : List Char → TagKind
  | '#' :: _ => .block
  | '/' :: _ => .close
  | '>' :: _ => .hole
  | '^' :: _ => .otherwise
  | '&' :: _ => .hole
  | cs =>
    if cs = "else".toList then .otherwise
    else if (Text.afterLead? "else ".toList cs).isSome then .elseIf
    else .hole

def kindOf (trusting : Bool) : List Char → TagKind
  | '!' :: _ => .comment
  | content => if trusting then .hole else kindOfTrimmed (Text.trim content)

theorem yields_true {α : Type} (reader : ReadM α) : Yields reader fun _ => True :=
  fun _ _ _ _ => trivial

theorem kind_of_readMustache (trusting : Bool) (cs : List Char) :
    Yields (readMustache trusting cs) fun tag => tag.kind = .hole :=
  (yields_true _).bind fun _ _ => .pure rfl

theorem kind_of_readPartial (cs : List Char) :
    Yields (readPartial cs) fun tag => tag.kind = .hole := by
  refine (yields_true _).bind fun name _ => ?_
  dsimp only
  split
  · exact .halt
  · refine (yields_true _).bind fun arguments _ => ?_
    split
    · exact .pure rfl
    · exact .halt

theorem kind_of_readTrimmed (cs : List Char) :
    Yields (readTrimmed cs) fun tag => tag.kind = kindOfTrimmed cs := by
  rw [readTrimmed.eq_def]
  split
  · exact .halt
  · split
    · exact .halt
    · exact .halt
    · exact (yields_true _).bind fun _ _ => .pure rfl
  · dsimp only
    split
    · exact .halt
    · exact .pure rfl
  · exact kind_of_readPartial _
  · split
    · exact .pure rfl
    · exact .halt
  · exact kind_of_readMustache true _
  · next hhash hslash hgreater hcaret hamp =>
    have hkind : kindOfTrimmed cs = if cs = "else".toList then .otherwise
        else if (Text.afterLead? "else ".toList cs).isSome then .elseIf else .hole := by
      rw [kindOfTrimmed] <;> assumption
    rw [hkind]
    split
    · exact .pure rfl
    · split
      · next rest hlead =>
        rw [hlead]
        exact (yields_true _).bind fun _ _ => .pure rfl
      · next hlead =>
        rw [hlead]
        exact kind_of_readMustache false cs

theorem kind_of_read {content : List Char} {trusting : Bool} {offset next last : Nat} {tag : Tag}
    (h : Tag.read content trusting offset next = (.ok tag, last)) :
    tag.kind = kindOf trusting content := by
  rw [Tag.read.eq_def] at h
  split at h
  · cases h
    rfl
  · next hcomment =>
    have hkind : kindOf trusting content =
        if trusting then .hole else kindOfTrimmed (Text.trim content) := by
      rw [kindOf]
      assumption
    rw [hkind]
    dsimp only at h
    split at h
    · next found middle hread =>
      cases h
      split at hread
      · next htrusting =>
        rw [if_pos htrusting]
        exact kind_of_readMustache true _ _ _ _ hread
      · next htrusting =>
        rw [if_neg htrusting]
        exact kind_of_readTrimmed _ _ _ _ hread
    · cases h

end Tag

theorem Tag.signal_of_kind {t t' : Tag} (h : t'.kind = t.kind) (marker : Char) (first : Nat) :
    (Item.tag t').signal marker first = (Item.tag t).signal marker first ∧
      t'.slots.length = t.slots.length := by
  rcases t with _ | _ | _ | _ | (_ | _) | _ <;> rcases t' with _ | _ | _ | _ | (_ | _) | _ <;>
    first
    | exact ⟨rfl, rfl⟩
    | cases h

/-! ### Start tags -/

/-- A start tag that says the same of an element whose names are small. -/
structure StartTag.Lowers (tag tag' : StartTag) : Prop where
  name : tag'.name = tag.name
  selfClosing : tag'.selfClosing = tag.selfClosing
  own : ownAttributes tag' = ownAttributes tag
  written : writtenName tag' = smallName (writtenName tag).toList
  spelled : ∀ entry ∈ ownAttributes tag, Assembly.spellingOf (writtenSpellings tag') entry.1 =
    smallName (Assembly.spellingOf (writtenSpellings tag) entry.1).toList

theorem SourceAttribute.decodedOfAll_lowered (marker : Char) (first : Nat)
    (attributes : List SourceAttribute) :
    decodedOfAll marker first (attributes.map SourceAttribute.lowered) =
      decodedOfAll marker first attributes := by
  induction attributes generalizing first with
  | nil => rfl
  | cons entry attributes ih =>
    have hentry : entry.lowered.decoded marker first = entry.decoded marker first := by
      rw [decoded, decoded, SourceAttribute.lowered, smallName_loweredName]
    rw [List.map_cons, decodedOfAll, decodedOfAll, hentry, ih]
    rfl

theorem SourceTag.lowers_token {tag : SourceTag} (htag : tag.IsWritten) (marker : Char)
    (first : Nat) : StartTag.Lowers (tag.token marker first) (tag.lowered.token marker first) where
  name := smallName_loweredName tag.name
  selfClosing := rfl
  own := by
    rw [ownAttributes_token htag, ownAttributes_token htag.lowered]
    exact SourceAttribute.decodedOfAll_lowered marker first tag.attributes
  written := by
    rw [writtenName_token htag, writtenName_token htag.lowered, String.toList_ofList]
    rfl
  spelled := by
    rw [ownAttributes_token htag, writtenSpellings_token htag, writtenSpellings_token htag.lowered]
    intro found hfound
    have hname := List.mem_map_of_mem (f := Prod.fst) hfound
    rw [SourceAttribute.map_fst_decodedOfAll] at hname
    obtain ⟨entry, hentry, hsmall⟩ := List.mem_map.1 hname
    have hlowered := spellingOf_casedNames htag.lowered.distinct entry.lowered
      (List.mem_map_of_mem hentry)
    rw [SourceAttribute.lowered, smallName_loweredName] at hlowered
    rw [← hsmall, spellingOf_casedNames htag.distinct entry hentry, String.toList_ofList]
    exact hlowered

theorem SourceTag.mustaches_lowered (tag : SourceTag) : tag.lowered.mustaches = tag.mustaches :=
  List.flatMap_map SourceAttribute.lowered SourceAttribute.mustaches tag.attributes

/-! ### Tokens -/

/-- A token that says the same with small names, on any line. -/
inductive Token.Lowers : Token → Token → Prop where
  | text (cs : List Char) : Lowers (.text cs) (.text cs)
  | comment (cs : List Char) : Lowers (.comment cs) (.comment cs)
  | endTag (name : String) (line line' : Nat) : Lowers (.endTag name line) (.endTag name line')
  | marker {tag : StartTag} (line line' : Nat) : ¬ IsElement tag →
      Lowers (.startTag tag line) (.startTag tag line')
  | element {tag tag' : StartTag} (line line' : Nat) : IsElement tag → StartTag.Lowers tag tag' →
      Lowers (.startTag tag line) (.startTag tag' line')

theorem lowers_textTokens (cs : List Char) :
    List.Forall₂ Token.Lowers (textTokens cs) (textTokens cs) := by
  cases cs with
  | nil => exact .nil
  | cons c cs => exact .cons (.text _) .nil

theorem Tag.lowers_of_signal {t : Tag} {marker : Char} {first : Nat} {token : Nat → Token}
    (h : (Item.tag t).signal marker first = .inr token) (line line' : Nat) :
    Token.Lowers (token line) (token line') := by
  cases t with
  | expression m => cases h
  | partialCall call => cases h
  | comment value =>
    cases h
    exact .comment _
  | openBlock head =>
    cases h
    exact .marker line line' fun helement => helement.1 rfl
  | elseBranch chain =>
    cases chain <;> cases h <;> exact .marker line line' fun helement => helement.2 rfl
  | closeBlock name =>
    cases h
    exact .endTag _ line line'

/-! ### Parts -/

/-- What lifting makes of a segment and of the same segment with small names. -/
inductive Part.Lowers : Part → Part → Prop where
  | text (chars : List Char) : Lowers (.text chars) (.text chars)
  | tag {t t' : Tag} : t'.kind = t.kind → Lowers (.tag t) (.tag t')
  | comment (form : CommentForm) (value : List Char) :
      Lowers (.comment form value) (.comment form value)
  | doctype (chars : List Char) : Lowers (.doctype chars) (.doctype chars)
  | opening {tag : SourceTag} {slots slots' : List Slot} : tag.IsWritten →
      slots'.length = slots.length → Lowers (.opening tag slots) (.opening tag.lowered slots')
  | closing (name blanks : List Char) : Lowers (.closing name blanks) (.closing name blanks)

theorem Segment.Becomes.lowers {segment : Segment} (hsegment : segment.IsWritten)
    {part part' : Part} (h : segment.Becomes part) (h' : segment.lowered.Becomes part') :
    part.Lowers part' := by
  cases h with
  | text chars =>
    cases h'
    exact .text _
  | mustache htag =>
    cases h' with
    | mustache htag' =>
      obtain ⟨span, offset, next, last, hspan, hread⟩ := htag
      obtain ⟨span', offset', next', last', hspan', hread'⟩ := htag'
      cases hspan.symm.trans hspan'
      exact .tag ((Tag.kind_of_read hread').trans (Tag.kind_of_read hread).symm)
  | comment form value =>
    cases h'
    exact .comment form value
  | doctype chars =>
    cases h'
    exact .doctype chars
  | @opening tag slots hslots =>
    cases h' with
    | opening hslots' =>
      refine .opening hsegment.1 ?_
      rw [← hslots.length_eq, ← hslots'.length_eq, tag.mustaches_lowered]
  | closing name blanks =>
    cases h'
    exact .closing name blanks

namespace Part.Lowers

variable {part part' : Part}

theorem length_slots (h : part.Lowers part') : part'.slots.length = part.slots.length := by
  cases h with
  | tag hkind => exact (Tag.signal_of_kind hkind ' ' 0).2
  | opening _ hslots => exact hslots
  | _ => rfl

theorem rawAfter (h : part.Lowers part') (raw : Option String) :
    part'.rawAfter raw = part.rawAfter raw := by
  cases h with
  | @opening tag _ _ _ _ => exact tag.rawElement?_lowered
  | _ => rfl

/-- Both parts mean the same, but for the names in a start tag. -/
theorem signal (h : part.Lowers part') (marker : Char) (first : Nat) (refs : Bool) :
    part'.signal marker first refs = part.signal marker first refs ∧
        (∀ token, part.signal marker first refs = some (.inr token) →
          ∀ line line', Token.Lowers (token line) (token line')) ∨
      ∃ token token', part.signal marker first refs = some (.inr token) ∧
        part'.signal marker first refs = some (.inr token') ∧
          ∀ line line', Token.Lowers (token line) (token' line') := by
  cases h with
  | text chars | doctype chars => exact .inl ⟨rfl, nofun⟩
  | tag hkind =>
    refine .inl ⟨congrArg some (Tag.signal_of_kind hkind marker first).1, fun token htoken => ?_⟩
    exact Tag.lowers_of_signal (Option.some.inj htoken)
  | comment form value =>
    exact .inr ⟨_, _, rfl, rfl, fun _ _ => .comment _⟩
  | opening htag _ =>
    exact .inr ⟨_, _, rfl, rfl, fun line line' => .element line line' htag.element
      (SourceTag.lowers_token htag marker first)⟩
  | closing name blanks => exact .inr ⟨_, _, rfl, rfl, fun line line' => .endTag _ line line'⟩

end Part.Lowers

/-- What a part gives is decided by what it means, up to lines. -/
theorem Part.Gives.of_signal {part : Part} {marker : Char} {first : Nat} {refs : Bool}
    {pending next : List Piece} {tokens : List Token}
    (h : part.Gives marker first refs pending tokens next) :
    (part.signal marker first refs = none → tokens = [] ∧ next = pending) ∧
      (∀ found, part.signal marker first refs = some (.inl found) →
        tokens = [] ∧ next = pending ++ [found]) ∧
      ∀ found, part.signal marker first refs = some (.inr found) → next = [] ∧
        ∃ line, tokens = textTokens (pending.flatMap (Piece.rendered marker)) ++ [found line] := by
  cases h with
  | piece hsignal =>
    refine ⟨fun h => ?_, fun _ h => ?_, fun _ h => ?_⟩ <;> cases hsignal.symm.trans h
    exact ⟨rfl, rfl⟩
  | token line hsignal =>
    refine ⟨fun h => ?_, fun _ h => ?_, fun _ h => ?_⟩ <;> cases hsignal.symm.trans h
    exact ⟨rfl, line, rfl⟩
  | nothing hsignal =>
    refine ⟨fun h => ⟨rfl, rfl⟩, fun _ h => ?_, fun _ h => ?_⟩ <;> cases hsignal.symm.trans h

theorem Part.Gives.lowers {part part' : Part} (hpart : part.Lowers part') {marker : Char}
    {first : Nat} {refs : Bool} {pending next next' : List Piece} {tokens tokens' : List Token}
    (h : part.Gives marker first refs pending tokens next)
    (h' : part'.Gives marker first refs pending tokens' next') :
    next' = next ∧ List.Forall₂ Token.Lowers tokens tokens' := by
  obtain ⟨hnone, hpiece, htoken⟩ := h.of_signal
  obtain ⟨hnone', hpiece', htoken'⟩ := h'.of_signal
  have htext := lowers_textTokens (pending.flatMap (Piece.rendered marker))
  rcases hpart.signal marker first refs with ⟨hsame, hlowers⟩ | ⟨found, found', hs, hs', hlowers⟩
  · rw [hsame] at hnone' hpiece' htoken'
    cases hs : part.signal marker first refs with
    | none =>
      obtain ⟨rfl, rfl⟩ := hnone hs
      obtain ⟨rfl, rfl⟩ := hnone' hs
      exact ⟨rfl, .nil⟩
    | some meant =>
      cases meant with
      | inl found =>
        obtain ⟨rfl, rfl⟩ := hpiece found hs
        obtain ⟨rfl, rfl⟩ := hpiece' found hs
        exact ⟨rfl, .nil⟩
      | inr found =>
        obtain ⟨rfl, line, rfl⟩ := htoken found hs
        obtain ⟨rfl, line', rfl⟩ := htoken' found hs
        exact ⟨rfl, List.rel_append htext (.cons (hlowers found hs line line') .nil)⟩
  · obtain ⟨rfl, line, rfl⟩ := htoken found hs
    obtain ⟨rfl, line', rfl⟩ := htoken' found' hs'
    exact ⟨rfl, List.rel_append htext (.cons (hlowers line line') .nil)⟩

theorem Part.GivesAll.lowers {parts parts' : List Part}
    (hparts : List.Forall₂ Part.Lowers parts parts') {marker : Char} {raw : Option String}
    {first : Nat} {pending : List Piece} {tokens tokens' : List Token}
    (h : Part.GivesAll marker raw first pending parts tokens)
    (h' : Part.GivesAll marker raw first pending parts' tokens') :
    List.Forall₂ Token.Lowers tokens tokens' := by
  induction hparts generalizing raw first pending tokens tokens' with
  | nil =>
    cases h
    cases h'
    exact lowers_textTokens _
  | cons hpart _ ih =>
    cases h with
    | cons hfirst hrest =>
      cases h' with
      | cons hfirst' hrest' =>
        obtain ⟨rfl, htokens⟩ := hfirst.lowers hpart hfirst'
        rw [hpart.rawAfter, hpart.length_slots] at hrest'
        exact List.rel_append htokens (ih hrest hrest')

/-- The tokens of a document and of the same document with small names. -/
theorem Lifted.HasParts.lowers {lifted : Lifted} {markup : List Char} {document : List Segment}
    (hdocument : IsDocument none document) {parts parts' : List Part}
    (h : lifted.HasParts document parts)
    (h' : ({ lifted with markup } : Lifted).HasParts (document.map Segment.lowered) parts') :
    List.Forall₂ Token.Lowers (Markup.tokens lifted.markup) (Markup.tokens markup) := by
  have hlowers : List.Forall₂ Part.Lowers parts parts' := by
    have hbecomes := h.becomes
    have hbecomes' := List.forall₂_map_left_iff.1 h'.becomes
    have hwritten := hdocument.written
    clear h h' hdocument
    induction hbecomes generalizing parts' with
    | nil =>
      cases hbecomes'
      exact .nil
    | cons hpart _ ih =>
      obtain ⟨hsegment, hlater⟩ := List.forall_mem_cons.1 hwritten
      cases hbecomes' with
      | cons hpart' hrest' =>
        exact .cons (hpart.lowers hsegment hpart') (ih hrest' hlater)
  exact (h.givesAll hdocument).lowers hlowers (h'.givesAll hdocument.lowered)

end MustacheJsx
