import MustacheJsx.Proofs.Reading.Stack

/-!
# Where the tags are in a template

Whatever a template is read from, its tags leave landmarks in it: a value, a partial or a comment a
node of its kind, a block its two ends, an `else` the border between two branches. `Outlines` goes
along a tree and lists them, and nothing in the tree but a landmark holds an expression. A template
that was read has the landmarks of its tokens, in their order, so every tag that was lifted out is
in it once: `Template.outlines_of_read`.
-/

namespace MustacheJsx

open Markup (Token StartTag)

/-- What a tag leaves in a template. -/
inductive Landmark where
  | tag (placeholder : Placeholder)
  | otherwise
  | close

namespace Landmark

/-- The tag that was lifted out for it. -/
def placeholder? : Landmark → Option Placeholder
  | .tag placeholder => some placeholder
  | _ => none

end Landmark

mutual

/-- The landmarks of statements, in their order. -/
inductive Outlines : List Statement → List Landmark → Prop where
  | nil : Outlines [] []
  | text {chars statements rest} : Outlines statements rest →
      Outlines (.text chars :: statements) rest
  | markupComment {value statements rest} : Outlines statements rest →
      Outlines (.markupComment value :: statements) rest
  | mustacheComment {value statements rest} : Outlines statements rest →
      Outlines (.mustacheComment value :: statements) (.tag (.comment value) :: rest)
  | mustache {m statements rest} : Outlines statements rest →
      Outlines (.mustache m :: statements) (.tag (.expression m) :: rest)
  | partialCall {call statements rest} : Outlines statements rest →
      Outlines (.partialCall call :: statements) (.tag (.partialCall call) :: rest)
  | element {tag attributes children selfClosing statements own inner rest} :
      OutlinesAttributes attributes own → Outlines children inner → Outlines statements rest →
      Outlines (.element tag attributes children selfClosing :: statements)
        (own ++ (inner ++ rest))
  | block {head id program inverse statements inner others rest} :
      Outlines program inner → OutlinesInverse inverse others → Outlines statements rest →
      Outlines (.block head (.mk id program) inverse :: statements)
        (.tag (.block head) :: (inner ++ (others ++ .close :: rest)))

/-- The landmarks of the branches of a block after its program. An `else if` is the only block of an
inverse, and has no end of its own. -/
inductive OutlinesInverse : Option Body → List Landmark → Prop where
  | none : OutlinesInverse none []
  | otherwise {id body inner} : Outlines body inner →
      OutlinesInverse (some (.mk id body)) (.otherwise :: inner)
  | elseIf {head id id' program inverse inner others} :
      Outlines program inner → OutlinesInverse inverse others →
      OutlinesInverse (some (.mk id' [.block head (.mk id program) inverse]))
        (.tag (.elseIf head) :: (inner ++ others))

/-- The landmarks of the values of attributes. -/
inductive OutlinesAttributes : List Attribute → List Landmark → Prop where
  | nil : OutlinesAttributes [] []
  | text {name chars attributes rest} : OutlinesAttributes attributes rest →
      OutlinesAttributes (.mk name (.text chars) :: attributes) rest
  | mustache {name m attributes rest} : OutlinesAttributes attributes rest →
      OutlinesAttributes (.mk name (.mustache m) :: attributes) (.tag (.expression m) :: rest)
  | concat {name parts attributes inner rest} :
      Outlines parts inner → OutlinesAttributes attributes rest →
      OutlinesAttributes (.mk name (.concat parts) :: attributes) (inner ++ rest)

end

/-! ### The landmarks of tokens -/

theorem Piece.filterMap_mark?_hole (index : Nat) (pieces : List Piece) :
    (Piece.hole (some index) :: pieces).filterMap Piece.mark? =
      index :: pieces.filterMap Piece.mark? := rfl

namespace Lifted

def placeholder? (lifted : Lifted) (index : Nat) : Option Placeholder :=
  lifted.placeholders[index]?.join

def landmarksAt (lifted : Lifted) (marks : List Nat) : List Landmark :=
  marks.filterMap fun index => (lifted.placeholder? index).map .tag

def landmarks (lifted : Lifted) (token : Token) : List Landmark :=
  match token with
  | .startTag tag _ =>
    if tag.name = elseTag ∧ number? tag = none then [.otherwise]
    else lifted.landmarksAt (Token.marks lifted.marker token)
  | .endTag name _ => if name = blockTag then [.close] else []
  | _ => lifted.landmarksAt (Token.marks lifted.marker token)

variable {lifted : Lifted}

theorem Keeps.placeholder? {index : Nat} {placeholder : Placeholder}
    (h : lifted.Keeps index placeholder) : lifted.placeholder? index = some placeholder := by
  rw [Lifted.placeholder?, h]
  rfl

theorem Keeps.landmarksAt {index : Nat} {placeholder : Placeholder}
    (h : lifted.Keeps index placeholder) (marks : List Nat) :
    lifted.landmarksAt (index :: marks) = .tag placeholder :: lifted.landmarksAt marks := by
  rw [Lifted.landmarksAt, List.filterMap_cons, h.placeholder?]
  rfl

theorem landmarksAt_append (xs ys : List Nat) :
    lifted.landmarksAt (xs ++ ys) = lifted.landmarksAt xs ++ lifted.landmarksAt ys :=
  List.filterMap_append

theorem filterMap_landmarksAt (marks : List Nat) :
    (lifted.landmarksAt marks).filterMap Landmark.placeholder? =
      marks.filterMap lifted.placeholder? := by
  rw [landmarksAt, List.filterMap_filterMap]
  refine List.filterMap_congr fun index _ => ?_
  cases lifted.placeholder? index <;> rfl

theorem filterMap_landmarks (token : Token) :
    (lifted.landmarks token).filterMap Landmark.placeholder? =
      (Token.marks lifted.marker token).filterMap lifted.placeholder? := by
  cases token with
  | text chars => exact filterMap_landmarksAt _
  | comment value => exact filterMap_landmarksAt _
  | startTag tag line =>
    rw [landmarks]
    split
    · next helse =>
      rw [Token.marks, if_pos (.inr helse.1), helse.2]
      rfl
    · exact filterMap_landmarksAt _
  | endTag name line =>
    rw [landmarks]
    split <;> rfl

/-! ### The landmarks of what tokens read as -/

theorem Restores.outlines {pieces : List Piece} {restored statements : List Statement}
    {rest : List Landmark} (h : lifted.Restores pieces restored) (hr : Outlines statements rest) :
    Outlines (restored ++ statements)
      (lifted.landmarksAt (pieces.filterMap Piece.mark?) ++ rest) := by
  induction h with
  | nil => exact hr
  | text _ ih => exact .text ih
  | mustache hk _ ih =>
    rw [Piece.filterMap_mark?_hole, hk.landmarksAt]
    exact .mustache ih
  | partialCall hk _ ih =>
    rw [Piece.filterMap_mark?_hole, hk.landmarksAt]
    exact .partialCall ih

theorem RestoresValue.outlines {value : List Char} {found : AttributeValue}
    (h : lifted.RestoresValue value found) (name : String) {attributes : List Attribute}
    {rest : List Landmark} (hr : OutlinesAttributes attributes rest) :
    OutlinesAttributes (.mk name found :: attributes)
      (lifted.landmarksAt (marksOf lifted.marker value) ++ rest) := by
  cases h with
  | text hnone =>
    have hmarks : marksOf lifted.marker value = [] := by
      refine List.filterMap_eq_nil_iff.2 fun piece hmem => ?_
      cases piece with
      | text chars => rfl
      | hole index => exact absurd hmem (hnone index)
    rw [hmarks]
    exact .text hr
  | mustache hlone hk =>
    rw [marksOf_of_whole? hlone.1, hk.landmarksAt]
    exact .mustache hr
  | concat _ _ hparts =>
    have houtlines := hparts.outlines .nil
    rw [List.append_nil, List.append_nil] at houtlines
    exact .concat houtlines hr

theorem outlines_of_restoresAttributes {spellings : List (List Char)}
    {entries : List (String × String)} {attributes : List Attribute}
    (h : List.Forall₂ (lifted.RestoresAttribute spellings) entries attributes) :
    OutlinesAttributes attributes (lifted.landmarksAt
      (entries.flatMap fun entry => marksOf lifted.marker entry.2.toList)) := by
  induction h with
  | nil => exact .nil
  | @cons entry found entries attributes hentry _ ih =>
    obtain ⟨name, value⟩ := found
    rw [List.flatMap_cons, landmarksAt_append]
    exact hentry.2.outlines name ih

theorem landmarks_element {tag : StartTag} (h : IsElement tag) (line : Nat) :
    lifted.landmarks (.startTag tag line) = lifted.landmarksAt
      ((ownAttributes tag).flatMap fun entry => marksOf lifted.marker entry.2.toList) := by
  rw [landmarks, if_neg fun helse => h.2 helse.1, Token.marks,
    if_neg (not_or.2 ⟨h.1, h.2⟩)]

theorem landmarks_numbered {tag : StartTag} {index : Nat} {placeholder : Placeholder}
    (htag : tag.name = blockTag ∨ tag.name = elseTag) (hn : number? tag = some index)
    (hk : lifted.Keeps index placeholder) (line : Nat) :
    lifted.landmarks (.startTag tag line) = [.tag placeholder] := by
  have hnone : ¬(tag.name = elseTag ∧ number? tag = none) := by
    rw [hn]
    exact fun helse => nomatch helse.2
  rw [landmarks, if_neg hnone, Token.marks, if_pos htag, hn]
  exact hk.landmarksAt []

theorem landmarks_endTag {name : String} (h : name ≠ blockTag) (line : Nat) :
    lifted.landmarks (.endTag name line) = [] := if_neg h

theorem landmarks_endBlock (line : Nat) :
    lifted.landmarks (.endTag blockTag line) = [.close] := by
  rw [landmarks, if_pos rfl]

mutual

theorem Reads.outlines {tokens : List Token} {statements : List Statement}
    (h : lifted.Reads tokens statements) :
    Outlines statements (tokens.flatMap lifted.landmarks) := by
  match h with
  | .nil => exact .nil
  | .text hr h => exact hr.outlines h.outlines
  | .markupComment hw h =>
    rw [List.flatMap_cons, landmarks, Token.marks, hw]
    · exact .markupComment h.outlines
    · nofun
    · nofun
  | .mustacheComment hw hk h =>
    rw [List.flatMap_cons, landmarks, Token.marks, hw, Option.toList_some, hk.landmarksAt]
    · exact .mustacheComment h.outlines
    · nofun
    · nofun
  | .leaf he _ ha h =>
    rw [List.flatMap_cons, landmarks_element he]
    exact .element (outlines_of_restoresAttributes ha) .nil h.outlines
  | .element he hl ha hi h =>
    rw [List.flatMap_cons, landmarks_element he, List.flatMap_append, List.flatMap_cons,
      landmarks_endTag he.1, List.nil_append]
    exact .element (outlines_of_restoresAttributes ha) hi.outlines h.outlines
  | .block ht hn hk hp hi h =>
    rw [List.flatMap_cons, landmarks_numbered (.inl ht) hn hk, List.flatMap_append,
      List.flatMap_append, List.flatMap_cons, landmarks_endBlock, List.singleton_append,
      List.singleton_append]
    exact .block hp.outlines hi.outlines h.outlines

theorem ReadsInverse.outlines {tokens : List Token} {inverse : Option Body}
    (h : lifted.ReadsInverse tokens inverse) :
    OutlinesInverse inverse (tokens.flatMap lifted.landmarks) := by
  match h with
  | .none => exact .none
  | .otherwise ht hn hp =>
    rw [List.flatMap_cons, landmarks, if_pos ⟨ht, hn⟩]
    exact .otherwise hp.outlines
  | .elseIf ht hn hk hp hi =>
    rw [List.flatMap_cons, landmarks_numbered (.inr ht) hn hk, List.flatMap_append,
      List.singleton_append]
    exact .elseIf hp.outlines hi.outlines

end

theorem filterMap_range_placeholder? (h : none ∉ lifted.placeholders) :
    ((List.range lifted.placeholders.length).filterMap lifted.placeholder?).map some =
      lifted.placeholders := by
  have hfound : (List.range lifted.placeholders.length).map (lifted.placeholders[·]?) =
      lifted.placeholders.map some := by
    refine List.ext_getElem (by simp) fun index hindex _ => ?_
    rw [List.length_map, List.length_range] at hindex
    simp [hindex]
  have hall : (List.range lifted.placeholders.length).filterMap lifted.placeholder? =
      lifted.placeholders.filterMap id := by
    have hjoin := congrArg (List.filterMap Option.join) hfound
    rw [List.filterMap_map, List.filterMap_map] at hjoin
    exact hjoin
  have hsome : ∀ found ∈ lifted.placeholders, (id found).map some = some found := by
    intro found hmem
    cases found with
    | none => exact absurd hmem h
    | some placeholder => rfl
  rw [hall, List.map_filterMap, List.filterMap_congr hsome, List.filterMap_some]

end Lifted

/-! ### Templates -/

namespace Template

theorem outlines_of_read {source : List Char} {lifted : Lifted} {next : Nat} {template : Template}
    (hs : Lifted.ofSource source = .ok (lifted, next)) (h : Template.read source = .ok template) :
    ∃ landmarks, Outlines template landmarks ∧
      ((landmarks.filterMap Landmark.placeholder?).map some).Perm lifted.placeholders := by
  obtain ⟨hreads, hperm⟩ := reads_of_read hs h
  have hmarks : ((Markup.tokens lifted.markup).flatMap lifted.landmarks).filterMap
      Landmark.placeholder? = ((Markup.tokens lifted.markup).flatMap
        (Token.marks lifted.marker)).filterMap lifted.placeholder? := by
    rw [List.filterMap_flatMap, List.filterMap_flatMap]
    exact List.flatMap_congr fun token _ => Lifted.filterMap_landmarks token
  refine ⟨_, hreads.outlines, ?_⟩
  rw [hmarks]
  have hall := Lifted.filterMap_range_placeholder? (Lifted.none_not_mem_placeholders hs)
  exact ((hperm.filterMap _).map _).trans (.of_eq hall)

/-- Every tag that was lifted out of a template is in its tree once, as a node of its kind, and the
tree has no other; when some tag is carried by no token of the markup, reading fails. -/
theorem read_places_tags {source : List Char} {lifted : Lifted} {next : Nat}
    (hs : Lifted.ofSource source = .ok (lifted, next)) :
    (∀ template, Template.read source = .ok template →
      ∃ landmarks, Outlines template landmarks ∧
        ((landmarks.filterMap Landmark.placeholder?).map some).Perm lifted.placeholders) ∧
    ∀ index < lifted.placeholders.length,
      (∀ token ∈ Markup.tokens lifted.markup, index ∉ Token.marks lifted.marker token) →
      ∃ fault, Template.read source = .error (.parse fault 0) := by
  refine ⟨fun template h => outlines_of_read hs h, fun index hlt hnone => ?_⟩
  cases hread : Template.read source with
  | ok template =>
    obtain ⟨-, hperm⟩ := reads_of_read hs hread
    obtain ⟨token, htoken, hmark⟩ :=
      List.mem_flatMap.1 (hperm.mem_iff.2 (List.mem_range.2 hlt))
    exact absurd hmark (hnone token htoken)
  | error e =>
    rw [Template.read, hs] at hread
    obtain ⟨fault, rfl⟩ := exists_of_mapError_eq_error hread
    exact ⟨fault, rfl⟩

/-- A block whose branches hold a tag of each other kind. -/
def blockSource : List Char :=
  ("\x7b\x7b#if a\x7d\x7d" ++ "<p title=\x7b\x7bb\x7d\x7d>" ++ "\x7b\x7b> c\x7d\x7d</p>" ++
    "\x7b\x7belse if d\x7d\x7d" ++ "\x7b\x7b!e\x7d\x7d" ++ "\x7b\x7b/if\x7d\x7d").toList

def endTagSource : List Char := "</p \x7b\x7bx\x7d\x7d>".toList

theorem blockSource_places_tags :
    (∃ template landmarks, Template.read blockSource = .ok template ∧
      Outlines template landmarks ∧ (landmarks.filterMap Landmark.placeholder?).length = 5) ∧
    ∃ fault, Template.read endTagSource = .error (.parse fault 0) := by
  constructor
  · have htags : (Lifted.ofSource blockSource).toOption.any
        (fun found => found.1.placeholders.length == 5) = true := by decide +kernel
    have hread : (Template.read blockSource).toOption.any (fun _ => true) = true := by
      decide +kernel
    obtain ⟨⟨lifted, next⟩, hs, hlength⟩ := exists_ok_of_check htags
    obtain ⟨template, hread, -⟩ := exists_ok_of_check hread
    obtain ⟨landmarks, houtlines, hperm⟩ := (read_places_tags hs).1 template hread
    have hcount := hperm.length_eq
    rw [List.length_map, beq_iff_eq.1 hlength] at hcount
    exact ⟨template, landmarks, hread, houtlines, hcount⟩
  · have hnone : (Lifted.ofSource endTagSource).toOption.any (fun found =>
        decide (0 < found.1.placeholders.length) && (Markup.tokens found.1.markup).all fun token =>
          !(Token.marks found.1.marker token).contains 0) = true := by decide +kernel
    obtain ⟨⟨lifted, next⟩, hs, hcheck⟩ := exists_ok_of_check hnone
    simp only [Bool.and_eq_true, decide_eq_true_eq, List.all_eq_true, Bool.not_eq_true',
      List.contains_eq_mem, decide_eq_false_iff_not] at hcheck
    exact (read_places_tags hs).2 0 hcheck.1 hcheck.2

/-! ### A tag that the markup cannot hold -/

/-- A document type drops its placeholder, but references in the text before it spell the same. -/
def doctypeSource : List Char := "&#xE000;0&#xE000;<!doctype \x7b\x7ba\x7d\x7d>".toList

def isLoneMustache : Template → Bool
  | [.mustache _] => true
  | _ => false

theorem doctypeSource_is_read :
    ∃ lifted next m, Lifted.ofSource doctypeSource = .ok (lifted, next) ∧
      lifted.markup = "&#xE000;0&#xE000;<!doctype \ue0000\ue000>".toList ∧
      Template.read doctypeSource = .ok [.mustache m] := by
  have hlifted : (Lifted.ofSource doctypeSource).toOption.any (fun found =>
      found.1.markup == "&#xE000;0&#xE000;<!doctype \ue0000\ue000>".toList) = true := by
    decide +kernel
  have hread : (Template.read doctypeSource).toOption.any isLoneMustache = true := by
    decide +kernel
  obtain ⟨⟨lifted, next⟩, hs, hmarkup⟩ := exists_ok_of_check hlifted
  obtain ⟨template, hread, hlone⟩ := exists_ok_of_check hread
  rw [isLoneMustache.eq_def] at hlone
  split at hlone
  · exact ⟨lifted, next, _, hs, beq_iff_eq.1 hmarkup, hread⟩
  · cases hlone

end Template

end MustacheJsx
