import MustacheJsx.Proofs.Document.Reading

/-!
# Opening tags of a page

A template that was read has an element for every opening tag that begins in text: the name is the
one that was written, and the attributes denote those that were written, in their order
(`Template.exists_element_of_read`). A tag begins in text where `EndsInText` holds of what stands
before it. So it does behind every document that leaves no element open whose content is no markup:
`endsInText_document`.
-/

namespace MustacheJsx

open Markup (Token StartTag)

/-! ### Where a tag begins -/

/-- After `before` lifting is outside of tags, and after what it wrote the lexer is in text. -/
def EndsInText (marker : Char) (before : List Char) : Prop :=
  ∀ rest final, IsCut '{' rest → Lifting.Ends marker {} (before ++ rest) final →
    ∃ st slots markup blocks, Lifting.Ends marker st rest final ∧
      Lifting.Holds st slots markup blocks none ∧
      ∀ more, IsCut marker more → ∃ tokens m text, Markup.Lexer.InText m text ∧
        Markup.tokens (markup ++ more) =
          tokens ++ Markup.Lexer.run 0 m (Markup.Lexer.unifyLineEnds more)

theorem Segment.before_of_isCut {segment : Segment} {rest : List Char}
    (h : segment.Before ['{']) (hrest : IsCut '{' rest) : segment.Before rest := by
  cases segment with
  | text chars => exact fun _ => h rfl
  | mustache before source after =>
    intro _ c hc
    rcases hrest c hc with rfl | rfl
    · decide
    · decide
  | _ => trivial

/-- A tag behind a document begins in text, if the document ends in markup and no backslash or brace
at its end takes part of a mustache that would stand there. -/
theorem endsInText_document {marker : Char} (hmarker : IsMarker marker) {document : List Segment}
    (hdocument : IsDocument none document)
    (hmarkup : document.foldl Segment.rawAfter none = none)
    (hlast : ∀ segment ∈ document.getLast?, segment.Before ['{']) {mark : List Char}
    (hmark : mark = [] ∧ (document.flatMap Segment.source).head? ≠ some '\ufeff' ∨
      mark = ['\ufeff']) :
    EndsInText marker (mark ++ document.flatMap Segment.source) := by
  intro rest final hrest hends
  rw [List.append_assoc] at hends
  have hmark' : mark = [] ∨ mark = ['\ufeff'] := hmark.imp And.left id
  obtain ⟨begun, hbegun, hstart⟩ := hends.mark hmark'
  obtain ⟨st, parts, blocks, hleft, hparts, hst⟩ := hbegun.document hmarker hdocument
    (fun segment hsegment => Segment.before_of_isCut (hlast segment hsegment) hrest)
    (fun segment _ => Lifting.startsAfter_mark hmark' segment) hstart
  refine ⟨st, _, _, blocks, hleft, hst, fun more hmore => ?_⟩
  have hempty : Markup.Lexer.InContent {} none
      (([] : List Piece).flatMap (Piece.rendered marker)) := ⟨rfl, rfl, rfl, by simp⟩
  obtain ⟨tokens, next, m, -, hrun, hm⟩ :=
    hempty.run_parts_append hmarker hparts hdocument 0 hmore
  rw [hmarkup] at hm
  refine ⟨tokens, m, _, Markup.Lexer.inContent_none.1 hm, ?_⟩
  rw [Markup.tokens, List.append_assoc, List.length_nil,
    withoutMark_markupOfAll hmarker hparts hdocument.written hmark 0 hmore, hrun]

namespace Template

/-- Every opening tag that begins in text gives an element, and its attributes are those that were
written: each of the same name, and with the same text and the same mustaches in the same order. -/
theorem exists_element_of_read {before after : List Char} {tag : SourceTag} {template : Template}
    (hread : read (before ++ (tag.source ++ after)) = .ok template)
    (htag : tag.IsWritten) (htracked : tag.IsTracked)
    (hplace : ∀ marker ∈ freeMarker? (before ++ (tag.source ++ after)), EndsInText marker before ∧
      ∀ entry ∈ tag.attributes, entry.AvoidsMarker marker)
    (hlength : (before ++ (tag.source ++ after)).length ≤ Nat.pow 2 64) :
    ∃ attributes, HasElement (String.ofList tag.name) attributes template ∧
      List.Forall₂ SourceAttribute.Denotes tag.attributes attributes := by
  obtain ⟨⟨lifted, next⟩, hs, -⟩ := bind_eq_ok hread
  obtain ⟨marker, final, hfree, hrun, rfl, -⟩ := Lifted.exists_of_ofSource hs
  have hmarker : IsMarker marker := isMarker_of_freeMarker? hfree
  obtain ⟨htext, havoids⟩ := hplace marker hfree
  obtain ⟨st, slots, markup, blocks, hends, hst, hlexes⟩ :=
    htext _ final (tag.isCut_source '{' after) ⟨0, hrun⟩
  obtain ⟨st', added, ⟨offset, hrest⟩, hadded, hst'⟩ := hends.tag htag htracked hst
  have hgrows := Lifting.run_grows hrest
  -- The tags of the values are kept, each under its number.
  have hkeeps := hst'.keepsAll marker hgrows hadded
  have hbound : slots.length + tag.mustaches.length ≤ Nat.pow 2 64 := by
    have htotal := Lifting.run_length_le hrun
    have hstored := hgrows.placeholders.length_le
    have hslots := hst'.length_placeholders
    have hsame := hadded.length_eq
    rw [List.length_append] at hslots
    have hnone : ({} : Lifting).placeholders.length = 0 := rfl
    omega
  -- The tag is one token of the markup.
  obtain ⟨cs, hcs⟩ := tag.exists_markup_eq_concat marker slots.length
  rw [hcs, ← List.append_assoc] at hst'
  obtain ⟨more, hmore⟩ := hst'.exists_markup_eq hgrows (by decide)
  rw [List.append_assoc markup, ← hcs, List.append_assoc] at hmore
  have hcut : IsCut marker (tag.markup marker slots.length ++ more) := by
    intro c hc
    rw [SourceTag.markup, List.cons_append, List.head?_cons] at hc
    cases hc
    exact .inl rfl
  obtain ⟨tokens, m, text, hm, htokens⟩ := hlexes _ hcut
  obtain ⟨line, m', htoken, -⟩ := hm.run_tag hmarker htag htracked slots.length more
  have hmem : Token.startTag (tag.token marker slots.length) line ∈
      Markup.tokens (final.result marker).markup := by
    show _ ∈ Markup.tokens final.markup.reverse
    rw [hmore, htokens, htoken]
    simp
  -- So it is restored.
  obtain ⟨hreads, -⟩ := reads_of_read hs hread
  have hkind : IsElement (tag.token marker slots.length) := htag.element
  obtain ⟨attributes, hrestores, helement⟩ := hreads.restoresElement hkind hmem
  rw [tag.writtenName_token htag] at helement
  exact ⟨attributes, helement,
    SourceTag.forall₂_denotes hmarker htag havoids hbound hkeeps hrestores⟩

/-- A link whose second attribute is one mustache and has a capital. -/
def linkTag : SourceTag where
  name := ['a']
  attributes :=
    [{ blanks := [' '], name := "href".toList, value := some
        { beforeEquals := [], afterEquals := [], quote := some '"'
          parts := [.text "/p?id=".toList, .mustache "\x7b\x7bid\x7d\x7d".toList] } },
     { blanks := [' '], name := "Title".toList, value := some
        { beforeEquals := [], afterEquals := [' '], quote := none
          parts := [.mustache "\x7b\x7bt\x7d\x7d".toList] } }]
  blanks := []
  selfClosing := false

def openParagraph : SourceTag where
  name := ['p']
  attributes := []
  blanks := []
  selfClosing := false

/-- A page up to a link in its first paragraph. -/
def pageBeforeLink : List Segment :=
  [.doctype "doctype html".toList, .opening openParagraph, .text "\n1 < 2, says ".toList,
    .mustache [] "\x7b\x7bname\x7d\x7d".toList [], .text ": ".toList]

theorem isDocument_pageBeforeLink : IsDocument none pageBeforeLink where
  written := by decide +kernel
  apart := by decide +kernel
  fits := by
    have hparagraph : openParagraph.rawElement? = none := by decide +kernel
    exact ⟨rfl, rfl, trivial, fun hraw => absurd hparagraph hraw, trivial, trivial⟩

theorem linkTag_is_restored :
    ∃ template attributes, read (pageBeforeLink.flatMap Segment.source ++
        (linkTag.source ++ "</a></p>".toList)) = .ok template ∧
      HasElement "a" attributes template ∧
      List.Forall₂ SourceAttribute.Denotes linkTag.attributes attributes := by
  have hfree : freeMarker? (pageBeforeLink.flatMap Segment.source ++
      (linkTag.source ++ "</a></p>".toList)) = some '\ue000' := by
    decide +kernel
  have hcheck : (read (pageBeforeLink.flatMap Segment.source ++
      (linkTag.source ++ "</a></p>".toList))).toOption.any (fun _ => true) = true := by
    decide +kernel
  have hwritten : linkTag.IsWritten := by decide +kernel
  have htracked : linkTag.IsTracked := by decide +kernel
  have hlength : (pageBeforeLink.flatMap Segment.source ++
      (linkTag.source ++ "</a></p>".toList)).length ≤ Nat.pow 2 64 := by decide +kernel
  have hmarkup : pageBeforeLink.foldl Segment.rawAfter none = none := by decide +kernel
  have hlast : ∀ segment ∈ pageBeforeLink.getLast?, segment.Before ['{'] := by decide +kernel
  have hmark : (pageBeforeLink.flatMap Segment.source).head? ≠ some '\ufeff' := by decide +kernel
  have htext : EndsInText '\ue000' ([] ++ pageBeforeLink.flatMap Segment.source) :=
    endsInText_document (isMarker_of_freeMarker? hfree) isDocument_pageBeforeLink hmarkup hlast
      (.inl ⟨rfl, hmark⟩)
  have hplace : ∀ marker ∈ freeMarker? (pageBeforeLink.flatMap Segment.source ++
      (linkTag.source ++ "</a></p>".toList)),
      EndsInText marker (pageBeforeLink.flatMap Segment.source) ∧
        ∀ entry ∈ linkTag.attributes, entry.AvoidsMarker marker := by
    intro marker hmarker
    rw [hfree] at hmarker
    obtain rfl := Option.mem_some.1 hmarker
    exact ⟨htext, by decide +kernel⟩
  obtain ⟨template, hread, -⟩ := exists_ok_of_check hcheck
  obtain ⟨attributes, helement, hattributes⟩ :=
    exists_element_of_read hread hwritten htracked hplace hlength
  exact ⟨template, attributes, hread, helement, hattributes⟩

/-! ### A value without quotes that holds an equals sign -/

/-- Lifting takes the second `=` for the beginning of a value, and gives quotes to the mustache. -/
def queryTag : SourceTag where
  name := ['a']
  attributes :=
    [{ blanks := [' '], name := "href".toList, value := some
        { beforeEquals := [], afterEquals := [], quote := none
          parts := [.text "/p?id=".toList, .mustache "\x7b\x7bid\x7d\x7d".toList] } }]
  blanks := []
  selfClosing := false

/-- Whether a template is a link with three parts in the value of its only attribute. -/
def isThreePartLink : Template → Bool
  | [.element "a" [.mk "href" (.concat [.text before, .mustache _, .text after])] [] false] =>
    before == "/p?id=\"" && after == "\""
  | _ => false

theorem queryTag_gains_quotes :
    queryTag.IsWritten ∧ ∃ template, read (queryTag.source ++ "</a>".toList) = .ok template ∧
      ¬∃ attributes, HasElement "a" attributes template ∧
        List.Forall₂ SourceAttribute.Denotes queryTag.attributes attributes := by
  have hcheck : (read (queryTag.source ++ "</a>".toList)).toOption.any isThreePartLink = true := by
    decide +kernel
  obtain ⟨template, hread, hparts⟩ := exists_ok_of_check hcheck
  refine ⟨by decide +kernel, template, hread, ?_⟩
  rintro ⟨attributes, helement, hattributes⟩
  rw [isThreePartLink.eq_def] at hparts
  split at hparts
  · cases helement with
    | here hmem =>
      cases List.mem_singleton.1 hmem
      cases hattributes with
      | cons hfirst _ =>
        cases hfirst.2 with
        | concat _ _ hdenotes => cases hdenotes with
          | cons _ hrest => cases hrest with
            | cons _ hrest => cases hrest
    | child hmem hinner =>
      cases List.mem_singleton.1 hmem
      exact hinner.ne_nil rfl
    | program hmem => cases List.mem_singleton.1 hmem
    | inverse hmem => cases List.mem_singleton.1 hmem
  · cases hparts

end Template

end MustacheJsx
