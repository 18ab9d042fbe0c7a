import MustacheJsx.Proofs.Document.Reading
import MustacheJsx.Proofs.Mustache.Ends

/-!
# Reserved names do not reach a template

Lifting writes markers of its own into the markup, with reserved names. A document that keeps them
out of content that is no markup loses none of them: when no reserved name is written in it, none is
in the template that is read from it, and every `else` of the document separates two branches of a
block: `Template.unreserved_of_read`. In the content of a `style` element a marker becomes text.
-/

namespace MustacheJsx

theorem IsUnreserved.of_infix {xs ys : List Char} (h : IsUnreserved ys) (hwithin : xs <:+: ys) :
    IsUnreserved xs := fun name hname hmem => h name hname (hmem.trans hwithin)

instance (cs : List Char) : Decidable (IsUnreserved cs) :=
  inferInstanceAs (Decidable (∀ name ∈ markerNames, ¬ name.toList <:+: cs))

theorem infix_flatMap {α : Type} {a : α} {as : List α} (h : a ∈ as) (f : α → List Char) :
    f a <:+: as.flatMap f := by
  rw [List.flatMap_def]
  exact List.infix_of_mem_flatten (List.mem_map_of_mem h)

/-! ### Comments -/

namespace Span

theorem append_of_cutAtDashes? {cs before after : List Char} {strip : Bool}
    (h : cutAtDashes? cs = some (before, strip, after)) : before ++ ['-', '-'] <+: cs := by
  induction cs generalizing before with
  | nil => cases h
  | cons c cs ih =>
    rw [cutAtDashes?] at h
    split at h
    · next hlead =>
      cases h
      rw [Text.afterLead?_eq_some_iff.1 hlead]
      exact ⟨_, rfl⟩
    · next hlead =>
      cases h
      rw [Text.afterLead?_eq_some_iff.1 hlead]
      exact ⟨_, rfl⟩
    · obtain ⟨⟨before', strip', after'⟩, hcut, hpair⟩ := Option.map_eq_some_iff.1 h
      cases hpair
      exact (List.prefix_cons_inj c).2 (ih hcut)

theorem content_infix {cs : List Char} {span : Span} (h : read cs = .ok span) :
    span.content <:+: cs := by
  have hbody : ∀ braces, (leadingTilde (cs.drop braces)).2 <:+: cs := fun braces =>
    ((leadingTilde_suffix _).trans (List.drop_suffix braces cs)).isInfix
  rw [read.eq_def] at h
  dsimp only at h
  split at h
  · next inner hinner =>
    split at h
    · next before strip after hcut =>
      have hwhole := hbody (if Text.startsWith ['{', '{', '{'] cs then 3 else 2)
      cases h
      refine List.IsInfix.trans ?_ hwhole
      rw [Text.afterLead?_eq_some_iff.1 hinner]
      exact ((List.prefix_append_right_inj ['!', '-', '-']).2 (append_of_cutAtDashes? hcut)).isInfix
    · cases h
  · split at h
    · next content after hcut =>
      have hwhole := hbody (if Text.startsWith ['{', '{', '{'] cs then 3 else 2)
      cases h
      refine List.IsInfix.trans ?_ hwhole
      rw [eq_append_of_cutAtClose? hcut, List.append_assoc]
      exact ((trailingTilde_isPrefix content).trans (List.prefix_append content _)).isInfix
    · cases h

end Span

theorem Tag.commentText_infix (cs : List Char) : commentText cs <:+: cs := by
  rw [commentText.eq_def]
  split
  · next rest =>
    split
    · next inner hreverse =>
      refine ⟨['-', '-'], ['-', '-'], ?_⟩
      have hrest : rest = inner.reverse ++ ['-', '-'] := by
        rw [← List.reverse_reverse rest, hreverse]
        simp
      rw [hrest]
      rfl
    · exact List.infix_refl _
  · exact List.infix_refl _

theorem infix_of_comment {source : List Char} {value : String}
    (h : IsTagReadAs source (.comment value)) : value.toList <:+: source := by
  obtain ⟨span, offset, next, last, hspan, htag⟩ := h
  refine List.IsInfix.trans ?_ (Span.content_infix hspan)
  cases hcontent : span.content with
  | nil =>
    rw [hcontent] at htag
    exact absurd rfl (Tag.ne_comment_of_read (by simp) htag value)
  | cons c cs =>
    rw [hcontent] at htag
    by_cases hc : c = '!'
    · subst hc
      rw [Tag.read_comment] at htag
      cases htag
      rw [String.toList_ofList]
      exact (Tag.commentText_infix cs).trans (List.infix_cons List.infix_rfl)
    · have hhead : (c :: cs).head? ≠ some '!' := fun heq => hc (Option.some.inj heq)
      exact absurd rfl (Tag.ne_comment_of_read hhead htag value)

/-! ### Segments -/

theorem HasWordsOf.isUnreserved {source text : List Char} (h : HasWordsOf source text)
    (hsource : IsUnreserved source) : IsUnreserved text := by
  have hletters : ∀ name ∈ markerNames, ∀ c ∈ name.toList, isWordChar c = true := by decide
  exact fun name hname hwithin =>
    hsource name hname (h.inside name.toList (hletters name hname) hwithin)

/-- A name or a text is reserved only if it is written so, or a reference spells it. -/
theorem Segment.HasString.isUnreserved {segment : Segment} {string : String}
    (h : segment.HasString string) (hsource : IsUnreserved segment.source)
    (hdecoded : ∀ text ∈ segment.decodedTexts, IsUnreserved text) :
    IsUnreserved string.toList := by
  cases h with
  | text chars refs =>
    rw [String.toList_ofList]
    cases refs with
    | true => exact hdecoded _ List.mem_cons_self
    | false =>
      rw [contentText_false]
      exact (((HasWordsOf.unescaped chars).trans (.unifyLineEnds _)).trans
        (.visible _)).isUnreserved hsource
  | @mustacheComment before source after value hread =>
    exact hsource.of_infix ((infix_of_comment hread).trans ⟨before, after, List.append_assoc _ _ _⟩)
  | comment form value =>
    rw [String.toList_ofList, contentText_false]
    have hvalue : IsUnreserved value :=
      hsource.of_infix ⟨form.opening, form.closing, List.append_assoc _ _ _⟩
    exact ((HasWordsOf.unifyLineEnds value).trans (.visible _)).isUnreserved hvalue
  | tag tag =>
    rw [String.toList_ofList]
    exact hsource.of_infix ⟨['<'], _, rfl⟩
  | @name tag entry hentry =>
    rw [String.toList_ofList]
    have hname : entry.name <:+: entry.source := ⟨entry.blanks, _, List.append_assoc _ _ _⟩
    have hattributes : tag.attributes.flatMap SourceAttribute.source <:+: tag.source :=
      ⟨'<' :: tag.name, tag.blanks ++ tagEnd tag.selfClosing, by simp [SourceTag.source]⟩
    exact hsource.of_infix
      (hname.trans ((infix_flatMap hentry SourceAttribute.source).trans hattributes))
  | noValue _ => decide
  | @value tag entry value chars hentry hvalue hpart =>
    rw [String.toList_ofList]
    refine hdecoded _ (List.mem_flatMap.2 ⟨entry, hentry, List.mem_flatMap.2
      ⟨value, Option.mem_toList.2 hvalue, ?_⟩⟩)
    exact List.mem_map_of_mem (f := ValuePart.denotedText) hpart

namespace Template

/-- A template that is read from a document without reserved names has none, and its landmarks are
those of the document: every `else` of it separates two branches. -/
theorem unreserved_of_read {source : List Char} {template : Template}
    (hread : read source = .ok template) {document : List Segment}
    (hsource : Markup.Lexer.withoutMark source = document.flatMap Segment.source)
    (hdocument : IsDocument none document)
    (havoids : ∀ marker ∈ freeMarker? source, ∀ segment ∈ document, segment.AvoidsMarker marker)
    (hlength : source.length ≤ Nat.pow 2 64) (hunreserved : IsUnreserved source)
    (hdecoded : ∀ segment ∈ document, ∀ text ∈ segment.decodedTexts, IsUnreserved text) :
    (∀ string ∈ template.strings, IsUnreserved string.toList) ∧
      ∃ landmarks, Outlines template landmarks.flatten ∧
        List.Forall₂ Segment.Leaves document landmarks := by
  obtain ⟨hstrings, hlandmarks⟩ :=
    strings_and_landmarks_of_read hread hsource hdocument havoids hlength
  refine ⟨fun string hmem => ?_, hlandmarks⟩
  obtain ⟨segment, hsegment, hstring⟩ := hstrings string hmem
  obtain ⟨mark, hwhole, -⟩ := eq_append_withoutMark source
  have hwithin : segment.source <:+: source := by
    rw [hwhole, hsource]
    exact (infix_flatMap hsegment Segment.source).trans (List.suffix_append mark _).isInfix
  exact hstring.isUnreserved (hunreserved.of_infix hwithin) (hdecoded segment hsegment)


/-! ### A document with each kind of segment -/

def titleTag : SourceTag where
  name := "Title".toList
  attributes := []
  blanks := []
  selfClosing := false

def hrefTag : SourceTag where
  name := ['a']
  attributes :=
    [{ blanks := [' '], name := "Href".toList, value := some
        { beforeEquals := [], afterEquals := [], quote := some '"'
          parts := [.mustache "\x7b\x7bb\x7d\x7d".toList] } }]
  blanks := []
  selfClosing := false

/-- A page with a block, whose branches hold a link and a comment. -/
def branchesDocument : List Segment :=
  [.doctype "doctype html".toList,
   .opening titleTag,
   .mustache [] "\x7b\x7bt\x7d\x7d".toList [],
   .closing titleTag.name [],
   .mustache [] "\x7b\x7b#if a ~\x7d\x7d".toList [' '],
   .opening hrefTag,
   .text "1 < 2 &amp; \\\x7b\x7b".toList,
   .closing ['a'] [],
   .mustache [] "\x7b\x7belse\x7d\x7d".toList [],
   .comment .dashes " -- \x7b\x7belse\x7d\x7d -- ".toList,
   .comment .question "?page".toList,
   .mustache [] "\x7b\x7b/if\x7d\x7d".toList []]

theorem isHole_of_isTagReadAs {tag : Tag} (h : IsTagReadAs "\x7b\x7bt\x7d\x7d".toList tag) :
    tag.IsHole := by
  obtain ⟨span, offset, next, last, hspan, htag⟩ := h
  have hcontent : Span.read "\x7b\x7bt\x7d\x7d".toList = .ok
      { content := ['t'], trusting := false, stripLeft := false, stripRight := false, lead := 2
        rest := [] } := by decide +kernel
  cases hcontent.symm.trans hspan
  cases htag
  trivial

theorem isDocument_branchesDocument : IsDocument none branchesDocument where
  written := by decide +kernel
  apart := by decide +kernel
  fits := by
    have htitle : titleTag.rawElement? = some (smallName titleTag.name) := by decide +kernel
    have hhref : hrefTag.rawElement? = none := by decide +kernel
    refine ⟨rfl, rfl, fun _ _ => isHole_of_isTagReadAs, fun element helement => ?_, nofun, rfl,
      trivial, fun element helement => ?_, nofun, rfl, rfl, nofun, trivial⟩
    · exact Option.some.inj (htitle.symm.trans helement)
    · exact nomatch hhref.symm.trans helement

theorem branchesDocument_unreserved :
    ∃ template landmarks, read (branchesDocument.flatMap Segment.source) = .ok template ∧
      (∀ string ∈ template.strings, IsUnreserved string.toList) ∧
      Outlines template landmarks.flatten ∧
      List.Forall₂ Segment.Leaves branchesDocument landmarks := by
  have hcheck : (read (branchesDocument.flatMap Segment.source)).toOption.any (fun _ => true) =
      true := by decide +kernel
  obtain ⟨template, hread, -⟩ := exists_ok_of_check hcheck
  have hfree : freeMarker? (branchesDocument.flatMap Segment.source) = some '\ue000' := by
    decide +kernel
  have havoids : ∀ marker ∈ freeMarker? (branchesDocument.flatMap Segment.source),
      ∀ segment ∈ branchesDocument, segment.AvoidsMarker marker := by
    rw [hfree]
    rintro marker ⟨⟩
    show ∀ segment ∈ branchesDocument, ∀ text ∈ segment.decodedTexts, '\ue000' ∉ text
    decide +kernel
  obtain ⟨hstrings, landmarks, hlandmarks⟩ := unreserved_of_read hread (by decide +kernel)
    isDocument_branchesDocument havoids (by decide +kernel) (by decide +kernel) (by decide +kernel)
  exact ⟨template, landmarks, hread, hstrings, hlandmarks⟩

/-! ### A marker in the content of an element -/

/-- The content of `style` is no markup: what lifting writes for `else` is text there. -/
def styleSource : List Char :=
  "\x7b\x7b#if a\x7d\x7d<style>\x7b\x7belse\x7d\x7d</style>\x7b\x7b/if\x7d\x7d".toList

theorem styleSource_keeps_marker :
    IsUnreserved styleSource ∧ ∃ template, read styleSource = .ok template ∧
      ∃ string ∈ template.strings, ¬ IsUnreserved string.toList := by
  have hcheck : (read styleSource).toOption.any (fun template =>
      template.strings.any fun string => !decide (IsUnreserved string.toList)) = true := by
    decide +kernel
  obtain ⟨template, hread, hany⟩ := exists_ok_of_check hcheck
  obtain ⟨string, hmem, hstring⟩ := List.any_eq_true.1 hany
  refine ⟨by decide +kernel, template, hread, string, hmem, ?_⟩
  simpa using hstring

end Template

end MustacheJsx
