import MustacheJsx.Proofs.Document.Reserved
import MustacheJsx.Proofs.Document.Tags
import MustacheJsx.Proofs.Lowering.Assembly

/-!
# A document and the same document with small names

Reading a document whose opening tags are written small is reading the document and writing the
names of its tree small, and the names of its tree are those of its tags, letter by letter:
`Template.agree_read_lowered`. The spellings are recorded before the `>` or `/>` of a tag. A value
without quotes may run into that, which no document has, and then the record cuts it off:
`Template.record_cuts_value`.
-/

namespace MustacheJsx

open Markup.Lexer (withoutMark)

/-! ### Byte order marks -/

theorem withoutMark_append_eq_iff {mark cs : List Char} :
    withoutMark (mark ++ cs) = cs ↔
      mark = [] ∧ cs.head? ≠ some '\ufeff' ∨ mark = ['\ufeff'] := by
  constructor
  · intro h
    obtain ⟨found, hwhole, hfound⟩ := eq_append_withoutMark (mark ++ cs)
    rw [h, List.append_cancel_right_eq] at hwhole
    subst hwhole
    rcases hfound with ⟨rfl, hhead⟩ | rfl
    · exact .inl ⟨rfl, hhead⟩
    · exact .inr rfl
  · rintro (⟨rfl, hhead⟩ | rfl)
    · exact Markup.Lexer.withoutMark_of_ne hhead
    · rfl

theorem head?_flatMap_lowered {document : List Segment}
    (hwritten : ∀ segment ∈ document, segment.IsWritten) :
    ((document.map Segment.lowered).flatMap Segment.source).head? =
      (document.flatMap Segment.source).head? := by
  cases document with
  | nil => rfl
  | cons segment document =>
    obtain ⟨c, hhead, hlowered⟩ := Segment.head?_source_lowered (hwritten _ List.mem_cons_self)
    rw [List.map_cons, List.flatMap_cons, List.flatMap_cons, List.head?_append, List.head?_append,
      hhead, hlowered]
    rfl

namespace Template

/-- Two assemblies of tokens that say the same with small names. -/
theorem agree_assembled {tokens tokens' : List Markup.Token}
    (h : List.Forall₂ Token.Lowers tokens tokens') (markup : List Char) (lifted : Lifted)
    (next : Nat) :
    Agree (fun template template' => template' = template.lowered)
      (tokens.foldlM Assembly.read { lifted, next } >>= Assembly.result)
      (tokens'.foldlM Assembly.read { lifted := lifted.withMarkup markup, next } >>=
        Assembly.result) := by
  refine (Assembly.agree_reads markup h { lifted, next }).bind fun a a' ha => ?_
  subst ha
  exact a.agree_result

/-- A document and the same document with small names in its opening tags are both refused, or both
are read, to trees that are equal up to the case of names. The names of the tree are those of the
document, tag by tag. -/
theorem agree_read_lowered {document : List Segment} (hdocument : IsDocument none document)
    {mark : List Char}
    (hmark : withoutMark (mark ++ document.flatMap Segment.source) =
      document.flatMap Segment.source) :
    Agree (fun template template' => template' = template.lowered ∧
        template.writtenTags = document.flatMap Segment.writtenTags)
      (read (mark ++ document.flatMap Segment.source))
      (read (mark ++ (document.map Segment.lowered).flatMap Segment.source)) := by
  have hsmall : withoutMark (mark ++ (document.map Segment.lowered).flatMap Segment.source) =
      (document.map Segment.lowered).flatMap Segment.source := by
    rw [withoutMark_append_eq_iff, head?_flatMap_lowered hdocument.written]
    exact withoutMark_append_eq_iff.1 hmark
  have hlifted := Lifted.agree_ofSource ((withoutMark_append_eq_iff.1 hmark).imp And.left id)
    hdocument
  have hread : Agree (fun template template' => template' = template.lowered)
      (read (mark ++ document.flatMap Segment.source))
      (read (mark ++ (document.map Segment.lowered).flatMap Segment.source)) := by
    refine hlifted.attach.bind ?_
    rintro ⟨lifted, next⟩ - ⟨⟨markup, rfl⟩, hs, hs'⟩
    obtain ⟨parts, hparts, -⟩ := Lifted.exists_hasParts hs hmark hdocument
    obtain ⟨parts', hparts', -⟩ := Lifted.exists_hasParts hs' hsmall hdocument.lowered
    exact (agree_assembled (hparts.lowers hdocument hparts') markup lifted next).mapError _ _
  refine hread.attach.imp fun template template' ⟨hlowered, hsource, _⟩ => ⟨hlowered, ?_⟩
  exact writtenTags_of_read hsource hmark hdocument

/-! ### A document with capitals -/

/-- The page with a title and a link, whose names have capitals, is read with them. -/
theorem branchesDocument_lowered :
    ∃ template, read (branchesDocument.flatMap Segment.source) = .ok template ∧
      read ((branchesDocument.map Segment.lowered).flatMap Segment.source) =
        .ok template.lowered ∧
      template.writtenTags =
        [.opening "Title" [] false, .closing "title", .opening "a" ["Href"] false,
          .closing "a"] := by
  have hmark : withoutMark ([] ++ branchesDocument.flatMap Segment.source) =
      branchesDocument.flatMap Segment.source := by decide +kernel
  have hagree := agree_read_lowered isDocument_branchesDocument hmark
  have hcheck : (read (branchesDocument.flatMap Segment.source)).toOption.any (fun _ => true) =
      true := by decide +kernel
  obtain ⟨template, hread, -⟩ := exists_ok_of_check hcheck
  rw [List.nil_append, List.nil_append, hread] at hagree
  generalize hsmall : read ((branchesDocument.map Segment.lowered).flatMap Segment.source) =
    small at hagree
  cases hagree with
  | @ok _ template' h =>
    obtain ⟨rfl, htags⟩ := h
    exact ⟨template, hread, rfl, htags.trans (by decide +kernel)⟩

/-! ### A value at the end of its tag -/

/-- Without its capital, the tag does not close itself: the slash belongs to the value. -/
theorem record_cuts_value :
    ∃ template small, read "<img Src=/x/>".toList = .ok template ∧
      read "<img src=/x/>".toList = .ok small ∧
      template.writtenTags = [.opening "img" ["Src"] true] ∧
      small.writtenTags = [.opening "img" ["src"] false] ∧ small ≠ template.lowered := by
  have hcheck : (read "<img Src=/x/>".toList).toOption.any (fun template =>
      template.writtenTags = [.opening "img" ["Src"] true] ∧
        template.lowered.writtenTags = [.opening "img" ["src"] true]) = true := by
    decide +kernel
  have hchecksmall : (read "<img src=/x/>".toList).toOption.any (fun small =>
      small.writtenTags = [.opening "img" ["src"] false]) = true := by
    decide +kernel
  obtain ⟨template, hread, htags⟩ := exists_ok_of_check hcheck
  obtain ⟨hwritten, hlowered⟩ := of_decide_eq_true htags
  obtain ⟨small, hreadsmall, htags⟩ := exists_ok_of_check hchecksmall
  have hsmall := of_decide_eq_true htags
  refine ⟨template, small, hread, hreadsmall, hwritten, hsmall, ?_⟩
  rintro rfl
  rw [hlowered] at hsmall
  exact absurd hsmall (by decide)

end Template

end MustacheJsx
