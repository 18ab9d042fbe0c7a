import MustacheJsx.Proofs.Extraction.Binding
import MustacheJsx.Proofs.Layout
import MustacheJsx.Proofs.Printing.Pieces
import MustacheJsx.Proofs.Reading.Approach
import MustacheJsx.Proofs.Reading.Strings

/-!
# Dropping the blanks around a tag

A `~` in a delimiter of a tag drops the blanks on that side and does nothing else: a template with
tags between `{{~` and `~}}` reads like the template in which they stand between plain braces and
the blanks around them are left out (`Template.agree_read_stripped`). The tags must stand in text,
by which the reader's own account is meant. That account goes by opening tags and comments alone, so
what looks like an opening tag in the content of a `script` puts a tag behind it out of text:
`Template.script_keeps_blanks`.
-/

namespace MustacheJsx

/-! ### Tags with tildes -/

namespace Span

/-- A tag with a tilde in both delimiters, and what follows it. -/
def tilded (content rest : List Char) : List Char :=
  '{' :: '{' :: '~' :: (content ++ '~' :: '}' :: '}' :: rest)

/-- The inside of a tag as it was written between two tildes. -/
def ofTilded (content rest : List Char) : Span :=
  { content, trusting := false, stripLeft := true, stripRight := true, lead := 3, rest }

theorem head?_braced (content rest : List Char) : (braced content rest).head? = some '{' := rfl

/-- What two braces hold when they are read, long comments apart. -/
structure IsInside (content : List Char) : Prop where
  read : Span.read (braced content []) = .ok (ofBraced content [])
  comment : ¬ ['!', '-', '-'] <+: content

instance (content : List Char) : Decidable (IsInside content) :=
  decidable_of_iff (_ ∧ _) ⟨fun h => ⟨h.1, h.2⟩, fun h => ⟨h.read, h.comment⟩⟩

variable {content : List Char}

theorem IsInside.read_braced (h : IsInside content) (rest : List Char) :
    Span.read (braced content rest) = .ok (ofBraced content rest) := by
  have hwhole : braced content rest = braced content [] ++ rest := by simp [braced]
  rw [hwhole]
  exact read_append h.read rest

theorem snd_leadingTilde {cs : List Char} (h : (leadingTilde cs).1 = false) :
    (leadingTilde cs).2 = cs := by
  rw [leadingTilde.eq_def] at h ⊢
  split at h
  · cases h
  · rfl

theorem IsInside.cut (h : IsInside content) :
    cutAtClose? ['}', '}'] .outside (content ++ ['}', '}']) = some (content, []) := by
  have hread := h.read
  rw [read_eq_ofBody, ofBody] at hread
  dsimp only at hread
  split at hread
  · split at hread
    · obtain ⟨hcontent, -⟩ := Span.mk.inj (Except.ok.inj hread)
      exact absurd ⟨_, hcontent⟩ h.comment
    · cases hread
  · split at hread
    · next inner rest hcut =>
      obtain ⟨hcontent, -, hleft, hright, hlead, hrest⟩ := Span.mk.inj (Except.ok.inj hread)
      have hbraces : bracesOf (braced content []) = 2 := by
        rw [hleft] at hlead
        exact hlead
      have hinner := eq_of_trailingTilde (Prod.ext hright hcontent)
      rw [snd_leadingTilde hleft, hbraces, ← hinner, hrest] at hcut
      exact hcut
    · cases hread

/-- A tilde before the closing braces is cut off with the content. -/
theorem cutAtClose?_tilde {quoting : Quoting}
    (h : cutAtClose? ['}', '}'] quoting (content ++ ['}', '}']) = some (content, []))
    (rest : List Char) :
    cutAtClose? ['}', '}'] quoting (content ++ '~' :: '}' :: '}' :: rest) =
      some (content ++ ['~'], rest) := by
  induction content generalizing quoting with
  | nil =>
    have houtside : quoting = .outside := by
      by_contra hne
      rw [List.nil_append, cutAtClose?, if_neg hne] at h
      obtain ⟨cut, -, hcut⟩ := Option.map_eq_some_iff.1 h
      cases hcut
    subst houtside
    rfl
  | cons c content ih =>
    rw [List.cons_append, cutAtClose?] at h
    rw [List.cons_append, cutAtClose?]
    split at h
    · cases h
    · next hnone =>
      obtain ⟨⟨before, behind⟩, hcut, hpair⟩ := Option.map_eq_some_iff.1 h
      cases hpair
      -- The first two characters are those of the tag, or no brace follows the first.
      have hlead : (if quoting = .outside then
          Text.afterLead? ['}', '}'] (c :: (content ++ '~' :: '}' :: '}' :: rest)) else none) =
            none := by
        split
        · next houtside =>
          rw [if_pos houtside] at hnone
          refine Option.eq_none_iff_forall_ne_some.2 fun after hafter => ?_
          have hsource := Text.afterLead?_eq_some_iff.1 hafter
          cases content with
          | nil => exact absurd (List.cons.inj (List.cons.inj hsource).2).1 (by decide)
          | cons d content =>
            obtain ⟨hfirst, hsource⟩ := List.cons.inj hsource
            obtain ⟨hsecond, -⟩ := List.cons.inj hsource
            rw [hfirst, hsecond] at hnone
            cases hnone
        · rfl
      rw [hlead, ih hcut]
      rfl

theorem IsInside.read_tilded (h : IsInside content) (rest : List Char) :
    Span.read (tilded content rest) = .ok (ofTilded content rest) := by
  have hlead := afterLead?_comment_eq_none h.comment '~' (by decide) ('}' :: '}' :: rest)
  have hcut := cutAtClose?_tilde h.cut rest
  rw [tilded, read_eq_ofBody]
  change ofBody 2 false true (content ++ '~' :: '}' :: '}' :: rest) = _
  rw [ofBody, hlead]
  dsimp only
  rw [show List.replicate 2 '}' = ['}', '}'] from rfl, hcut]
  dsimp only
  rw [trailingTilde_append]
  rfl

end Span

namespace Lifting

variable {marker : Char} {st : Lifting} {content blanks : List Char}

/-! ### One tag -/

/-- A tag between tildes and the same tag between braces are read alike behind blanks and behind
none, and the blanks that follow the tildes are skipped. -/
theorem comes_tilded (hmarker : Text.isBlank marker = false) (hcontent : Span.IsInside content)
    (htag : st.tag = none) (hinked : EndsInked st)
    (hblanks : ∀ c ∈ blanks, Text.isBlank c = true) (rest rest' : List Char) :
    Agrees marker (st.write blanks) (Span.tilded content rest) st (Span.braced content rest') ∨
      ∃ next, next.tag = none ∧ EndsInked next ∧
        Comes marker (st.write blanks) (Span.tilded content rest) next (Text.trimStart rest) ∧
        Comes marker st (Span.braced content rest') next rest' := by
  have htext : ((st.write blanks).tag).isNone = true := Option.isNone_iff_eq_none.2 htag
  have hcleared : (st.write blanks).cleared (Span.ofTilded content rest) = st := by
    rw [cleared, htext, hinked.dropWhile hblanks]
    rfl
  have hleft : (st.write blanks).leftBy (Span.ofTilded content rest) = Text.trimStart rest := by
    rw [leftBy, htext]
    rfl
  have hagree := @writeSpan_agree marker st (Span.ofTilded content rest)
    (Span.ofBraced content rest') rfl rfl 0 0
  cases htilded : writeSpan marker st (Span.ofTilded content rest) 0 with
  | error e =>
    cases hbraced : writeSpan marker st (Span.ofBraced content rest') 0 with
    | error e' =>
      rw [← hcleared] at htilded
      exact .inl (agrees_of_error (refused_of_read (hcontent.read_tilded rest) htilded)
        (refused_of_read (hcontent.read_braced rest') hbraced))
    | ok next =>
      rw [htilded, hbraced] at hagree
      cases hagree
  | ok next =>
    obtain ⟨hnext, hlast⟩ := endsInked_writeSpan hmarker htag htilded
    have hbraced : writeSpan marker st (Span.ofBraced content rest') 0 = .ok next := by
      rw [htilded] at hagree
      generalize writeSpan marker st (Span.ofBraced content rest') 0 = found at hagree ⊢
      cases hagree with
      | ok heq => rw [heq]
    refine .inr ⟨next, hnext, hlast, ?_, comes_of_read (hcontent.read_braced rest') hbraced⟩
    rw [← hcleared] at htilded
    rw [← hleft]
    exact comes_of_read (hcontent.read_tilded rest) htilded

end Lifting

/-! ### Templates with such tags -/

/-- A tag that stands between tildes, and the text behind it. -/
structure TildedTag where
  content : List Char
  behind : List Char

namespace Template

/-- A text, and tags between tildes with texts behind them. -/
def tilded : List Char → List TildedTag → List Char
  | text, [] => text
  | text, tag :: tags => text ++ Span.tilded tag.content (tilded tag.behind tags)

/-- The tags between plain braces, and the texts without the blanks around the tags. -/
def stripped : List Char → List TildedTag → List Char
  | text, [] => text
  | text, tag :: tags =>
    Text.trimEnd text ++ Span.braced tag.content (stripped (Text.trimStart tag.behind) tags)

/-- The texts in front of the tags end, blanks apart, with neither a brace nor a backslash. -/
def KeepsApart : List Char → List TildedTag → Prop
  | _, [] => True
  | text, tag :: tags =>
    (∀ c ∈ (Text.trimEnd text).getLast?, c ≠ '{' ∧ c ≠ '\\') ∧ KeepsApart tag.behind tags

instance decidableKeepsApart : ∀ text tags, Decidable (KeepsApart text tags)
  | _, [] => .isTrue trivial
  | text, tag :: tags =>
    have := decidableKeepsApart tag.behind tags
    inferInstanceAs (Decidable ((∀ c ∈ (Text.trimEnd text).getLast?, c ≠ '{' ∧ c ≠ '\\') ∧
      KeepsApart tag.behind tags))

/-- The reader is in text when it comes to the place where `left` characters are left. -/
def StandsInText (source : List Char) (left : Nat) : Prop :=
  ∀ marker ∈ freeMarker? source, Lifting.standsInText marker left 0 {} source = true

instance (source : List Char) (left : Nat) : Decidable (StandsInText source left) :=
  inferInstanceAs (Decidable (∀ marker ∈ freeMarker? source, _))

variable {text : List Char} {tags : List TildedTag}

theorem trimStart_tilded (text : List Char) (tags : List TildedTag) :
    Text.trimStart (tilded text tags) = tilded (Text.trimStart text) tags := by
  cases tags with
  | nil => rfl
  | cons tag tags =>
    refine Text.trimStart_append ?_ text
    rintro c ⟨⟩
    decide

theorem length_tilded_le {later : List TildedTag} (h : later <:+ tags) (text : List Char) :
    (tilded [] later).length ≤ (tilded text tags).length := by
  induction tags generalizing text with
  | nil =>
    rw [List.suffix_nil.1 h]
    exact Nat.zero_le _
  | cons tag tags ih =>
    rcases List.suffix_cons_iff.1 h with rfl | hlater
    · simp only [tilded, List.length_append, List.length_nil]
      omega
    · have hle := ih hlater tag.behind
      simp only [tilded, Span.tilded, List.length_append, List.length_cons]
      omega

theorem KeepsApart.trimStart (h : KeepsApart text tags) :
    KeepsApart (Text.trimStart text) tags := by
  cases tags with
  | nil => trivial
  | cons tag tags =>
    obtain ⟨hlast, happart⟩ := h
    refine ⟨fun c hc => hlast c ?_, happart⟩
    obtain ⟨before, hbefore⟩ : Text.trimStart (Text.trimEnd text) <:+ Text.trimEnd text :=
      List.dropWhile_suffix _
    rw [← Text.trim, ← Text.trimStart_trimEnd] at hc
    rw [← hbefore, List.getLast?_append, hc]
    rfl

/-! ### Markers -/

theorem mem_stripped_iff {c : Char} (hblank : Text.isBlank c = false) (htilde : c ≠ '~')
    (text : List Char) (tags : List TildedTag) : c ∈ stripped text tags ↔ c ∈ tilded text tags := by
  induction tags generalizing text with
  | nil => rfl
  | cons tag tags ih =>
    have hend : c ∈ Text.trimEnd text ↔ c ∈ text := by
      rw [← Text.mem_inked_iff hblank, Text.inked_trimEnd, Text.mem_inked_iff hblank]
    have hrest : c ∈ stripped (Text.trimStart tag.behind) tags ↔ c ∈ tilded tag.behind tags := by
      rw [ih, ← trimStart_tilded, ← Text.mem_inked_iff hblank, Text.inked_trimStart,
        Text.mem_inked_iff hblank]
    simp only [stripped, tilded, Span.braced, Span.tilded, List.mem_append, List.mem_cons, hend,
      hrest, htilde, false_or]

theorem freeMarker?_stripped (text : List Char) (tags : List TildedTag) :
    freeMarker? (stripped text tags) = freeMarker? (tilded text tags) := by
  rw [freeMarker?, freeMarker?]
  refine List.find?_congr fun c hc => ?_
  obtain ⟨n, hn, rfl⟩ := List.mem_map.1 hc
  have hmarker := isMarker_ofNat (List.mem_range.1 hn)
  have hsame := mem_stripped_iff (Markup.Lexer.isBlank_of_isMarker hmarker)
    (hmarker.ne (by decide)) text tags
  simp only [List.contains_eq_mem, hsame]

/-! ### Lifting -/

/-- From a state in text behind no blank, lifting comes to the same end with the blanks and tildes
around the tags and without them. -/
theorem agrees_stripped {marker : Char} (hmarker : Text.isBlank marker = false) {st : Lifting}
    (hinked : st.EndsInked) (hcontents : ∀ tag ∈ tags, Span.IsInside tag.content)
    (happart : KeepsApart text tags)
    (hplaces : ∀ tag later, tag :: later <:+ tags →
      Lifting.standsInText marker (tilded [] (tag :: later)).length 0 st
        (tilded text tags) = true) :
    Lifting.Agrees marker st (tilded text tags) st (stripped text tags) := by
  induction tags generalizing text st with
  | nil => exact .refl st text
  | cons tag tags ih =>
    obtain ⟨hlast, happart⟩ := happart
    obtain ⟨hcontent, hcontents⟩ := List.forall_mem_cons.1 hcontents
    obtain ⟨blanks, hblanks, htext⟩ := Text.exists_trimEnd_append text
    have hfirm : Lifting.EndsFirm (Text.trimEnd text) := fun c hc =>
      ⟨Text.getLast?_trimEnd text c hc, hlast c hc⟩
    have hsource : tilded text (tag :: tags) =
        Text.trimEnd text ++ (blanks ++ Span.tilded tag.content (tilded tag.behind tags)) := by
      rw [← List.append_assoc, ← htext]
      rfl
    have hplace : Lifting.standsInText marker
        (Span.tilded tag.content (tilded tag.behind tags)).length 0 st (tilded text (tag :: tags)) =
          true := hplaces tag tags (List.suffix_refl _)
    have hbraced : stripped text (tag :: tags) = Text.trimEnd text ++
        Span.braced tag.content (stripped (Text.trimStart tag.behind) tags) := rfl
    rw [hsource] at hplace ⊢
    rw [hbraced]
    rcases Lifting.approach hmarker hfirm (fun _ _ => hinked) hblanks rfl
        (Span.head?_braced tag.content (stripped (Text.trimStart tag.behind) tags)) hplace with
      hagrees | ⟨middle, blanks', htag, hinked', hblanks', hcomes, hcomes'⟩
    · exact hagrees
    · rcases Lifting.comes_tilded hmarker hcontent htag hinked' hblanks' (tilded tag.behind tags)
          (stripped (Text.trimStart tag.behind) tags) with
        hagrees | ⟨next, -, hinked'', hlater, hlater'⟩
      · exact (hcomes.agrees.trans hagrees).trans hcomes'.agrees.symm
      · have hwhole := hcomes.trans hlater
        rw [trimStart_tilded] at hwhole
        have hrest : Lifting.Agrees marker next (tilded (Text.trimStart tag.behind) tags) next
            (stripped (Text.trimStart tag.behind) tags) := by
          refine ih hinked'' hcontents ?_ fun other later hsuffix => ?_
          · exact happart.trimStart
          · rw [← hwhole.standsInText_eq (length_tilded_le hsuffix _), ← hsource]
            exact hplaces other later (hsuffix.trans (List.suffix_cons tag tags))
        exact (hwhole.agrees.trans hrest).trans (hcomes'.trans hlater').agrees.symm

/-! ### Reading -/

/-- What tags between tildes leave in a template does not depend on the blanks around them. -/
theorem agree_ofSource_stripped (hcontents : ∀ tag ∈ tags, Span.IsInside tag.content)
    (happart : KeepsApart text tags)
    (hplaces : ∀ tag later, tag :: later <:+ tags →
      StandsInText (tilded text tags) (tilded [] (tag :: later)).length) :
    Agree Eq (Lifted.ofSource (tilded text tags)) (Lifted.ofSource (stripped text tags)) := by
  unfold Lifted.ofSource
  rw [freeMarker?_stripped]
  cases hfree : freeMarker? (tilded text tags) with
  | none => exact .error _ _
  | some marker =>
    have hblank := Markup.Lexer.isBlank_of_isMarker (isMarker_of_freeMarker? hfree)
    have hstart : Lifting.EndsInked {} := by
      intro c hc
      cases hc
    have hrun := agrees_stripped hblank hstart hcontents happart
      (fun tag later hlater => hplaces tag later hlater marker hfree) 0 0
    dsimp only
    generalize Lifting.run marker 0 0 {} (tilded text tags) = found at hrun ⊢
    generalize Lifting.run marker 0 0 {} (stripped text tags) = found' at hrun ⊢
    cases hrun with
    | error e e' => exact .error e e'
    | @ok st st' hst =>
      subst hst
      dsimp only
      cases st.blocks with
      | cons name blocks => exact .error _ _
      | nil => exact .refl _

/-- A template with tags between tildes is accepted exactly if it is accepted with the tags between
plain braces and without the blanks around them, and then its tree is the same. -/
theorem agree_read_stripped (hcontents : ∀ tag ∈ tags, Span.IsInside tag.content)
    (happart : KeepsApart text tags)
    (hplaces : ∀ tag later, tag :: later <:+ tags →
      StandsInText (tilded text tags) (tilded [] (tag :: later)).length) :
    Agree Eq (read (tilded text tags)) (read (stripped text tags)) := by
  refine (agree_ofSource_stripped hcontents happart hplaces).bind fun found found' hsame => ?_
  subst hsame
  exact .refl _

/-- A value and a block between tildes, in a paragraph. -/
def paragraphTags : List TildedTag :=
  [⟨"a".toList, " b ".toList⟩, ⟨"#if c".toList, " x ".toList⟩, ⟨"/if".toList, " </p>".toList⟩]

theorem paragraph_is_stripped :
    tilded "<p> ".toList paragraphTags =
        "<p> \x7b\x7b~a~\x7d\x7d b \x7b\x7b~#if c~\x7d\x7d x \x7b\x7b~/if~\x7d\x7d </p>".toList ∧
      stripped "<p> ".toList paragraphTags =
        "<p>\x7b\x7ba\x7d\x7db\x7b\x7b#if c\x7d\x7dx\x7b\x7b/if\x7d\x7d</p>".toList ∧
      ∃ template, read (tilded "<p> ".toList paragraphTags) = .ok template ∧
        read (stripped "<p> ".toList paragraphTags) = .ok template := by
  have hplaces : ∀ later ∈ paragraphTags.tails, later ≠ [] →
      StandsInText (tilded "<p> ".toList paragraphTags) (tilded [] later).length := by
    decide +kernel
  have hagree := agree_read_stripped (by decide +kernel) (by decide +kernel)
    fun tag later hlater =>
      hplaces (tag :: later) ((List.mem_tails _ _).2 hlater) (List.cons_ne_nil _ _)
  have hcheck :
      (read (tilded "<p> ".toList paragraphTags)).toOption.any (fun _ => true) = true := by
    decide +kernel
  obtain ⟨template, hread, -⟩ := exists_ok_of_check hcheck
  refine ⟨by decide +kernel, by decide +kernel, template, hread, ?_⟩
  rw [hread] at hagree
  generalize read (stripped "<p> ".toList paragraphTags) = found at hagree ⊢
  cases hagree with
  | ok heq => rw [heq]

/-! ### Raw text -/

def scriptText : List Char := "<script>if (a<b) s=\"  ".toList

def scriptTag : TildedTag := ⟨"c".toList, "  \";</script>".toList⟩

/-- A script is text, with no opening tag in it, but the comparison begins one for lifting, and the
blanks around the tag stay. -/
theorem script_keeps_blanks :
    Span.IsInside scriptTag.content ∧ KeepsApart scriptText [scriptTag] ∧
      ∃ template template', read (tilded scriptText [scriptTag]) = .ok template ∧
        read (stripped scriptText [scriptTag]) = .ok template' ∧
        template.strings = ["script", "if (a<b) s=\"  ", "  \";"] ∧
        template'.strings = ["script", "if (a<b) s=\"", "\";"] := by
  have hcheck : (read (tilded scriptText [scriptTag])).toOption.any (fun template =>
      decide (template.strings = ["script", "if (a<b) s=\"  ", "  \";"])) = true := by
    decide +kernel
  have hcheck' : (read (stripped scriptText [scriptTag])).toOption.any (fun template =>
      decide (template.strings = ["script", "if (a<b) s=\"", "\";"])) = true := by decide +kernel
  obtain ⟨template, hread, hstrings⟩ := exists_ok_of_check hcheck
  obtain ⟨template', hread', hstrings'⟩ := exists_ok_of_check hcheck'
  exact ⟨by decide +kernel, by decide +kernel, template, template', hread, hread',
    of_decide_eq_true hstrings, of_decide_eq_true hstrings'⟩

end Template

end MustacheJsx
