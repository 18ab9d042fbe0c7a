import Mathlib.Data.List.Forall2
import MustacheJsx.Proofs.Extraction.Attributes

/-!
# Attributes in the place of others

A replacement renews an attribute if it puts another one of the same name in its place, where a name
may begin and no quote is open. `Replacement.exists_of_applyAll_renewing` says that replacements of
that kind leave every tag of a template with its attributes: the glyphs around what gives way are
read as before, and every tag still ends where it ended.
-/

namespace MustacheJsx

open OpeningTag Glyph

/-- An attribute of the same name, with the same value unless that had a block. -/
structure TagAttribute.Keeps (a a' : TagAttribute) : Prop where
  name : a.name = a'.name
  value : hasBlock a.value = false → a.value = a'.value

theorem TagAttribute.Keeps.refl (a : TagAttribute) : a.Keeps a := ⟨rfl, fun _ => rfl⟩

/-- A tag with the same attributes in the same order, except for the values with blocks. -/
def OpeningTag.KeepsAttributes (tag tag' : OpeningTag) : Prop :=
  List.Forall₂ TagAttribute.Keeps tag.htmlAttributes tag'.htmlAttributes

theorem forall₂_keeps_refl (attributes : List TagAttribute) :
    List.Forall₂ TagAttribute.Keeps attributes attributes :=
  List.forall₂_same.2 fun a _ => .refl a

def OpeningTag.namesOf (tags : List OpeningTag) : List (List (List Char)) :=
  tags.map fun tag => tag.htmlAttributes.map TagAttribute.name

theorem OpeningTag.namesOf_eq {tags tags' : List OpeningTag}
    (h : List.Forall₂ KeepsAttributes tags tags') : namesOf tags = namesOf tags' := by
  have hnames : ∀ {as as' : List TagAttribute}, List.Forall₂ TagAttribute.Keeps as as' →
      as.map TagAttribute.name = as'.map TagAttribute.name := by
    intro as as' h
    induction h with
    | nil => rfl
    | cons hkeeps _ ih => rw [List.map_cons, List.map_cons, hkeeps.name, ih]
  induction h with
  | nil => rfl
  | cons hkeeps _ ih =>
    rw [namesOf, List.map_cons, hnames hkeeps]
    exact congrArg _ ih

/-! ### Replacements within a tag -/

namespace Replacement

/-- A replacement of the attribute that is read over `span`, behind the glyphs `before` of a tag, by
another one that keeps it. -/
structure Renews (r : Replacement) (state : TagState) (before span : List Glyph) : Prop where
  length : r.length = bytes span
  quotes : before.foldlM after? none = some none
  ready : (state.run before).isReady = true
  reads : ∃ (a a' : TagAttribute) (gs : List Glyph), a.IsRead span ∧ a'.IsRead gs ∧ a.Keeps a' ∧
    Proper gs ∧ textOf gs = r.text ∧ gs.getLast? ≠ some (char '{')

/-- A replacement that renews an attribute among glyphs that begin at the byte `cursor`. -/
def RenewsAmid (r : Replacement) (state : TagState) (cursor : Nat) (gs : List Glyph) : Prop :=
  ∃ before span behind, gs = before ++ (span ++ behind) ∧ cursor + bytes before = r.start ∧
    r.Renews state before span

variable {r s : Replacement} {rs : List Replacement} {cursor : Nat} {state : TagState}
  {gs before span behind : List Glyph}

theorem Renews.bytes_pos (h : r.Renews state before span) : 0 < bytes span := by
  obtain ⟨a, a', gs, hspan, -⟩ := h.reads
  obtain ⟨c, hs, rfl, -⟩ := hspan.exists_cons
  exact utf8Length_pos (List.cons_ne_nil c (textOf hs))

theorem Renews.stop_eq (h : r.Renews state before span) : r.start + bytes span = r.stop := by
  rw [stop, h.length]

/-- Behind the attribute that gives way, where a name may begin again, the later replacements renew
attributes of what is left. -/
theorem Renews.later (h : r.Renews state before span)
    (hproper : Proper (before ++ (span ++ behind))) (hstart : cursor + bytes before = r.start)
    (hle : r.stop ≤ s.start) (hs : s.RenewsAmid state cursor (before ++ (span ++ behind))) :
    s.RenewsAmid .beforeName r.stop behind := by
  obtain ⟨a, a', new, hspan, -⟩ := h.reads
  have hstop := h.stop_eq
  obtain ⟨before', span', behind', heq, hbefore', hs⟩ := hs
  rw [← List.append_assoc] at hproper heq
  obtain ⟨middle, rfl, hmiddle⟩ := hproper.exists_of_append_eq heq (by rw [bytes_append]; omega)
  rw [bytes_append, bytes_append] at hbefore'
  refine ⟨middle, span', behind', hmiddle, by omega, hs.length, ?_, ?_, hs.reads⟩
  · have hall := hs.quotes
    rw [List.foldlM_append, List.foldlM_append, h.quotes] at hall
    dsimp only [bind, Option.bind] at hall
    rw [hspan.quotes] at hall
    exact hall
  · have hready := hs.ready
    rw [List.append_assoc, TagState.run_append, hspan.run_append h.ready] at hready
    exact hready

theorem RenewsAmid.bounds (h : r.RenewsAmid state cursor gs) :
    cursor ≤ r.start ∧ r.start < cursor + bytes gs := by
  obtain ⟨before, span, behind, rfl, hstart, hrenews⟩ := h
  have hpos := hrenews.bytes_pos
  rw [bytes_append, bytes_append]
  omega

/-- The glyphs of a tag after replacements in it: they are read as a tag with the attributes that
the replacements keep. -/
theorem exists_renewed (hproper : Proper gs) (hends : ends none gs = true)
    (hrs : ∀ r ∈ rs, r.RenewsAmid state cursor gs)
    (hsorted : rs.Pairwise fun r s => r.stop ≤ s.start) (out : List Char) :
    ∃ gs', Proper gs' ∧ ends none gs' = true ∧ (state.isReady = false → gs'.head? = gs.head?) ∧
      List.Forall₂ TagAttribute.Keeps (state.attributes gs) (state.attributes gs') ∧
      ∀ rest rs', (∀ r ∈ rs', cursor + bytes gs ≤ r.start) →
        applyAll cursor (textOf gs ++ rest) out (rs ++ rs') =
          applyAll (cursor + bytes gs) rest ((textOf gs').reverse ++ out) rs' := by
  induction rs generalizing gs cursor state out with
  | nil =>
    exact ⟨gs, hproper, hends, fun _ => rfl, forall₂_keeps_refl _,
      fun rest rs' hrs' => applyAll_append hrs' rest out⟩
  | cons r rs ih =>
    obtain ⟨⟨before, span, behind, rfl, hstart, hrenews⟩, hrs⟩ := List.forall_mem_cons.1 hrs
    obtain ⟨hlater, hsorted⟩ := List.pairwise_cons.1 hsorted
    obtain ⟨a, a', new, hspan, hnew, hkeeps, hproperNew, htext, hlast⟩ := hrenews.reads
    have hquotes := hrenews.quotes
    have hready := hrenews.ready
    obtain ⟨hproperBefore, hproper', -⟩ := Proper.append_iff.1 hproper
    obtain ⟨-, hproperBehind, -⟩ := Proper.append_iff.1 hproper'
    rw [ends_append hquotes, ends_append hspan.quotes] at hends
    -- Every other replacement stands behind this one, where a name may begin again.
    have hrs' : ∀ s ∈ rs, s.RenewsAmid .beforeName r.stop behind := fun s hs =>
      hrenews.later hproper hstart (hlater s hs) (hrs s hs)
    obtain ⟨gap, hgap, happly⟩ := exists_gap_of_applyAll hstart hrenews.stop_eq out
    obtain ⟨tail, hproperTail, hendsTail, -, hattributes, happlyTail⟩ := ih hproperBehind hends hrs'
      hsorted (r.text.reverse ++ (gap ++ ((textOf before).reverse ++ out)))
    have hhead : ∀ g ∈ (gap.map char ++ (new ++ tail)).head?, g.opens = false := by
      obtain ⟨c, more, rfl, hc⟩ := hnew.exists_cons
      rcases hgap with rfl | rfl
      · rintro g ⟨⟩
        exact beq_eq_false_iff_ne.2 (WrittenAttribute.ne_of_isNameChar hc (by decide))
      · rintro g ⟨⟩
        rfl
    have hproperFrom : Proper (gap.map char ++ (new ++ tail)) := by
      have hproperLater : Proper (new ++ tail) := Proper.append_iff.2
        ⟨hproperNew, hproperTail, fun g hg _ _ heq => absurd (heq ▸ hg) hlast⟩
      rcases hgap with rfl | rfl
      · exact hproperLater
      · exact hproperLater.char_cons (by decide)
    refine ⟨before ++ (gap.map char ++ (new ++ tail)), ?_, ?_, fun hnot => ?_, ?_,
      fun rest rs' hrs' => ?_⟩
    · exact Proper.append_iff.2 ⟨hproperBefore, hproperFrom, fun _ _ g hg _ => hhead g hg⟩
    · have hgapQuotes : (gap.map char).foldlM after? none = some none := by
        rcases hgap with rfl | rfl <;> rfl
      rw [ends_append hquotes, ends_append hgapQuotes, ends_append hnew.quotes]
      exact hendsTail
    · cases before with
      | nil => exact absurd (hnot.symm.trans hready) Bool.false_ne_true
      | cons g before => rfl
    · rw [TagState.attributes_append, TagState.attributes_append _ before,
        TagState.attributes_gap hready hgap, hspan.attributes_append hready,
        hnew.attributes_append hready]
      exact List.rel_append (forall₂_keeps_refl _)
        (List.rel_append (forall₂_keeps_refl _) (.cons hkeeps hattributes))
    · have hbytes : r.stop + bytes behind = cursor + bytes (before ++ (span ++ behind)) := by
        rw [bytes_append, bytes_append, ← hrenews.stop_eq]
        omega
      have happlied := happlyTail rest rs' (by rw [hbytes]; exact hrs')
      rw [hbytes] at happlied
      rw [textOf_append, textOf_append, List.append_assoc, List.append_assoc, List.cons_append,
        happly, happlied]
      simp only [textOf_append, textOf_map_char, htext, List.reverse_append, List.append_assoc]
      rcases hgap with rfl | rfl <;> rfl

theorem exists_append_of_pairwise (h : rs.Pairwise fun r s => r.stop ≤ s.start) (limit : Nat) :
    ∃ near far, rs = near ++ far ∧ (∀ r ∈ near, r.start < limit) ∧ ∀ r ∈ far, limit ≤ r.start := by
  induction rs with
  | nil => exact ⟨[], [], rfl, nofun, nofun⟩
  | cons r rs ih =>
    obtain ⟨hlater, hsorted⟩ := List.pairwise_cons.1 h
    by_cases hr : r.start < limit
    · obtain ⟨near, far, rfl, hnear, hfar⟩ := ih hsorted
      exact ⟨r :: near, far, rfl, List.forall_mem_cons.2 ⟨hr, hnear⟩, hfar⟩
    · rw [Nat.not_lt] at hr
      refine ⟨[], r :: rs, rfl, nofun, List.forall_mem_cons.2 ⟨hr, fun s hs => ?_⟩⟩
      exact Nat.le_trans hr (Nat.le_trans r.start_le_stop (hlater s hs))

/-- A replacement of an attribute of a tag. -/
def RenewsIn (r : Replacement) (tag : OpeningTag) : Prop :=
  r.RenewsAmid .tagName tag.start (Glyph.read tag.text)

theorem RenewsIn.bounds {tag : OpeningTag} (h : r.RenewsIn tag) :
    tag.start ≤ r.start ∧ r.start < tag.start + Text.utf8Length tag.text := by
  have hbounds := RenewsAmid.bounds h
  rwa [bytes, textOf_read] at hbounds

/-- Sorted replacements that begin in tags of a text are those in its first tag and those in the
tags behind. -/
theorem exists_append_of_within {Within : Replacement → OpeningTag → Prop}
    (hwithin : ∀ {r tag}, Within r tag → tag.start ≤ r.start ∧ r.start < tag.stop)
    {tag : OpeningTag} {tags : List OpeningTag}
    (hsorted : rs.Pairwise fun r s => r.stop ≤ s.start)
    (hbehind : ∀ other ∈ tags, tag.stop ≤ other.start)
    (hrs : ∀ r ∈ rs, ∃ other ∈ tag :: tags, Within r other) :
    ∃ near far, rs = near ++ far ∧ (∀ r ∈ near, Within r tag) ∧
      (∀ r ∈ far, ∃ other ∈ tags, Within r other) ∧ ∀ r ∈ far, tag.stop ≤ r.start := by
  obtain ⟨near, far, rfl, hnear, hfar⟩ := exists_append_of_pairwise hsorted tag.stop
  refine ⟨near, far, rfl, fun r hr => ?_, fun r hr => ?_, hfar⟩
  · obtain ⟨other, hother, hin⟩ := hrs r (List.mem_append_left _ hr)
    rcases List.mem_cons.1 hother with rfl | hother
    · exact hin
    · have hlimit := hbehind other hother
      have hstart := (hwithin hin).1
      have hlt := hnear r hr
      omega
  · obtain ⟨other, hother, hin⟩ := hrs r (List.mem_append_right _ hr)
    rcases List.mem_cons.1 hother with rfl | hother
    · exact absurd (hwithin hin).2 (Nat.not_lt.2 (hfar r hr))
    · exact ⟨other, hother, hin⟩

end Replacement

/-! ### The tags of a template -/

namespace OpeningTag

variable {offset skip : Nat} {c : Char} {cs rest : List Char} {gs : List Glyph}

/-- What stands at a place does not depend on its position. -/
theorem landmark_shift (start start' : Nat) (c : Char) (cs : List Char) :
    (∃ count, landmark start c cs = .pass count ∧ landmark start' c cs = .pass count) ∨
      (∃ tag tag', landmark start c cs = .tag tag ∧ landmark start' c cs = .tag tag' ∧
        tag.start = start ∧ tag.text = tag'.text) ∨
      (landmark start c cs = .unending ∧ landmark start' c cs = .unending) := by
  rw [landmark, landmark]
  split
  · split
    · exact .inl ⟨_, rfl, rfl⟩
    · exact .inr (.inr ⟨rfl, rfl⟩)
  · split
    · split
      · exact .inl ⟨_, rfl, rfl⟩
      · exact .inr (.inr ⟨rfl, rfl⟩)
    · split
      · rw [at?, at?]
        cases scan none '<' 1 0 ((c :: cs).drop 1) with
        | none => exact .inr (.inr ⟨rfl, rfl⟩)
        | some found => exact .inr (.inl ⟨_, _, rfl, rfl, rfl, rfl⟩)
      · exact .inl ⟨_, rfl, rfl⟩

theorem landmark_pass {count : Nat} {offset : Nat} (h : landmark offset c cs = .pass count)
    (offset' : Nat) : landmark offset' c cs = .pass count := by
  rcases landmark_shift offset offset' c cs with ⟨count, hmark, hmark'⟩ | ⟨tag, tag', hmark, -⟩ |
    ⟨hmark, -⟩
  · rw [hmark', ← hmark, h]
  · rw [hmark] at h
    cases h
  · rw [hmark] at h
    cases h

theorem le_start_of_mem_allFrom {tag : OpeningTag} (h : tag ∈ allFrom offset skip cs) :
    offset ≤ tag.start := by
  induction cs generalizing offset skip with
  | nil => cases h
  | cons c cs ih =>
    cases skip with
    | succ skip => exact Nat.le_trans (Nat.le_add_right _ _) (ih h)
    | zero =>
      rw [allFrom] at h
      rcases landmark_shift offset 0 c cs with ⟨count, hmark, -⟩ | ⟨found, -, hmark, -, hstart, -⟩ |
        ⟨hmark, -⟩
      · rw [hmark] at h
        exact Nat.le_trans (Nat.le_add_right _ _) (ih h)
      · rw [hmark] at h
        rcases List.mem_cons.1 h with rfl | h
        · exact Nat.le_of_eq hstart.symm
        · exact Nat.le_trans (Nat.le_add_right _ _) (ih h)
      · rw [hmark] at h
        cases h

theorem keepsAttributes_shift (offset offset' skip : Nat) (cs : List Char) :
    List.Forall₂ KeepsAttributes (allFrom offset skip cs) (allFrom offset' skip cs) := by
  induction cs generalizing offset offset' skip with
  | nil => exact .nil
  | cons c cs ih =>
    cases skip with
    | succ skip => exact ih _ _ _
    | zero =>
      rw [allFrom, allFrom]
      rcases landmark_shift offset offset' c cs with ⟨count, hmark, hmark'⟩ |
        ⟨tag, tag', hmark, hmark', -, htext⟩ | ⟨hmark, hmark'⟩
      · rw [hmark, hmark']
        exact ih _ _ _
      · rw [hmark, hmark']
        dsimp only
        rw [htext]
        refine .cons ?_ (ih _ _ _)
        rw [KeepsAttributes, htmlAttributes, htext]
        exact forall₂_keeps_refl _
      · rw [hmark, hmark']
        exact .nil

/-- A tag is listed with its text, and then what follows it. -/
theorem allFrom_tag {d : Char} {text : List Char} {mustaches : List TagMustache}
    (hletter : Text.isAsciiLetter d = true)
    (hscan : scan none '<' 1 0 (d :: text ++ rest) = some (mustaches, rest)) :
    allFrom offset 0 ('<' :: (d :: text ++ rest)) =
      { start := offset, text := '<' :: d :: text, mustaches } ::
        allFrom (offset + Text.utf8Length ('<' :: d :: text)) 0 rest := by
  have hcomment : Text.startsWith ['<', '!', '-', '-'] ('<' :: (d :: text ++ rest)) = false := by
    have hbang : '!' ≠ d := (WrittenAttribute.ne_of_isNameChar
      (WrittenAttribute.isNameChar_of_isAsciiLetter hletter) (by decide)).symm
    simp [Text.startsWith, Text.afterLead?, hbang]
  have htake : (d :: text ++ rest).take ((d :: text ++ rest).length - rest.length) = d :: text := by
    rw [List.length_append, Nat.add_sub_cancel, List.take_left]
  have hone : Text.utf8Length ['<'] = 1 := rfl
  rw [allFrom_open hcomment hletter, resume, hone, hscan]
  dsimp only
  rw [htake]
  rfl

theorem exists_of_open {d : Char} {mustaches : List TagMustache}
    (hletter : Text.isAsciiLetter d = true)
    (hscan : scan none '<' 1 0 (d :: cs) = some (mustaches, rest)) :
    ∃ gs, Proper (char d :: gs) ∧ ends none (char d :: gs) = true ∧ cs = textOf gs ++ rest := by
  obtain ⟨gs, hproper, hends, htext⟩ := exists_of_scan hscan
  have hname := WrittenAttribute.isNameChar_of_isAsciiLetter hletter
  cases gs with
  | nil => cases hends
  | cons g gs =>
    cases g with
    | char c =>
      obtain ⟨rfl, hcs⟩ := List.cons.inj htext
      exact ⟨gs, hproper, hends, hcs⟩
    | mustache text =>
      obtain ⟨body, rfl, -⟩ := hproper.exists_of_mustache
      obtain rfl := (List.cons.inj htext).1
      exact absurd hname (by decide)

theorem read_open {d : Char} (hproper : Proper (char d :: gs)) :
    Glyph.read ('<' :: d :: textOf gs) = char '<' :: char d :: gs := by
  have hread := hproper.read_textOf
  rw [textOf_cons, Glyph.text, List.singleton_append] at hread
  rw [read_char (by simp), hread]

end OpeningTag

namespace Replacement

variable {rs : List Replacement} {offset : Nat} {cs out result : List Char}

theorem exists_renewed_tag {d : Char} {gs : List Glyph} {mustaches : List TagMustache}
    (hproper : Proper (char d :: gs)) (hends : ends none (char d :: gs) = true)
    (hrs : ∀ r ∈ rs, r.RenewsIn { start := offset, text := '<' :: d :: textOf gs, mustaches })
    (hsorted : rs.Pairwise fun r s => r.stop ≤ s.start) (out : List Char) :
    ∃ gs', Proper (char d :: gs') ∧ ends none (char d :: gs') = true ∧
      (∀ mustaches', KeepsAttributes
        { start := offset, text := '<' :: d :: textOf gs, mustaches }
        { start := offset, text := '<' :: d :: textOf gs', mustaches := mustaches' }) ∧
      ∀ rest rs', (∀ r ∈ rs', offset + Text.utf8Length ('<' :: d :: textOf gs) ≤ r.start) →
        applyAll offset ('<' :: d :: textOf gs ++ rest) out (rs ++ rs') =
          applyAll (offset + Text.utf8Length ('<' :: d :: textOf gs)) rest
            (('<' :: d :: textOf gs').reverse ++ out) rs' := by
  have hread := read_open hproper
  have hone : Text.utf8Length ['<'] = 1 := rfl
  have hwithin : ∀ r ∈ rs, r.RenewsAmid .tagName (offset + 1) (char d :: gs) := by
    intro r hr
    obtain ⟨before, span, behind, htext, hstart, hrenews⟩ := hrs r hr
    rw [hread] at htext
    cases before with
    | nil => cases hrenews.ready
    | cons g before =>
      obtain ⟨rfl, hbehind⟩ := List.cons.inj htext
      refine ⟨before, span, behind, hbehind, ?_, hrenews.length, hrenews.quotes, hrenews.ready,
        hrenews.reads⟩
      rw [bytes, textOf_cons, Text.utf8Length_append] at hstart
      rw [← hstart, bytes, Nat.add_assoc]
      rfl
  obtain ⟨gs', hproper', hends', hhead, hkeeps, happly⟩ :=
    exists_renewed hproper hends hwithin hsorted ('<' :: out)
  obtain ⟨gs', rfl⟩ := List.head?_eq_some_iff.1 (hhead rfl)
  refine ⟨gs', hproper', hends', fun mustaches' => ?_, fun rest rs' hrs' => ?_⟩
  · rw [KeepsAttributes, htmlAttributes, htmlAttributes, hread, read_open hproper']
    exact hkeeps
  · have hbytes : offset + 1 + bytes (char d :: gs) =
        offset + Text.utf8Length ('<' :: d :: textOf gs) := Nat.add_assoc _ _ _
    have happlied := happly rest rs' (by rw [hbytes]; exact hrs')
    have hbehind : ∀ r ∈ rs ++ rs', offset + Text.utf8Length ['<'] ≤ r.start := by
      intro r hr
      rcases List.mem_append.1 hr with hr | hr
      · rw [hone]
        exact (hwithin r hr).bounds.1
      · have hle := hrs' r hr
        rw [← hbytes] at hle
        rw [hone]
        omega
    rw [hbytes] at happlied
    have hfirst := applyAll_append hbehind (d :: textOf gs ++ rest) out
    rw [hone] at hfirst
    refine hfirst.trans (happlied.trans ?_)
    simp [Glyph.text]

/-- Where one text begins like the other with a tag, or all of it. -/
def AlikeToTag (cs cs' : List Char) : Prop :=
  cs' = cs ∨ ∃ before rest rest', '<' ∈ before ∧ cs = before ++ rest ∧ cs' = before ++ rest'

theorem AlikeToTag.landmark {c : Char} {text rest rest' : List Char}
    (h : AlikeToTag rest rest') (hcs : c :: cs = text ++ rest) (hne : text ≠ [])
    (hpass : OpeningTag.landmark offset c cs = .pass text.length) (offset' : Nat) :
    ∃ cs', c :: cs' = text ++ rest' ∧ OpeningTag.landmark offset' c cs' = .pass text.length := by
  obtain ⟨d, text, rfl⟩ := List.exists_cons_of_ne_nil hne
  obtain rfl := (List.cons.inj hcs).1
  refine ⟨text ++ rest', rfl, ?_⟩
  rcases h with rfl | ⟨before, more, more', hless, rfl, rfl⟩
  · obtain rfl : cs = text ++ rest' := (List.cons.inj hcs).2
    exact landmark_pass hpass offset'
  · exact landmark_pass (landmark_exchange (landmark_pass hpass 0) hcs rfl hless) offset'

theorem exists_of_applyAll_renewing (h : applyAll offset cs out rs = .ok result)
    (hrs : ∀ r ∈ rs, ∃ tag ∈ allFrom offset 0 cs, r.RenewsIn tag) :
    ∃ tail, result = out.reverse ++ tail ∧ AlikeToTag cs tail ∧
      ∀ offset', List.Forall₂ KeepsAttributes (allFrom offset 0 cs) (allFrom offset' 0 tail) := by
  induction hn : cs.length using Nat.strong_induction_on generalizing offset cs out rs with
  | _ n ih =>
    -- Without replacements everything stays as it is.
    have of_nil : rs = [] → ∃ tail, result = out.reverse ++ tail ∧ AlikeToTag cs tail ∧
        ∀ offset', List.Forall₂ KeepsAttributes (allFrom offset 0 cs) (allFrom offset' 0 tail) := by
      rintro rfl
      cases h
      exact ⟨cs, rfl, .inl rfl, fun offset' => keepsAttributes_shift offset offset' 0 cs⟩
    have of_none : allFrom offset 0 cs = [] → rs = [] := by
      intro hnone
      refine List.eq_nil_iff_forall_not_mem.2 fun r hr => ?_
      obtain ⟨tag, htag, -⟩ := hrs r hr
      rw [hnone] at htag
      cases htag
    cases cs with
    | nil => exact of_nil (of_none rfl)
    | cons c cs =>
      rcases between_cases offset c cs with ⟨text, rest, hcs, hne, hpass, hread⟩ |
        ⟨d, rest, rfl, rfl, hletter, hscan, -⟩ | ⟨hmark, -⟩
      · have hall := allFrom_pass hcs hne hpass
        have hlater : ∀ r ∈ rs, offset + Text.utf8Length text ≤ r.start := by
          intro r hr
          obtain ⟨tag, htag, hrenews⟩ := hrs r hr
          rw [hall] at htag
          exact Nat.le_trans (le_start_of_mem_allFrom htag) hrenews.bounds.1
        have hshort := congrArg List.length hcs
        have hpos := List.length_pos_iff.2 hne
        rw [List.length_append, hn] at hshort
        rw [hcs, applyAll_append hlater] at h
        rw [hall] at hrs ⊢
        obtain ⟨tail, rfl, halike, hkeeps⟩ := ih rest.length (by omega) h hrs rfl
        refine ⟨text ++ tail, by simp, ?_, fun offset' => ?_⟩
        · rcases halike with rfl | ⟨before, more, more', hless, rfl, rfl⟩
          · exact .inl hcs.symm
          · exact .inr ⟨text ++ before, more, more', List.mem_append_right _ hless,
              by rw [hcs, List.append_assoc], by rw [List.append_assoc]⟩
        · obtain ⟨cs', hcs', hpass'⟩ := halike.landmark hcs hne hpass offset'
          rw [← hcs', allFrom_pass hcs' hne hpass']
          exact hkeeps _
      · obtain ⟨⟨mustaches, after⟩, hscan⟩ := Option.isSome_iff_exists.1 hscan
        obtain ⟨gs, hproper, hends, rfl⟩ := exists_of_open hletter hscan
        have hall := @allFrom_tag offset after d (textOf gs) mustaches hletter hscan
        rw [List.cons_append] at hall
        rw [hall] at hrs ⊢
        have hsorted := pairwise_of_applyAll h
        -- What begins in the tag is in it, and the rest is in later tags.
        obtain ⟨near, far, rfl, hwithin, hlater, hfar⟩ :=
          exists_append_of_within RenewsIn.bounds hsorted (fun _ => le_start_of_mem_allFrom) hrs
        obtain ⟨gs', hproper', hends', hkeeps, happly⟩ := exists_renewed_tag hproper hends hwithin
          (List.pairwise_append.1 hsorted).1 out
        have happlied := happly after far hfar
        rw [List.cons_append, List.cons_append] at happlied
        rw [happlied] at h
        have hshort : after.length < n := by
          rw [← hn]
          simp only [List.length_cons, List.length_append]
          omega
        obtain ⟨tail, rfl, -, hrest⟩ := ih after.length hshort h hlater rfl
        obtain ⟨mustaches', hscan'⟩ := exists_scan hproper' hends' '<' 1 tail
        refine ⟨'<' :: d :: textOf gs' ++ tail, by simp, .inr ⟨['<'], d :: (textOf gs ++ after),
          d :: textOf gs' ++ tail, List.mem_cons_self, rfl, rfl⟩, fun offset' => ?_⟩
        have hall' := @allFrom_tag offset' tail d (textOf gs') mustaches' hletter hscan'
        rw [List.cons_append, hall']
        exact .cons (hkeeps mustaches') (hrest _)
      · refine of_nil (of_none ?_)
        rw [allFrom, hmark]

end Replacement

end MustacheJsx
