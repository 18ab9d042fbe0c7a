import MustacheJsx.Proofs.Extraction.Renewing

/-!
# Tags in their template

The reader of opening tags passes over some text, reads a tag, passes over some text again. This
module has induction along that way, and says where the parts of tags stand: `LiesIn` tells which
replacements stay between the angle brackets of a tag.
-/

namespace MustacheJsx

namespace OpeningTag

variable {quote : Option Char} {last : Char} {offset : Nat} {cs rest template : List Char}
  {mustaches : List TagMustache} {tag : OpeningTag}

/-! ### Inside a tag -/

theorem exists_of_scan_end (h : scan quote last offset 0 cs = some (mustaches, rest)) :
    ∃ inner, cs = inner ++ '>' :: rest := by
  refine scan_induction (motive := fun _ _ cs _ => ∃ inner, cs = inner ++ '>' :: rest) ?_ ?_ ?_ h
  · exact fun _ => ⟨[], rfl⟩
  · rintro quote offset c cs ms - - ⟨inner, rfl⟩
    exact ⟨c :: inner, rfl⟩
  · rintro quote offset cs ms m - - - ⟨inner, rfl⟩
    exact ⟨m.text ++ inner, (List.append_assoc _ _ _).symm⟩

/-- Where a mustache of a tag stands. -/
theorem exists_of_mem_scan (h : scan quote last offset 0 cs = some (mustaches, rest))
    {m : TagMustache} (hm : m ∈ mustaches) :
    ∃ before behind, cs = before ++ (m.text ++ (behind ++ '>' :: rest)) ∧
      m.start = offset + Text.utf8Length before ∧ ['{', '{'] <+: m.text ∧
      mustacheText? (m.text ++ (behind ++ '>' :: rest)) = some m.text := by
  have hall := scan_induction (motive := fun _ offset cs ms =>
    (∃ inner, cs = inner ++ '>' :: rest) ∧ ∀ m ∈ ms, ∃ before behind,
      cs = before ++ (m.text ++ (behind ++ '>' :: rest)) ∧
      m.start = offset + Text.utf8Length before ∧ ['{', '{'] <+: m.text ∧
      mustacheText? (m.text ++ (behind ++ '>' :: rest)) = some m.text) ?_ ?_ ?_ h
  · exact hall.2 m hm
  · exact fun offset => ⟨⟨[], rfl⟩, nofun⟩
  · rintro quote offset c cs ms - - ⟨⟨inner, rfl⟩, hlater⟩
    refine ⟨⟨c :: inner, rfl⟩, fun m hm => ?_⟩
    obtain ⟨before, behind, hcs, hstart, hbraces, htext⟩ := hlater m hm
    exact ⟨c :: before, behind, by rw [hcs]; rfl, by rw [hstart, Nat.add_assoc]; rfl, hbraces,
      htext⟩
  · rintro quote offset cs ms first hfirst hopens hread ⟨⟨inner, rfl⟩, hlater⟩
    refine ⟨⟨first.text ++ inner, (List.append_assoc _ _ _).symm⟩, fun m hm => ?_⟩
    rcases List.mem_cons.1 hm with rfl | hm
    · exact ⟨[], inner, rfl, hfirst, hopens, hread⟩
    · obtain ⟨before, behind, hcs, hstart, hbraces, htext⟩ := hlater m hm
      refine ⟨first.text ++ before, behind, ?_, ?_, hbraces, htext⟩
      · rw [hcs, List.append_assoc]
      · rw [hstart, Text.utf8Length_append, Nat.add_assoc]

/-- The reader goes through the text of a tag and meets its mustaches. -/
def IsRead (tag : OpeningTag) : Prop :=
  ∃ d inner rest, tag.text = '<' :: d :: inner ∧ Text.isAsciiLetter d = true ∧
    scan none '<' 1 0 (d :: inner ++ rest) = some (tag.mustaches, rest)

namespace IsRead

variable (h : tag.IsRead)
include h

theorem head?_text : tag.text.head? = some '<' := by
  obtain ⟨d, inner, rest, htext, -⟩ := h
  rw [htext]
  rfl

theorem getLast?_text : tag.text.getLast? = some '>' := by
  obtain ⟨d, inner, rest, htext, -, hscan⟩ := h
  obtain ⟨front, hfront⟩ := exists_of_scan_end hscan
  have hinner : d :: inner = front ++ ['>'] := by
    have hsource : d :: inner ++ rest = front ++ ['>'] ++ rest := hfront.trans (by simp)
    exact List.append_cancel_right hsource
  rw [htext, hinner, List.getLast?_cons, List.getLast?_append]
  rfl

theorem exists_of_mem {m : TagMustache} (hm : m ∈ tag.mustaches) :
    ∃ before behind, tag.text = before ++ (m.text ++ behind) ∧ before ≠ [] ∧ behind ≠ [] ∧
      m.start = Text.utf8Length before ∧ ['{', '{'] <+: m.text ∧
      mustacheText? (m.text ++ behind) = some m.text := by
  obtain ⟨d, inner, rest, htext, -, hscan⟩ := h
  obtain ⟨before, behind, hcs, hstart, hbraces, hread⟩ := exists_of_mem_scan hscan hm
  have hinner : d :: inner = before ++ (m.text ++ (behind ++ ['>'])) := by
    have hsource : d :: inner ++ rest = before ++ (m.text ++ (behind ++ ['>'])) ++ rest :=
      hcs.trans (by simp)
    exact List.append_cancel_right hsource
  obtain ⟨-, -, -, -, hmore⟩ := exists_of_mustacheText? hread
  refine ⟨'<' :: before, behind ++ ['>'], by rw [htext, hinner]; rfl, List.cons_ne_nil _ _,
    List.concat_ne_nil '>' behind, hstart, hbraces, hmore _⟩

end IsRead

/-! ### Along a template -/

/-- Induction along the tags of a text, from its end to its beginning. -/
theorem allFrom_induction {motive : Nat → List Char → List OpeningTag → Prop}
    (rest : ∀ offset cs, motive offset cs [])
    (pass : ∀ offset text cs tags, (∀ tag ∈ tags, offset + Text.utf8Length text ≤ tag.start) →
      motive (offset + Text.utf8Length text) cs tags → motive offset (text ++ cs) tags)
    (tag : ∀ (tag : OpeningTag) cs tags, tag.IsRead → (∀ other ∈ tags, tag.stop ≤ other.start) →
      motive tag.stop cs tags → motive tag.start (tag.text ++ cs) (tag :: tags))
    (offset : Nat) (cs : List Char) : motive offset cs (allFrom offset 0 cs) := by
  induction hn : cs.length using Nat.strong_induction_on generalizing offset cs with
  | _ n ih =>
    cases cs with
    | nil => exact rest offset []
    | cons c cs =>
      rcases between_cases offset c cs with ⟨text, behind, hcs, hne, hpass, -⟩ |
        ⟨d, behind, rfl, rfl, hletter, hscan, -⟩ | ⟨hmark, -⟩
      · have hshort := congrArg List.length hcs
        have hpos := List.length_pos_iff.2 hne
        rw [List.length_append, hn] at hshort
        rw [allFrom_pass hcs hne hpass, hcs]
        exact pass offset text behind _ (fun _ => le_start_of_mem_allFrom)
          (ih behind.length (by omega) _ behind rfl)
      · obtain ⟨⟨mustaches, behind'⟩, hscan⟩ := Option.isSome_iff_exists.1 hscan
        obtain ⟨inner, rfl⟩ : ∃ inner, behind = inner ++ behind' := by
          rw [scan_nameChar '<' 1 (WrittenAttribute.isNameChar_of_isAsciiLetter hletter)] at hscan
          obtain ⟨inner, hinner⟩ := suffix_of_scan hscan
          exact ⟨inner, hinner.symm⟩
        have hall := @allFrom_tag offset behind' d inner mustaches hletter hscan
        rw [List.cons_append] at hall
        rw [hall]
        refine tag { start := offset, text := '<' :: d :: inner, mustaches } behind' _
          ⟨d, inner, behind', rfl, hletter, hscan⟩ (fun _ => le_start_of_mem_allFrom)
          (ih behind'.length ?_ _ behind' rfl)
        rw [← hn]
        simp only [List.length_cons, List.length_append]
        omega
      · rw [allFrom, hmark]
        exact rest offset (c :: cs)

theorem isRead_of_mem (h : tag ∈ all template) : tag.IsRead := by
  refine allFrom_induction (motive := fun _ _ tags => ∀ tag ∈ tags, tag.IsRead) ?_ ?_ ?_ 0 template
    tag h
  · exact fun _ _ => nofun
  · exact fun _ _ _ _ _ hall => hall
  · exact fun _ _ _ hread _ hall => List.forall_mem_cons.2 ⟨hread, hall⟩

theorem pairwise_all (template : List Char) :
    (all template).Pairwise fun tag tag' => tag.stop ≤ tag'.start := by
  refine allFrom_induction (motive := fun _ _ tags =>
    tags.Pairwise fun tag tag' : OpeningTag => tag.stop ≤ tag'.start) ?_ ?_ ?_ 0 template
  · exact fun _ _ => .nil
  · exact fun _ _ _ _ _ hall => hall
  · exact fun _ _ _ _ hbehind hall => .cons hbehind hall

theorem eq_or_apart {tag' : OpeningTag} (h : tag ∈ all template) (h' : tag' ∈ all template) :
    tag = tag' ∨ tag.stop ≤ tag'.start ∨ tag'.stop ≤ tag.start := by
  have hall := pairwise_all template
  exact List.Pairwise.forall_of_forall_of_flip (R := fun tag tag' : OpeningTag =>
      tag = tag' ∨ tag.stop ≤ tag'.start ∨ tag'.stop ≤ tag.start) (fun _ _ => .inl rfl)
    (hall.imp fun hstop => .inr (.inl hstop)) (hall.imp fun hstop => .inr (.inr hstop)) h h'

theorem exists_of_mem_all (h : tag ∈ all template) :
    ∃ before behind, template = before ++ (tag.text ++ behind) ∧
      Text.utf8Length before = tag.start := by
  have hall := allFrom_induction (motive := fun offset cs tags =>
    ∀ tag ∈ tags, ∃ before behind, cs = before ++ (tag.text ++ behind) ∧
      offset + Text.utf8Length before = tag.start) ?_ ?_ ?_ 0 template
  · obtain ⟨before, behind, htemplate, hstart⟩ := hall tag h
    exact ⟨before, behind, htemplate, by rw [← hstart, Nat.zero_add]⟩
  · exact fun _ _ => nofun
  · intro offset text cs tags _ hall tag htag
    obtain ⟨before, behind, rfl, hstart⟩ := hall tag htag
    exact ⟨text ++ before, behind, (List.append_assoc _ _ _).symm, by
      rw [← hstart, Text.utf8Length_append, Nat.add_assoc]⟩
  · intro first cs tags _ _ hall tag htag
    rcases List.mem_cons.1 htag with rfl | htag
    · exact ⟨[], cs, rfl, rfl⟩
    · obtain ⟨before, behind, rfl, hstart⟩ := hall tag htag
      exact ⟨first.text ++ before, behind, (List.append_assoc _ _ _).symm, by
        rw [← hstart, Text.utf8Length_append, ← Nat.add_assoc]
        rfl⟩

end OpeningTag

open OpeningTag

/-! ### Replacements within tags -/

namespace Replacement

/-- A replacement of some characters that stand before the end of a text. The text begins at the
byte `cursor`. -/
def LiesAmid (r : Replacement) (cursor : Nat) (cs : List Char) : Prop :=
  ∃ before span behind, cs = before ++ (span ++ behind) ∧ span ≠ [] ∧ behind ≠ [] ∧
    cursor + Text.utf8Length before = r.start ∧ r.length = Text.utf8Length span

/-- A replacement of some characters between the angle brackets of a tag. -/
structure LiesIn (r : Replacement) (tag : OpeningTag) : Prop where
  amid : r.LiesAmid tag.start tag.text
  start : tag.start < r.start

variable {r s : Replacement} {rs : List Replacement} {cursor offset : Nat}
  {cs template result : List Char} {tag : OpeningTag} {tags : List OpeningTag}

theorem LiesAmid.bounds (h : r.LiesAmid cursor cs) :
    cursor ≤ r.start ∧ r.start < r.stop ∧ r.stop < cursor + Text.utf8Length cs := by
  obtain ⟨before, span, behind, rfl, hspan, hbehind, hstart, hlength⟩ := h
  have hpos := utf8Length_pos hspan
  have hpos' := utf8Length_pos hbehind
  rw [Text.utf8Length_append, Text.utf8Length_append, stop, hlength]
  omega

theorem LiesIn.bounds (h : r.LiesIn tag) :
    tag.start < r.start ∧ r.start < r.stop ∧ r.stop < tag.stop :=
  ⟨h.start, h.amid.bounds.2⟩

theorem LiesIn.liesAmid (h : r.LiesIn tag) (htag : tag ∈ all template) :
    r.LiesAmid 0 template := by
  obtain ⟨front, rest, rfl, hfront⟩ := exists_of_mem_all htag
  obtain ⟨before, span, behind, htext, hspan, hbehind, hstart, hlength⟩ := h.amid
  refine ⟨front ++ before, span, behind ++ rest, ?_, hspan, ?_, ?_, hlength⟩
  · rw [htext]
    simp only [List.append_assoc]
  · exact fun hnil => hbehind (List.append_eq_nil_iff.1 hnil).1
  · rw [Text.utf8Length_append, hfront, Nat.zero_add, hstart]

/-- Behind what gives way, the later replacements stand amid what is left. -/
theorem LiesAmid.later {before span behind : List Char}
    (h : s.LiesAmid cursor (before ++ (span ++ behind)))
    (hstart : cursor + Text.utf8Length before = r.start)
    (hlength : r.length = Text.utf8Length span) (hle : r.stop ≤ s.start) :
    s.LiesAmid r.stop behind := by
  obtain ⟨before', span', behind', hcs, hspan, hbehind, hstart', hlength'⟩ := h
  rw [stop] at hle
  rw [← List.append_assoc] at hcs
  obtain ⟨middle, rfl, hmiddle⟩ := Text.exists_of_append_eq hcs (by
    rw [Text.utf8Length_append]
    omega)
  refine ⟨middle, span', behind', hmiddle, hspan, hbehind, ?_, hlength'⟩
  rw [Text.utf8Length_append, Text.utf8Length_append] at hstart'
  rw [stop]
  omega

/-- Replacements amid a text change neither its last character nor what comes behind it. -/
theorem exists_applied (hrs : ∀ r ∈ rs, r.LiesAmid cursor cs)
    (hsorted : rs.Pairwise fun r s => r.stop ≤ s.start) (out : List Char) :
    ∃ cs', cs'.getLast? = cs.getLast? ∧ ((∀ r ∈ rs, cursor < r.start) → cs'.head? = cs.head?) ∧
      (rs = [] → cs' = cs) ∧
      ∀ rest rs', (∀ r ∈ rs', cursor + Text.utf8Length cs ≤ r.start) →
        applyAll cursor (cs ++ rest) out (rs ++ rs') =
          applyAll (cursor + Text.utf8Length cs) rest (cs'.reverse ++ out) rs' := by
  induction rs generalizing cursor cs out with
  | nil =>
    exact ⟨cs, rfl, fun _ => rfl, fun _ => rfl, fun rest rs' hrs' => applyAll_append hrs' rest out⟩
  | cons r rs ih =>
    obtain ⟨⟨before, span, behind, rfl, hspan, hbehind, hstart, hlength⟩, hrs⟩ :=
      List.forall_mem_cons.1 hrs
    obtain ⟨hlater, hsorted⟩ := List.pairwise_cons.1 hsorted
    have hstop : r.start + Text.utf8Length span = r.stop := by rw [stop, hlength]
    obtain ⟨gap, -, happly⟩ := exists_gap_of_applyAll hstart hstop out
    obtain ⟨tail, hlast, -, -, happlyTail⟩ := ih
      (fun s hs => (hrs s hs).later hstart hlength (hlater s hs)) hsorted
      (r.text.reverse ++ (gap ++ (before.reverse ++ out)))
    refine ⟨before ++ (gap.reverse ++ (r.text ++ tail)), ?_, fun hfront => ?_,
      fun hnil => absurd hnil (List.cons_ne_nil r rs), fun rest rs' hrs' => ?_⟩
    · have hne : tail ≠ [] := by
        rintro rfl
        exact hbehind (List.getLast?_eq_none_iff.1 hlast.symm)
      simp only [List.getLast?_append, hlast]
      cases hget : behind.getLast? with
      | none => exact absurd (List.getLast?_eq_none_iff.1 hget) hbehind
      | some c => simp
    · cases before with
      | nil => exact absurd (hfront r List.mem_cons_self) (by rw [← hstart]; exact Nat.lt_irrefl _)
      | cons c before => rfl
    · have hbytes : r.stop + Text.utf8Length behind =
          cursor + Text.utf8Length (before ++ (span ++ behind)) := by
        rw [Text.utf8Length_append, Text.utf8Length_append, ← hstop]
        omega
      have happlied := happlyTail rest rs' (by rw [hbytes]; exact hrs')
      rw [hbytes] at happlied
      rw [List.append_assoc, List.append_assoc, List.cons_append, happly, happlied]
      simp only [List.reverse_append, List.reverse_reverse, List.append_assoc]

theorem exists_applyAll_amid (hrs : ∀ r ∈ rs, r.LiesAmid cursor cs)
    (hsorted : rs.Pairwise fun r s => r.stop ≤ s.start) :
    ∃ result, applyAll cursor cs [] rs = .ok result := by
  obtain ⟨cs', -, -, -, happly⟩ := exists_applied hrs hsorted []
  have happlied := happly [] [] (fun _ => nofun)
  rw [List.append_nil, List.append_nil] at happlied
  exact ⟨_, happlied⟩

end Replacement

end MustacheJsx
