import MustacheJsx.Proofs.Extraction.Preparation
import MustacheJsx.Proofs.Extraction.Renewing

/-!
# Attributes that a rewriting keeps

The pass over values puts an attribute in the place of another one. `BlockPass.keeps_attributes`
says that every tag keeps the names of its attributes and the values without blocks, provided that
what gives way are whole attributes by the rules of HTML and that each call is read as one mustache.
-/

namespace MustacheJsx

open OpeningTag Glyph

/-! ### Attributes with blocks -/

theorem Text.exists_of_mark {mark : List Char} (hmark : mark ≠ []) (before rest : List Char) :
    ∃ front behind, cutAt? mark (before ++ (mark ++ rest)) = some (front, behind ++ rest) := by
  induction before with
  | nil =>
    have hpos := List.length_pos_iff.2 hmark
    refine ⟨[], [], (cutAt?_eq_some_iff hmark).2 ⟨rfl, fun hwithin => ?_⟩⟩
    have hlength := hwithin.length_le
    rw [List.nil_append, List.length_dropLast] at hlength
    omega
  | cons c before ih =>
    rw [List.cons_append, cutAt?]
    split
    · next after hafter =>
      have htext := afterLead?_eq_some_iff.1 hafter
      have hlength := congrArg List.length htext
      simp only [List.length_cons, List.length_append] at hlength
      have hsuffix : rest <:+ mark ++ after := by
        rw [← htext, ← List.cons_append, ← List.append_assoc]
        exact List.suffix_append _ rest
      obtain ⟨behind, rfl⟩ :=
        List.suffix_of_suffix_length_le hsuffix (List.suffix_append mark after) (by omega)
      exact ⟨[], behind, rfl⟩
    · obtain ⟨front, behind, hcut⟩ := ih
      rw [hcut]
      exact ⟨c :: front, behind, rfl⟩

theorem hasBlock_of_tags (lead inner body blanks trail : List Char) :
    hasBlock (lead ++ (['{', '{'] ++ (inner ++ (['}', '}'] ++
      (body ++ (['{', '{', '/'] ++ (blanks ++ (['}', '}'] ++ trail)))))))) = true := by
  obtain ⟨front₁, behind₁, hcut₁⟩ := Text.exists_of_mark (by simp : ['{', '{'] ≠ []) lead
    (inner ++ (['}', '}'] ++ (body ++ (['{', '{', '/'] ++ (blanks ++ (['}', '}'] ++ trail))))))
  rw [← List.append_assoc behind₁] at hcut₁
  obtain ⟨front₂, behind₂, hcut₂⟩ := Text.exists_of_mark (by simp : ['}', '}'] ≠ [])
    (behind₁ ++ inner) (body ++ (['{', '{', '/'] ++ (blanks ++ (['}', '}'] ++ trail))))
  rw [← List.append_assoc behind₂] at hcut₂
  obtain ⟨front₃, behind₃, hcut₃⟩ := Text.exists_of_mark (by simp : ['{', '{', '/'] ≠ [])
    (behind₂ ++ body) (blanks ++ (['}', '}'] ++ trail))
  rw [← List.append_assoc behind₃] at hcut₃
  obtain ⟨front₄, behind₄, hcut₄⟩ := Text.exists_of_mark (by simp : ['}', '}'] ≠ [])
    (behind₃ ++ blanks) trail
  rw [hasBlock, hcut₁, Option.bind_eq_bind, Option.bind_some]
  dsimp only
  rw [hcut₂, Option.bind_some]
  dsimp only
  rw [hcut₃, Option.bind_some]
  dsimp only
  rw [hcut₄]
  rfl

theorem Rewriting.IsWithin.hasBlock {e : Rewriting} {tag : OpeningTag} {offset : Nat}
    {written : WrittenAttribute} (h : e.IsWithin tag offset written) :
    hasBlock written.value = true := by
  obtain ⟨opening, ending, ⟨inner, rfl, -⟩, ⟨blanks, rfl, -⟩, hvalue⟩ := h.value
  have hblock := hasBlock_of_tags e.conditional.lead
    ('#' :: ((conditionName e.conditional.negated).toList ++ inner)) e.conditional.body
    ((conditionName e.conditional.negated).toList ++ blanks) e.conditional.trail
  rw [hvalue]
  simpa using hblock

/-! ### Attributes that are whole -/

namespace OpeningTag

def glyphsBefore (tag : OpeningTag) (offset : Nat) : List Glyph :=
  Glyph.read (Text.splitAtByte offset tag.text).1

/-- An attribute that was found in a tag and is one by the rules of HTML: where it begins, no quote
is open and a name may begin, and over its text its name and its value are read. -/
structure IsWhole (tag : OpeningTag) (entry : Nat × WrittenAttribute) : Prop where
  cut : tag.glyphsBefore entry.1 ++ Glyph.read entry.2.text <+: Glyph.read tag.text
  quotes : (tag.glyphsBefore entry.1).foldlM after? none = some none
  ready : (TagState.tagName.run (tag.glyphsBefore entry.1)).isReady = true
  reads : TagAttribute.IsRead { name := entry.2.name, value := entry.2.value }
    (Glyph.read entry.2.text)

instance (tag : OpeningTag) (entry : Nat × WrittenAttribute) : Decidable (tag.IsWhole entry) :=
  decidable_of_iff (tag.glyphsBefore entry.1 ++ Glyph.read entry.2.text <+: Glyph.read tag.text ∧
      (tag.glyphsBefore entry.1).foldlM after? none = some none ∧
      (TagState.tagName.run (tag.glyphsBefore entry.1)).isReady = true ∧
      TagAttribute.IsRead { name := entry.2.name, value := entry.2.value }
        (Glyph.read entry.2.text))
    ⟨fun ⟨h₁, h₂, h₃, h₄⟩ => ⟨h₁, h₂, h₃, h₄⟩, fun ⟨h₁, h₂, h₃, h₄⟩ => ⟨h₁, h₂, h₃, h₄⟩⟩

theorem bytes_glyphsBefore {tag : OpeningTag} {entry : Nat × WrittenAttribute}
    (h : entry ∈ tag.attributes) : bytes (tag.glyphsBefore entry.1) = entry.1 := by
  obtain ⟨before, rest, htext, hoffset, -⟩ :=
    WrittenAttribute.exists_of_mem_allFrom (List.mem_of_mem_filter h)
  rw [Nat.zero_add] at hoffset
  rw [glyphsBefore, bytes, textOf_read, hoffset, htext, Text.splitAtByte_utf8Length]

end OpeningTag

theorem Rewriting.renewsIn {e : Rewriting} {tag : OpeningTag} {entry : Nat × WrittenAttribute}
    (hentry : entry ∈ tag.attributes) (hwithin : e.IsWithin tag entry.1 entry.2)
    (hextracted : e.IsExtracted) (halone : StandsAlone e.replacement.text)
    (hwhole : tag.IsWhole entry) : e.replacement.RenewsIn tag := by
  obtain ⟨hne, hname⟩ := WrittenAttribute.name_of_mem_attributes hentry
  obtain ⟨names, names', hrun⟩ := hextracted.run
  obtain ⟨-, called, hcalled, -, htext⟩ := ConditionalAttribute.of_extract hrun
  obtain ⟨hlength, hchars⟩ := unique_chars names e.conditional.name e.conditional.negated
  obtain ⟨opening, -, hopening, -⟩ := hwithin.value
  rw [hcalled] at hlength hchars
  obtain ⟨hhead, hclear⟩ := ConditionalAttribute.call_clear (a := e.conditional) hopening.not_mem
    (Nat.lt_of_succ_lt hlength) hchars
  rw [ConditionalAttribute.callText_eq, hwithin.name] at htext
  rw [htext] at halone
  have hcall := halone.mustacheText?_bound hname hhead hclear
  obtain ⟨behind, hbehind⟩ := hwhole.cut
  refine ⟨tag.glyphsBefore entry.1, Glyph.read entry.2.text, behind, ?_, ?_, ?_, hwhole.quotes,
    hwhole.ready, _, _, _, hwhole.reads,
    isRead_boundGlyphs hne hname ('{' :: '{' :: (e.conditional.call called ++ ['}', '}'])),
    ⟨rfl, ?_⟩, proper_boundGlyphs hname (List.prefix_append ['{', '{'] _) hcall, ?_, ?_⟩
  · rw [← hbehind, List.append_assoc]
  · rw [bytes_glyphsBefore hentry, hwithin.start]
  · rw [hwithin.length, bytes, textOf_read]
  · intro hnone
    rw [hwithin.hasBlock] at hnone
    cases hnone
  · rw [htext, textOf_boundGlyphs]
  · simp [boundGlyphs]

namespace BlockPass

variable {template : List Char} {names names' : HelperNames}

/-- Every tag that the pass over values goes through keeps its attributes, provided that what gives
way are whole attributes and what is put there stands alone. -/
theorem Application.keepsAttributes (a : within.Application template names)
    (halone : ∀ r ∈ a.found.replacements, StandsAlone r.text)
    (hwhole : ∀ tag ∈ all template, ∀ entry ∈ tag.attributes, hasBlock entry.2.value = true →
      tag.IsWhole entry) :
    List.Forall₂ KeepsAttributes (all template) (all a.result) := by
  obtain ⟨entries, hreplacements, -, hentries⟩ := keeps_of_find a.finds
  have hrenews : ∀ r ∈ a.found.replacements.mergeSort fun r s => r.start ≤ s.start,
      ∃ tag ∈ allFrom 0 0 template, r.RenewsIn tag := by
    intro r hr
    have hmem : r ∈ a.found.replacements := List.mem_mergeSort.1 hr
    have halone := halone r hmem
    rw [hreplacements] at hmem
    obtain ⟨e, he, rfl⟩ := List.mem_map.1 hmem
    obtain ⟨⟨tag, htag, entry, hentry, hwithin⟩, hextracted⟩ := hentries e he
    exact ⟨tag, htag, e.renewsIn hentry hwithin hextracted halone
      (hwhole tag htag entry hentry hwithin.hasBlock)⟩
  obtain ⟨tail, hresult, -, hkeeps⟩ := Replacement.exists_of_applyAll_renewing a.splices hrenews
  rw [hresult]
  exact hkeeps 0

/-- When the pass over values accepts a template, each of its tags is left with the same attributes
in the same order, and all values without blocks are as before. This holds provided that every
attribute with a block is a whole attribute by the rules of HTML, and that every call of a helper is
read as a mustache of its own. -/
theorem keeps_attributes {prepared : Prepared}
    (h : (within.extract template).run names = (.ok prepared, names')) :
    ∃ a : within.Application template names, a.taken = names' ∧ a.result = prepared.template ∧
      ((∀ r ∈ a.found.replacements, StandsAlone r.text) →
        (∀ tag ∈ all template, ∀ entry ∈ tag.attributes, hasBlock entry.2.value = true →
          tag.IsWhole entry) →
        List.Forall₂ KeepsAttributes (all template) (all prepared.template)) := by
  obtain ⟨a, htaken, hresult⟩ := exists_of_extract h
  refine ⟨a, htaken, hresult, fun halone hwhole => ?_⟩
  rw [← hresult]
  exact a.keepsAttributes halone hwhole

def amongOthers : List Char :=
  "<a id=\"x\" class=\"y \x7b\x7b#if b\x7d\x7dc\x7b\x7b/if\x7d\x7d\" d></a>".toList

theorem amongOthers_keeps :
    ∃ prepared names', (within.extract amongOthers).run [] = (.ok prepared, names') ∧
      prepared.template = "<a id=\"x\" class=\"\x7b\x7bclassIfHelper b\x7d\x7d\" d></a>".toList ∧
      List.Forall₂ KeepsAttributes (all amongOthers) (all prepared.template) := by
  have hrun : ((within.extract amongOthers).run []).1.toOption.map Prepared.template =
      some "<a id=\"x\" class=\"\x7b\x7bclassIfHelper b\x7d\x7d\" d></a>".toList := by
    decide +kernel
  cases hresult : (within.extract amongOthers).run [] with
  | mk result names' =>
    rw [hresult] at hrun
    cases result with
    | error fault => cases hrun
    | ok prepared =>
      obtain ⟨a, -, -, hkeeps⟩ := keeps_attributes hresult
      have halone := a.of_check
        (fun found => decide (∀ r ∈ found.replacements, StandsAlone r.text)) (by decide +kernel)
      refine ⟨prepared, names', rfl, Option.some.inj hrun, hkeeps (of_decide_eq_true halone) ?_⟩
      decide +kernel

/-- Of a name that begins with another character than those that are looked for, that character is
left behind as an attribute. -/
theorem sigil_is_split :
    let template := "<a @class=\"\x7b\x7b#if b\x7d\x7dc\x7b\x7b/if\x7d\x7d\"></a>".toList
    let result := "<a @ class=\"\x7b\x7bclassIfHelper b\x7d\x7d\"></a>".toList
    ((within.extract template).run []).1.toOption.map Prepared.template = some result ∧
      namesOf (all template) = [["@class".toList]] ∧
      namesOf (all result) = [["@".toList, "class".toList]] ∧
      ¬ List.Forall₂ KeepsAttributes (all template) (all result) := by
  intro template result
  have hnames : namesOf (all template) = [["@class".toList]] := by decide +kernel
  have hnames' : namesOf (all result) = [["@".toList, "class".toList]] := by decide +kernel
  refine ⟨by decide +kernel, hnames, hnames', fun hkeeps => ?_⟩
  have heq := namesOf_eq hkeeps
  rw [hnames, hnames'] at heq
  exact absurd heq (by decide)

end BlockPass

end MustacheJsx
