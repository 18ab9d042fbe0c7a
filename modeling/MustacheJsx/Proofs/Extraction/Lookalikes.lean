import MustacheJsx.Proofs.Extraction.Apart
import MustacheJsx.Proofs.Extraction.Naming

/-!
# Templates that stay as they are

A template without tags of blocks and without calls in its opening tags should be left alone. The
passes look for blocks in the text of tags, though, and not among their mustaches, so a text that
looks like a block is taken for one. `prepare_eq_self_iff` says that templates with such look-alikes
are all that is not left alone, and that a look-alike needs the braces of an ending within the
content of a mustache, as a string or a comment may have them.
-/

namespace MustacheJsx

open OpeningTag

/-! ### Endings within a tag -/

theorem Text.infix_of_append {mark before rest : List Char} {c : Char}
    (hlast : before.getLast? = some c) (hc : c ∉ mark) (h : mark <:+: before ++ rest) :
    mark <:+: before ∨ mark <:+: rest := by
  obtain ⟨front, behind, heq⟩ := h
  rcases List.append_eq_append_iff.1 heq with ⟨middle, hbefore, -⟩ | ⟨middle, hfront, rfl⟩
  · exact .inl ⟨front, middle, hbefore.symm⟩
  · rcases List.append_eq_append_iff.1 hfront with ⟨tail, rfl, hmark⟩ | ⟨tail, -, rfl⟩
    · cases tail with
      | nil => exact .inr ⟨[], behind, by rw [hmark]; rfl⟩
      | cons d tail =>
        rw [List.getLast?_append_of_ne_nil _ (List.cons_ne_nil d tail)] at hlast
        refine absurd ?_ hc
        rw [hmark]
        exact List.mem_append_left _ (List.mem_of_getLast? hlast)
    · exact .inr ⟨tail, behind, rfl⟩

theorem OpeningTag.IsRead.exists_of_isInfix {tag : OpeningTag} (h : tag.IsRead)
    (hwithin : ['{', '{', '/'] <:+: tag.text) :
    ∃ m ∈ tag.mustaches, ['{', '{', '/'] <:+: m.text := by
  obtain ⟨d, inner, rest, htext, -, hscan⟩ := h
  have hall := scan_induction (motive := fun _ _ cs ms => ∃ inner,
    cs = inner ++ rest ∧
      (['{', '{', '/'] <:+: inner → ∃ m ∈ ms, ['{', '{', '/'] <:+: m.text)) ?_ ?_ ?_ hscan
  · obtain ⟨inner', hinner, hfind⟩ := hall
    rw [htext, List.infix_cons_iff] at hwithin
    rcases hwithin with hbegins | hwithin
    · obtain ⟨behind, hbehind⟩ := hbegins
      exact absurd (List.cons.inj hbehind).1 (by decide)
    · exact hfind (List.append_cancel_right hinner ▸ hwithin)
  · refine fun _ => ⟨['>'], rfl, fun hwithin => ?_⟩
    exact absurd hwithin.length_le (by decide)
  · rintro quote offset c cs ms hbraces - ⟨inner, rfl, hfind⟩
    refine ⟨c :: inner, rfl, fun hwithin => ?_⟩
    rcases List.infix_cons_iff.1 hwithin with ⟨behind, hbehind⟩ | hwithin
    · refine absurd ⟨'/' :: (behind ++ rest), ?_⟩ hbraces
      exact congrArg (· ++ rest) hbehind
    · exact hfind hwithin
  · rintro quote offset cs ms m - - hread ⟨inner, rfl, hfind⟩
    refine ⟨m.text ++ inner, (List.append_assoc _ _ _).symm, fun hwithin => ?_⟩
    obtain ⟨_, -, -, ⟨front, hclose⟩, -⟩ := exists_of_mustacheText? hread
    have hlast : m.text.getLast? = some '}' := by
      rw [← hclose, List.getLast?_append]
      rfl
    rcases Text.infix_of_append hlast (by decide) hwithin with hwithin | hwithin
    · exact ⟨m, List.mem_cons_self, hwithin⟩
    · obtain ⟨other, hother, hfound⟩ := hfind hwithin
      exact ⟨other, List.mem_cons_of_mem m hother, hfound⟩

def TagMustache.behindBraces (m : TagMustache) : List Char := m.text.dropWhile (· == '{')

/-- The first character of a mustache that is no brace and no tilde. -/
def TagMustache.sign (m : TagMustache) : Option Char :=
  (m.behindBraces.dropWhile (· == '~')).head?

/-- Unless a mustache is the end of a block itself, the braces of one are within its content. -/
theorem TagMustache.infix_behindBraces {m : TagMustache} (hsign : m.sign ≠ some '/')
    (h : ['{', '{', '/'] <:+: m.text) : ['{', '{', '/'] <:+: m.behindBraces := by
  obtain ⟨front, behind, heq⟩ := h
  have hsplit := List.takeWhile_append_dropWhile (p := (· == '{')) (l := m.text)
  have hbraces : ∀ c ∈ m.text.takeWhile (· == '{'), c = '{' := by
    intro c hc
    have hp := List.mem_takeWhile_imp hc
    simpa using hp
  have hhead : ∀ c ∈ m.behindBraces.head?, c ≠ '{' := by
    rintro c hc rfl
    have hp := List.head?_dropWhile_not (· == '{') m.text
    rw [show (m.text.dropWhile (· == '{')).head? = some '{' from hc] at hp
    cases hp
  change _ ++ m.behindBraces = _ at hsplit
  rw [← hsplit, List.append_assoc] at heq
  rcases List.append_eq_append_iff.1 heq with ⟨middle, hmiddle, htail⟩ | ⟨middle, rfl, hmiddle⟩
  -- The braces begin among those of the mustache.
  · have hall : ∀ c ∈ middle, c = '{' := fun c hc =>
      hbraces c (by rw [hmiddle]; exact List.mem_append_right _ hc)
    rcases middle with _ | ⟨a, _ | ⟨b, _ | ⟨c, middle⟩⟩⟩
    · exact ⟨[], behind, by simpa using htail⟩
    · have hrest : m.behindBraces = '{' :: '/' :: behind := (List.cons.inj htail).2.symm
      rw [hrest] at hhead
      exact absurd rfl (hhead '{' rfl)
    · have hrest : m.behindBraces = '/' :: behind :=
        (List.cons.inj (List.cons.inj htail).2).2.symm
      rw [sign, hrest] at hsign
      exact absurd rfl hsign
    · have hslash : '/' = c := by
        simp only [List.cons_append, List.nil_append, List.cons.injEq] at htail
        exact htail.2.2.1
      exact absurd (hall c (by simp)) (by rw [← hslash]; decide)
  · exact ⟨middle, behind, by rw [List.append_assoc, hmiddle]⟩

/-! ### Look-alikes -/

/-- Whether the passes find something in a tag that looks like a block, in the value of an attribute
or around an attribute. -/
def OpeningTag.looksLikeBlock (tag : OpeningTag) : Bool :=
  tag.attributes.any fun entry => hasBlock entry.2.value ||
    (Text.cutAtFirst? (surroundingBlock? entry.2.text) tag.text).isSome

theorem infix_of_hasBlock {cs : List Char} (h : hasBlock cs = true) :
    ['{', '{', '/'] <:+: cs := by
  rw [hasBlock, Option.isSome_iff_exists] at h
  obtain ⟨found, h⟩ := h
  obtain ⟨⟨before, rest⟩, hcut, h⟩ := Option.bind_eq_some_iff.1 h
  obtain ⟨⟨before', rest'⟩, hcut', h⟩ := Option.bind_eq_some_iff.1 h
  obtain ⟨⟨before'', rest''⟩, hcut'', -⟩ := Option.bind_eq_some_iff.1 h
  have hrest := Text.eq_append_of_cutAt? hcut
  have hrest' := Text.eq_append_of_cutAt? hcut'
  have hrest'' := Text.eq_append_of_cutAt? hcut''
  refine ⟨before ++ ['{', '{'] ++ (before' ++ ['}', '}'] ++ before''), rest'', ?_⟩
  rw [hrest, hrest', hrest'']
  simp only [List.append_assoc]

theorem WrittenAttribute.IsWritten.isInfix {value text : List Char} (h : IsWritten value text) :
    value <:+: text := by
  rcases h with ⟨quote, -, rfl⟩ | ⟨rfl, -⟩
  · exact ⟨[quote], [quote], by simp⟩
  · exact List.infix_rfl

theorem WrittenAttribute.value_infix {tag : OpeningTag} {entry : Nat × WrittenAttribute}
    (h : entry ∈ tag.attributes) : entry.2.value <:+: tag.text := by
  obtain ⟨before, rest, htext, -, hat⟩ := exists_of_mem_allFrom (List.mem_of_mem_filter h)
  obtain ⟨gap, gap', valueText, behind, rfl, hparts⟩ := exists_of_at? hat
  refine hparts.value.isInfix.trans ?_
  rw [htext, hparts.text]
  refine ⟨before ++ (entry.2.name ++ (gap ++ '=' :: gap')), behind, ?_⟩
  simp

theorem OpeningTag.infix_of_looksLikeBlock {tag : OpeningTag} (h : tag.looksLikeBlock = true) :
    ['{', '{', '/'] <:+: tag.text := by
  obtain ⟨entry, hentry, hlooks⟩ := List.any_eq_true.1 h
  rcases Bool.or_eq_true_iff.1 hlooks with hblock | hblock
  · exact (infix_of_hasBlock hblock).trans (WrittenAttribute.value_infix hentry)
  · obtain ⟨⟨before, opening, negated, rest⟩, hcut⟩ := Option.isSome_iff_exists.1 hblock
    obtain ⟨cs, htext, hblock⟩ := Text.exists_of_cutAtFirst? hcut
    obtain ⟨opened, blanks, blanks', ending, -, hending, -, rfl⟩ :=
      exists_of_surroundingBlock? hblock
    obtain ⟨tail, rfl, -⟩ := hending.exists_cons
    rw [htext]
    exact ⟨before ++ (opened ++ blanks ++ entry.2.text ++ blanks'), tail ++ rest, by simp⟩

/-! ### Templates that the passes leave alone -/

theorem foldlM_eq_pure {α β : Type} {f : β → α → ExtractM β} {xs : List α} {b : β}
    (h : ∀ x ∈ xs, f b x = pure b) : xs.foldlM f b = pure b := by
  induction xs with
  | nil => rfl
  | cons x xs ih =>
    rw [List.foldlM_cons, h x List.mem_cons_self, pure_bind]
    exact ih fun y hy => h y (List.mem_cons_of_mem x hy)

theorem TagMustache.sign_of_opensBlock {m : TagMustache} (h : m.opensBlock = true) :
    m.sign = some '#' := by
  have hdrop : ∀ cs : List Char, ((dropBracePairs cs).dropWhile (· == '~')).head? = some '#' →
      ((cs.dropWhile (· == '{')).dropWhile (· == '~')).head? = some '#' := by
    intro cs
    induction cs using dropBracePairs.induct with
    | case1 cs ih => exact fun h => by simpa [dropBracePairs] using ih h
    | case2 cs hpair =>
      intro h
      rw [dropBracePairs.eq_2 cs hpair] at h
      cases cs with
      | nil => cases h
      | cons c cs =>
        have hc : c ≠ '{' := by
          rintro rfl
          cases h
        rwa [List.dropWhile_cons_of_neg (by simpa using hc)]
  rw [opensBlock, beq_iff_eq] at h
  exact hdrop m.text h

namespace OpeningTag

variable {tag : OpeningTag} {template : List Char}

theorem of_not_looksLikeBlock (h : tag.looksLikeBlock = false) {entry : Nat × WrittenAttribute}
    (hentry : entry ∈ tag.attributes) : hasBlock entry.2.value = false ∧
      Text.cutAtFirst? (surroundingBlock? entry.2.text) tag.text = none := by
  have hnone := List.any_eq_false.1 h entry hentry
  rw [Bool.or_eq_true_iff, not_or] at hnone
  exact ⟨Bool.eq_false_iff.2 hnone.1, Option.not_isSome_iff_eq_none.1 hnone.2⟩

theorem extractFromValues_eq_pure (h : tag.looksLikeBlock = false) (found : Extraction) :
    tag.extractFromValues found = pure found := by
  refine foldlM_eq_pure fun entry hentry => ?_
  show entry.2.extractFromValue _ found = _
  rw [WrittenAttribute.extractFromValue, (of_not_looksLikeBlock h hentry).1,
    if_neg Bool.false_ne_true]

theorem extractAround_eq_pure (h : tag.looksLikeBlock = false)
    (hsign : ∀ m ∈ tag.mustaches, m.sign ≠ some '#') (found : Extraction) :
    tag.extractAround found = pure found := by
  have hfold : tag.attributes.foldlM (fun found (entry : Nat × WrittenAttribute) =>
      entry.2.extractAround tag found) found = pure found := by
    refine foldlM_eq_pure fun entry hentry => ?_
    rw [WrittenAttribute.extractAround, (of_not_looksLikeBlock h hentry).2]
  have hleft : (tag.mustaches.any fun m =>
      !m.inValue && m.opensBlock && !found.covers (tag.start + m.start)) = false := by
    refine List.any_eq_false.2 fun m hm hleft => hsign m hm (m.sign_of_opensBlock ?_)
    rw [Bool.and_eq_true, Bool.and_eq_true] at hleft
    exact hleft.1.2
  rw [extractAround]
  change (tag.attributes.foldlM (fun found (entry : Nat × WrittenAttribute) =>
    entry.2.extractAround tag found) found >>= _) = _
  rw [hfold, pure_bind]
  dsimp only
  rw [hleft, if_neg Bool.false_ne_true]

theorem bindGenerators_eq_nil {count : Nat} {ms : List TagMustache}
    (h : ∀ m ∈ ms, m.inValue = false → m.isGeneratorCall = false) :
    tag.bindGenerators count ms = [] := by
  induction ms with
  | nil => rfl
  | cons m ms ih =>
    have hcall : (!m.inValue && m.isGeneratorCall) = false := by
      cases hvalue : m.inValue with
      | true => rfl
      | false => rw [h m List.mem_cons_self hvalue]; rfl
    rw [bindGenerators, hcall, if_neg Bool.false_ne_true]
    exact ih fun m' hm' => h m' (List.mem_cons_of_mem m hm')

end OpeningTag

variable {template : List Char}

theorem BlockPass.extract_eq_pure (pass : BlockPass)
    (h : ∀ tag ∈ all template, tag.looksLikeBlock = false)
    (hsign : ∀ tag ∈ all template, ∀ m ∈ tag.mustaches, m.sign ≠ some '#') :
    pass.extract template = pure { template, helpers := [] } := by
  have hfind : pass.find template = pure {} := by
    cases pass with
    | within => exact foldlM_eq_pure fun tag htag => extractFromValues_eq_pure (h tag htag) {}
    | around =>
      exact foldlM_eq_pure fun tag htag => extractAround_eq_pure (h tag htag) (hsign tag htag) {}
  rw [extract_eq, hfind, pure_bind, Extraction.applyTo, splice_nil]
  rfl

theorem bindGenerators_eq_pure
    (h : ∀ tag ∈ all template, ∀ m ∈ tag.mustaches, m.inValue = false →
      m.isGeneratorCall = false) : bindGenerators template = pure { template, helpers := [] } := by
  have hnone : generatorBindings template = [] :=
    List.flatMap_eq_nil_iff.2 fun tag htag => bindGenerators_eq_nil (h tag htag)
  change ExceptT.mk (pure (Extraction.applyTo { replacements := generatorBindings template }
    template)) = _
  rw [hnone, Extraction.applyTo, splice_nil]
  rfl

theorem prepare_eq_self (h : ∀ tag ∈ all template, tag.looksLikeBlock = false)
    (hsign : ∀ tag ∈ all template, ∀ m ∈ tag.mustaches, m.sign ≠ some '#')
    (hcall : ∀ tag ∈ all template, ∀ m ∈ tag.mustaches, m.inValue = false →
      m.isGeneratorCall = false) : prepare template = .ok { template, helpers := [] } := by
  have hwithin : extractFromValues template = pure { template, helpers := [] } :=
    BlockPass.within.extract_eq_pure h hsign
  have haround : extractAround template = pure { template, helpers := [] } :=
    BlockPass.around.extract_eq_pure h hsign
  rw [prepare, prepareWith]
  simp only [Prepared.through, hwithin, haround, bindGenerators_eq_pure hcall, pure_bind]
  rfl

/-! ### What a look-alike comes to -/

namespace BlockPass

variable {pass : BlockPass} {found found' : Extraction} {names names' : HelperNames}
  {tag : OpeningTag} {entry : Nat × WrittenAttribute}

theorem replacements_eq_nil (h : (pass.find template).run names = (.ok found, names'))
    (hnone : found.helpers = []) : found.replacements = [] := by
  obtain ⟨entries, hreplacements, hhelpers, -⟩ := keeps_of_find h
  rw [hhelpers, List.map_eq_nil_iff] at hnone
  rw [hreplacements, hnone, List.map_nil]

theorem exists_of_helpers_eq_nil (pass : BlockPass) {prepared : Prepared}
    (h : (pass.extract template).run names = (.ok prepared, names'))
    (hnone : prepared.helpers = []) : prepared.template = template ∧ ∃ found,
      (pass.find template).run names = (.ok found, names') ∧ found.replacements = [] := by
  rw [extract_eq] at h
  obtain ⟨found, middle, hfind, h⟩ := exists_of_run_bind h
  obtain ⟨happly, rfl⟩ := Prod.mk.inj h
  rw [Extraction.helpers_of_applyTo happly] at hnone
  have hreplacements := replacements_eq_nil hfind hnone
  rw [Extraction.applyTo, hreplacements, splice_nil] at happly
  cases happly
  exact ⟨rfl, found, hfind, hreplacements⟩

theorem cutAtFirst?_eq_none (h : (entry.2.extractAround tag found).run names = (.ok found', names'))
    (hnone : found'.replacements = []) : found.replacements = [] ∧
      Text.cutAtFirst? (surroundingBlock? entry.2.text) tag.text = none := by
  rw [WrittenAttribute.extractAround] at h
  split at h
  · next hcut =>
    cases h
    exact ⟨hnone, hcut⟩
  · dsimp only at h
    split at h
    · next hdone =>
      cases h
      obtain ⟨r, hr, -⟩ := List.any_eq_true.1 hdone
      rw [hnone] at hr
      cases hr
    · split at h
      · cases h
      · obtain ⟨⟨helper, text⟩, middle, -, h⟩ := exists_of_run_bind h
        cases h
        exact absurd (List.append_eq_nil_iff.1 hnone).2 (List.cons_ne_nil _ _)

/-- Whatever looks like a block in a template is recorded by one of the passes. -/
theorem not_looksLikeBlock_of_find {within' around' : Extraction} {names₁ names₂ : HelperNames}
    (hwithin : (within.find template).run names = (.ok within', names₁))
    (haround : (around.find template).run names' = (.ok around', names₂))
    (hnone : within'.replacements = []) (hnone' : around'.replacements = []) :
    ∀ tag ∈ all template, tag.looksLikeBlock = false := by
  have hvalues := replaces_of_find hwithin
  have hall := foldlM_forall
    (Q := fun (tag : OpeningTag) (found : Extraction) => found.replacements = [] →
      ∀ entry ∈ tag.attributes, Text.cutAtFirst? (surroundingBlock? entry.2.text) tag.text = none)
    (fun tag b b' names names' hstep => ?_) (fun tag other b b' names names' hb hstep => ?_) haround
  · intro tag htag
    refine List.any_eq_false.2 fun entry hentry hlooks => ?_
    rw [hall tag htag hnone' entry hentry, Option.isSome_none, Bool.or_false] at hlooks
    obtain ⟨r, hr, -⟩ := hvalues tag htag entry hentry hlooks
    rw [hnone] at hr
    cases hr
  · obtain ⟨⟨middle, hfold⟩, -⟩ := exists_of_extractAround hstep
    intro hnil entry hentry
    refine foldlM_forall
      (Q := fun (entry : Nat × WrittenAttribute) (found : Extraction) => found.replacements = [] →
        Text.cutAtFirst? (surroundingBlock? entry.2.text) tag.text = none) ?_ ?_ hfold entry hentry
      hnil
    · exact fun entry b b' names names' hstep hnil => (cutAtFirst?_eq_none hstep hnil).2
    · exact fun entry other b b' names names' hb hstep hnil =>
        hb (cutAtFirst?_eq_none hstep hnil).1
  · obtain ⟨⟨middle, hfold⟩, -⟩ := exists_of_extractAround hstep
    intro hnil
    refine hb (foldlM_induction (motive := fun found => found.replacements = [] →
      b.replacements = []) (fun entry _ b b' names names' hb hstep hnil => ?_) id hfold hnil)
    exact hb (cutAtFirst?_eq_none hstep hnil).1

end BlockPass

theorem not_looksLikeBlock_of_prepare (h : prepare template = .ok { template, helpers := [] }) :
    ∀ tag ∈ all template, tag.looksLikeBlock = false := by
  obtain ⟨lifted, cleared, bound, _, _, _, hlifted, hcleared, -, heq⟩ := passes_of_prepare h
  have hhelpers := (congrArg Prepared.helpers heq).symm
  change lifted.helpers ++ cleared.helpers ++ bound.helpers = [] at hhelpers
  rw [List.append_eq_nil_iff, List.append_eq_nil_iff] at hhelpers
  obtain ⟨⟨hlift, hclear⟩, -⟩ := hhelpers
  obtain ⟨htemplate, within', hwithin, hnone⟩ :=
    BlockPass.within.exists_of_helpers_eq_nil hlifted hlift
  rw [htemplate] at hcleared
  obtain ⟨-, around', haround, hnone'⟩ :=
    BlockPass.around.exists_of_helpers_eq_nil hcleared hclear
  exact BlockPass.not_looksLikeBlock_of_find hwithin haround hnone hnone'

/-- A template in which no mustache of an opening tag has the sign of a block, and no mustache
between attributes is a call, is left alone if and only if nothing in its tags looks like a block.
What looks like one takes its ending from the content of a mustache. -/
theorem prepare_eq_self_iff (template : List Char)
    (hsign : ∀ tag ∈ all template, ∀ m ∈ tag.mustaches, m.sign ≠ some '#' ∧ m.sign ≠ some '/')
    (hcall : ∀ tag ∈ all template, ∀ m ∈ tag.mustaches, m.inValue = false →
      m.isGeneratorCall = false) :
    (prepare template = .ok { template, helpers := [] } ↔
        ∀ tag ∈ all template, tag.looksLikeBlock = false) ∧
      ∀ tag ∈ all template, tag.looksLikeBlock = true →
        ∃ m ∈ tag.mustaches, ['{', '{', '/'] <:+: m.behindBraces := by
  refine ⟨⟨not_looksLikeBlock_of_prepare, fun h =>
    prepare_eq_self h (fun tag htag m hm => (hsign tag htag m hm).1) hcall⟩,
    fun tag htag hlooks => ?_⟩
  obtain ⟨m, hm, hwithin⟩ :=
    (isRead_of_mem htag).exists_of_isInfix (infix_of_looksLikeBlock hlooks)
  exact ⟨m, hm, m.infix_behindBraces (hsign tag htag m hm).2 hwithin⟩

def blocksInText : List Char :=
  ("<a b=\"c \x7b\x7bd e\x7d\x7d\" \x7b\x7bf\x7d\x7d>\x7b\x7b#if g\x7d\x7d" ++
    "<i h='\x7b\x7b! /if \x7d\x7d'>\x7b\x7b/if\x7d\x7d</a>").toList

theorem blocksInText_is_left_alone :
    (∀ tag ∈ all blocksInText, ∀ m ∈ tag.mustaches, m.sign ≠ some '#' ∧ m.sign ≠ some '/') ∧
      (∀ tag ∈ all blocksInText, ∀ m ∈ tag.mustaches, m.inValue = false →
        m.isGeneratorCall = false) ∧
      prepare blocksInText = .ok { template := blocksInText, helpers := [] } := by
  have hsign : ∀ tag ∈ all blocksInText, ∀ m ∈ tag.mustaches,
      m.sign ≠ some '#' ∧ m.sign ≠ some '/' := by
    decide +kernel
  have hcall : ∀ tag ∈ all blocksInText, ∀ m ∈ tag.mustaches, m.inValue = false →
      m.isGeneratorCall = false := by
    decide +kernel
  exact ⟨hsign, hcall, (prepare_eq_self_iff blocksInText hsign hcall).1.2 (by decide +kernel)⟩

def endingInString : List Char :=
  "<a title='\x7b\x7bf \"\x7d\x7d\x7b\x7b/if\x7d\x7d\"\x7d\x7d'></a>".toList

/-- The string is taken for the end of a block, which then has no opening. -/
theorem endingInString_is_refused :
    (∀ tag ∈ all endingInString, ∀ m ∈ tag.mustaches, m.sign ≠ some '#' ∧ m.sign ≠ some '/') ∧
      (∀ tag ∈ all endingInString, ∀ m ∈ tag.mustaches, m.inValue = false →
        m.isGeneratorCall = false) ∧
      prepare endingInString = .error (.blockInAttribute "title" .noSingleBlock) := by
  refine ⟨by decide +kernel, by decide +kernel, ?_⟩
  have hrun : (match prepare endingInString with
      | .error e => decide (e = .blockInAttribute "title" .noSingleBlock)
      | .ok _ => false) = true := by
    decide +kernel
  cases hresult : prepare endingInString with
  | error e =>
    rw [hresult] at hrun
    rw [of_decide_eq_true hrun]
  | ok prepared =>
    rw [hresult] at hrun
    cases hrun

end MustacheJsx
