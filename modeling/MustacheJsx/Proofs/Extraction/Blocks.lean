import MustacheJsx.Extraction.Around
import MustacheJsx.Extraction.Value
import MustacheJsx.Proofs.Extraction.Filling

/-!
# Blocks in opening tags and the helpers that stand for them

Two passes take blocks out of opening tags: those within the values of attributes and those around
attributes. A `Rewriting` is what a pass puts in the place of one attribute. The theorem
`BlockPass.preserves_meaning` says where each of them comes from and what its helper returns, and
that this is what the attribute meant if no mustache is left in a text of the helper.
-/

namespace MustacheJsx

/-! ### Blocks as they are written -/

def IsOpening (negated : Bool) (condition text : List Char) : Prop :=
  ∃ inner, text =
      "\x7b\x7b#".toList ++ (conditionName negated).toList ++ inner ++ "\x7d\x7d".toList ∧
    (∃ c ∈ inner.head?, Text.isBlank c = true) ∧ '}' ∉ inner ∧ condition = Text.trim inner

def IsEnding (negated : Bool) (text : List Char) : Prop :=
  ∃ blanks, text =
      "\x7b\x7b/".toList ++ (conditionName negated).toList ++ blanks ++ "\x7d\x7d".toList ∧
    ∀ c ∈ blanks, Text.isBlank c = true

theorem BlockOpening.eq_of_word? {cs rest : List Char} {negated : Bool}
    (h : word? cs = some (negated, rest)) : cs = (conditionName negated).toList ++ rest := by
  rw [word?] at h
  split at h
  · next hif =>
    cases h
    exact Text.afterLead?_eq_some_iff.1 hif
  · obtain ⟨found, hunless, heq⟩ := Option.map_eq_some_iff.1 h
    cases heq
    exact Text.afterLead?_eq_some_iff.1 hunless

theorem BlockOpening.exists_of_at? {cs rest : List Char} {opening : BlockOpening}
    (h : at? cs = some (opening, rest)) :
    ∃ text, cs = text ++ rest ∧ IsOpening opening.negated opening.condition text := by
  rw [at?] at h
  obtain ⟨word, hlead, h⟩ := Option.bind_eq_some_iff.1 h
  obtain ⟨⟨negated, inner⟩, hword, h⟩ := Option.bind_eq_some_iff.1 h
  dsimp only at h
  split at h
  · next hblank =>
    obtain ⟨after, hafter, h⟩ := Option.bind_eq_some_iff.1 h
    cases h
    obtain ⟨c, hc, hblank⟩ := (Option.any_eq_true _ _).1 hblank
    have hclose : inner.dropWhile (· != '}') = "\x7d\x7d".toList ++ rest :=
      Text.afterLead?_eq_some_iff.1 hafter
    have hsplit := List.takeWhile_append_dropWhile (p := (· != '}')) (l := inner)
    rw [hclose] at hsplit
    refine ⟨"\x7b\x7b#".toList ++ (conditionName negated).toList ++ inner.takeWhile (· != '}') ++
      "\x7d\x7d".toList, ?_, inner.takeWhile (· != '}'), rfl, ⟨c, ?_, hblank⟩, fun hmem => ?_, rfl⟩
    · rw [Text.afterLead?_eq_some_iff.1 hlead, eq_of_word? hword]
      simp only [List.append_assoc, hsplit]
      rfl
    · obtain ⟨ds, rfl⟩ := List.head?_eq_some_iff.1 hc
      have hne : (c != '}') = true := by
        rw [bne_iff_ne]
        rintro rfl
        cases hblank
      have htake : (c :: ds).takeWhile (· != '}') = c :: ds.takeWhile (· != '}') :=
        List.takeWhile_cons_of_pos (p := (· != '}')) hne
      rw [htake]
      rfl
    · have hp := List.mem_takeWhile_imp hmem
      cases hp
  · cases h

theorem BlockOpening.exists_of_last? {cs lead rest : List Char} {opening : BlockOpening}
    (h : last? cs = some (lead, opening, rest)) :
    ∃ text, cs = lead ++ text ++ rest ∧ IsOpening opening.negated opening.condition text := by
  induction cs generalizing lead with
  | nil => cases h
  | cons c cs ih =>
    rw [last?] at h
    split at h
    · cases h
    · split at h
      · next found hlater =>
        cases h
        obtain ⟨text, hcs, htext⟩ := ih hlater
        exact ⟨text, by rw [hcs]; rfl, htext⟩
      · obtain ⟨found, hfound, heq⟩ := Option.map_eq_some_iff.1 h
        cases heq
        exact exists_of_at? hfound

theorem exists_of_blockEnd? {cs rest : List Char} {negated : Bool}
    (h : blockEnd? cs = some (negated, rest)) :
    ∃ text, cs = text ++ rest ∧ IsEnding negated text := by
  rw [blockEnd?] at h
  obtain ⟨word, hlead, h⟩ := Option.bind_eq_some_iff.1 h
  obtain ⟨⟨found, inner⟩, hword, h⟩ := Option.bind_eq_some_iff.1 h
  obtain ⟨after, hafter, h⟩ := Option.bind_eq_some_iff.1 h
  cases h
  obtain ⟨blanks, hinner, hblanks⟩ := exists_of_close hafter
  refine ⟨"\x7b\x7b/".toList ++ (conditionName negated).toList ++ blanks ++ "\x7d\x7d".toList,
    ?_, blanks, rfl, hblanks⟩
  rw [Text.afterLead?_eq_some_iff.1 hlead, BlockOpening.eq_of_word? hword, hinner]
  simp only [List.append_assoc]
  rfl

theorem exists_of_lastBlockEnd? {cs body trail : List Char} {negated : Bool}
    (h : lastBlockEnd? cs = some (body, negated, trail)) :
    ∃ text, cs = body ++ text ++ trail ∧ IsEnding negated text ∧ '{' ∉ trail := by
  induction cs generalizing body with
  | nil => cases h
  | cons c cs ih =>
    rw [lastBlockEnd?] at h
    split at h
    · next found hlater =>
      cases h
      obtain ⟨text, hcs, htext⟩ := ih hlater
      exact ⟨text, by rw [hcs]; rfl, htext⟩
    · split at h
      · next hend =>
        split at h
        · cases h
        · next hbrace =>
          cases h
          obtain ⟨text, hcs, htext⟩ := exists_of_blockEnd? hend
          exact ⟨text, hcs, htext, by simpa using hbrace⟩
      · cases h

/-! ### Rewritings -/

/-- What a pass puts in the place of an attribute. -/
structure Rewriting where
  conditional : ConditionalAttribute
  replacement : Replacement
  helper : Helper

/-- The helper is called with the condition and the mustache of the body. It returns what the
attribute is worth for their values. If no mustache is left in a text, that is what the attribute
means. -/
structure Rewriting.IsFaithful (e : Rewriting) : Prop where
  call : e.replacement.text = e.conditional.callText e.helper.name e.conditional.arguments
  /-- A body with mustaches of which none is plain would not have been accepted. -/
  body : e.conditional.cut? = none → Unbraced e.conditional.body
  applies : ∀ value : List Char → Value,
    e.helper.apply (e.conditional.arguments.map value) = some (e.conditional.result value)
  means : e.conditional.IsPlain → ∀ value, e.conditional.Means value (e.conditional.result value)
  texts : e.conditional.IsPlain →
    (∀ chars, HelperPart.text chars ∈ e.helper.consequent → Unbraced chars.toList) ∧
      ∀ chars ∈ e.helper.alternate, Unbraced chars.toList

namespace ConditionalAttribute

variable {a : ConditionalAttribute}

theorem unbraced_of_textPart {chars : String} {cs : List Char} (hcs : Unbraced cs)
    (h : HelperPart.text chars ∈ textPart cs) : Unbraced chars.toList := by
  rw [textPart] at h
  split at h
  · cases h
  · cases List.mem_singleton.1 h
    rwa [String.toList_ofList]

theorem unbraced_of_helper (h : a.IsPlain) (htrail : '{' ∉ a.trail) (name : String) :
    (∀ chars, HelperPart.text chars ∈ (a.helper name).1.consequent → Unbraced chars.toList) ∧
      ∀ chars ∈ (a.helper name).1.alternate, Unbraced chars.toList := by
  have halternate : (a.helper name).1.alternate =
      if a.keepsRest then some (String.ofList (a.lead ++ a.trail)) else none := by
    rw [helper.eq_def]
    cases Text.cutAtFirst? plainMustache? a.body <;> rfl
  refine ⟨fun chars hchars => ?_, fun chars hchars => ?_⟩
  · obtain ⟨hbefore, hrest, -⟩ := h
    rw [texts, cut?] at hbefore hrest
    rw [helper.eq_def] at hchars
    cases hcut : Text.cutAtFirst? plainMustache? a.body with
    | none =>
      rw [hcut] at hbefore hchars
      cases List.mem_singleton.1 hchars
      rwa [String.toList_ofList]
    | some cut =>
      obtain ⟨before, path, rest⟩ := cut
      rw [hcut] at hbefore hrest hchars
      rcases List.mem_append.1 hchars with hchars | hchars
      · rcases List.mem_append.1 hchars with hchars | hchars
        · exact unbraced_of_textPart hbefore hchars
        · cases List.mem_singleton.1 hchars
      · exact unbraced_of_textPart hrest hchars
  · rw [halternate] at hchars
    split at hchars
    · cases hchars
      rw [String.toList_ofList]
      exact h.unbraced_lead.append htrail
    · cases hchars

end ConditionalAttribute

/-! ### Passes -/

theorem exists_of_run_bind {α β : Type} {x : ExtractM α} {f : α → ExtractM β}
    {names names' : HelperNames} {b : β} (h : (x >>= f).run names = (.ok b, names')) :
    ∃ a middle, x.run names = (.ok a, middle) ∧ (f a).run middle = (.ok b, names') := by
  change (match x.run names with
    | (result, middle) => (ExceptT.bindCont f result : StateM HelperNames _) middle) = _ at h
  cases hx : x.run names with
  | mk result middle =>
    rw [hx] at h
    cases result with
    | error e => cases h
    | ok a => exact ⟨a, middle, rfl, h⟩

/-- What every step keeps of a result and of the names that are taken, a run keeps. -/
theorem foldlM_run_induction {α β : Type} {motive : β → HelperNames → Prop}
    {f : β → α → ExtractM β} {xs : List α}
    (hstep : ∀ x ∈ xs, ∀ b b' names names', motive b names →
      (f b x).run names = (.ok b', names') → motive b' names')
    {b b' : β} {names names' : HelperNames} (hb : motive b names)
    (h : (xs.foldlM f b).run names = (.ok b', names')) : motive b' names' := by
  induction xs generalizing b names with
  | nil =>
    cases h
    exact hb
  | cons x xs ih =>
    rw [List.foldlM_cons] at h
    obtain ⟨middle, names'', hfirst, hrest⟩ := exists_of_run_bind h
    exact ih (fun y hy => hstep y (List.mem_cons_of_mem x hy))
      (hstep x List.mem_cons_self _ _ _ _ hb hfirst) hrest

theorem foldlM_induction {α β : Type} {motive : β → Prop} {f : β → α → ExtractM β} {xs : List α}
    (hstep : ∀ x ∈ xs, ∀ b b' names names', motive b → (f b x).run names = (.ok b', names') →
      motive b')
    {b b' : β} {names names' : HelperNames} (hb : motive b)
    (h : (xs.foldlM f b).run names = (.ok b', names')) : motive b' :=
  foldlM_run_induction (motive := fun b _ => motive b) hstep hb h

theorem ConditionalAttribute.unbraced_of_fault? {a : ConditionalAttribute} (h : a.fault? = none)
    (hcut : a.cut? = none) : Unbraced a.body := by
  have hcut : Text.cutAtFirst? plainMustache? a.body = none := hcut
  rw [fault?, hcut] at h
  split at h
  · cases h
  · split at h
    · cases h
    · dsimp only at h
      split at h
      · cases h
      · next hcontains => exact fun hbraces => hcontains (Text.contains_iff.2 hbraces)

/-- A helper is called by a name that is not taken yet, and takes it. -/
theorem ConditionalAttribute.of_extract {a : ConditionalAttribute} {helper : Helper}
    {text : List Char} {names names' : HelperNames}
    (h : a.extract.run names = (.ok (helper, text), names')) :
    a.fault? = none ∧ ∃ name, names.unique (helperBase a.name a.negated) = (name, names') ∧
      helper = (a.helper name).1 ∧ text = a.callText name a.arguments := by
  rw [extract] at h
  split at h
  · cases h
  · next hfault =>
    have hrun : a.extract.run names =
        let name := (names.unique (helperBase a.name a.negated)).1
        (.ok ((a.helper name).1, a.callText name (a.helper name).2),
          (names.unique (helperBase a.name a.negated)).2) := by
      rw [extract, hfault]
      rfl
    rw [extract, hfault, h] at hrun
    cases hrun
    exact ⟨hfault, _, rfl, rfl, congrArg (a.callText _) (a.helper_arguments _)⟩

theorem ConditionalAttribute.name_helper (a : ConditionalAttribute) (name : String) :
    (a.helper name).1.name = name := by
  rw [helper.eq_def]
  cases Text.cutAtFirst? plainMustache? a.body <;> rfl

theorem Rewriting.isFaithful_of_extract {e : Rewriting} {names names' : HelperNames}
    (htrail : '{' ∉ e.conditional.trail)
    (h : e.conditional.extract.run names = (.ok (e.helper, e.replacement.text), names')) :
    e.IsFaithful := by
  obtain ⟨hfault, name, -, hhelper, htext⟩ := ConditionalAttribute.of_extract h
  refine ⟨?_, ConditionalAttribute.unbraced_of_fault? hfault, fun value => ?_,
    fun hplain value => ?_, fun hplain => ?_⟩
  · rw [htext, hhelper, ConditionalAttribute.name_helper]
  · rw [hhelper, ConditionalAttribute.apply_helper]
  · exact ConditionalAttribute.means_result hplain htrail value
  · rw [hhelper]
    exact ConditionalAttribute.unbraced_of_helper hplain htrail name

/-- A rewriting as a pass makes it: its helper and its call are extracted from the attribute. -/
structure Rewriting.IsExtracted (e : Rewriting) : Prop where
  trail : '{' ∉ e.conditional.trail
  run : ∃ names names',
    e.conditional.extract.run names = (.ok (e.helper, e.replacement.text), names')

theorem Rewriting.IsExtracted.isFaithful {e : Rewriting} (h : e.IsExtracted) : e.IsFaithful := by
  obtain ⟨names, names', hrun⟩ := h.run
  exact isFaithful_of_extract h.trail hrun

/-- A pass over the blocks in opening tags. -/
inductive BlockPass where
  /-- Blocks within the values of attributes. -/
  | within
  /-- Blocks around attributes. -/
  | around

/-- The attribute of a tag that a rewriting stands for, with its block, and the bytes that give way
to it. -/
structure Rewriting.IsWithin (e : Rewriting) (tag : OpeningTag) (offset : Nat)
    (written : WrittenAttribute) : Prop where
  name : e.conditional.name = written.name
  value : ∃ opening ending, IsOpening e.conditional.negated e.conditional.condition opening ∧
    IsEnding e.conditional.negated ending ∧
    written.value = e.conditional.lead ++ opening ++ e.conditional.body ++ ending ++
      e.conditional.trail
  keepsRest : e.conditional.keepsRest = true
  start : e.replacement.start = tag.start + offset
  length : e.replacement.length = Text.utf8Length written.text

/-- The attribute of a tag that a rewriting stands for, with the block around it, and the bytes that
give way to it. -/
structure Rewriting.IsAround (e : Rewriting) (tag : OpeningTag) (written : WrittenAttribute) :
    Prop where
  name : e.conditional.name = written.name
  body : e.conditional.body = written.value
  lead : e.conditional.lead = []
  trail : e.conditional.trail = []
  keepsRest : e.conditional.keepsRest = false
  text : ∃ before opening blanks blanks' ending rest,
    IsOpening e.conditional.negated e.conditional.condition opening ∧
    IsEnding e.conditional.negated ending ∧
    (∀ c ∈ blanks ++ blanks', Text.isBlank c = true) ∧
    tag.text = before ++ (opening ++ blanks ++ written.text ++ blanks' ++ ending) ++ rest ∧
    e.replacement.start = tag.start + Text.utf8Length before ∧
    e.replacement.length =
      Text.utf8Length (opening ++ blanks ++ written.text ++ blanks' ++ ending)

namespace BlockPass

def extract : BlockPass → List Char → ExtractM Prepared
  | within => extractFromValues
  | around => extractAround

/-- Where a rewriting comes from. -/
def Finds (pass : BlockPass) (template : List Char) (e : Rewriting) : Prop :=
  ∃ tag ∈ OpeningTag.all template, ∃ found ∈ tag.attributes,
    match pass with
    | within => e.IsWithin tag found.1 found.2
    | around => e.IsAround tag found.2

/-- What a pass has found so far are rewritings. -/
def Keeps (pass : BlockPass) (template : List Char) (found : Extraction) : Prop :=
  ∃ entries : List Rewriting, found.replacements = entries.map Rewriting.replacement ∧
    found.helpers = entries.map Rewriting.helper ∧
    ∀ e ∈ entries, pass.Finds template e ∧ e.IsExtracted

variable {pass : BlockPass} {template : List Char}

theorem Keeps.start : pass.Keeps template {} := ⟨[], rfl, rfl, nofun⟩

theorem Keeps.add {found : Extraction} (h : pass.Keeps template found) {e : Rewriting}
    (hfinds : pass.Finds template e) (hextracted : e.IsExtracted) :
    pass.Keeps template (found.add e.replacement e.helper) := by
  obtain ⟨entries, hreplacements, hhelpers, hentries⟩ := h
  refine ⟨entries ++ [e], ?_, ?_, fun d hd => ?_⟩
  · rw [Extraction.add, hreplacements, List.map_append]
    rfl
  · rw [Extraction.add, hhelpers, List.map_append]
    rfl
  · rcases List.mem_append.1 hd with hd | hd
    · exact hentries d hd
    · cases List.mem_singleton.1 hd
      exact ⟨hfinds, hextracted⟩

/-- The end of a pass applies what was found. -/
theorem exists_of_keeps {found : Extraction} (h : pass.Keeps template found) {prepared : Prepared}
    (happly : found.applyTo template = .ok prepared) :
    ∃ entries : List Rewriting, prepared.helpers = entries.map Rewriting.helper ∧
      splice template (entries.map Rewriting.replacement) = .ok prepared.template ∧
      ∀ e ∈ entries, pass.Finds template e ∧ e.IsExtracted := by
  obtain ⟨entries, hreplacements, hhelpers, hentries⟩ := h
  rw [Extraction.applyTo, hreplacements] at happly
  cases hsplice : splice template (entries.map Rewriting.replacement) with
  | error e =>
    rw [hsplice] at happly
    cases happly
  | ok spliced =>
    rw [hsplice] at happly
    cases happly
    exact ⟨entries, hhelpers, hsplice, hentries⟩

end BlockPass

/-! ### Blocks within values -/

theorem WrittenAttribute.of_conditional? {written : WrittenAttribute}
    {a : ConditionalAttribute} (h : written.conditional? = .ok a) :
    a.name = written.name ∧ a.keepsRest = true ∧ '{' ∉ a.trail ∧
      ∃ opening ending, IsOpening a.negated a.condition opening ∧ IsEnding a.negated ending ∧
        written.value = a.lead ++ opening ++ a.body ++ ending ++ a.trail := by
  rw [conditional?] at h
  split at h
  · cases h
  · next lead opening rest hopening =>
    split at h
    · cases h
    · next body negated trail hending =>
      split at h
      · next hsame =>
        cases h
        obtain ⟨text, hvalue, htext⟩ := BlockOpening.exists_of_last? hopening
        obtain ⟨text', hrest, htext', htrail⟩ := exists_of_lastBlockEnd? hending
        refine ⟨rfl, rfl, htrail, text, text', hsame ▸ htext, htext', ?_⟩
        rw [hvalue, hrest]
        simp only [List.append_assoc]
      · cases h

theorem BlockPass.keeps_fromValue {template : List Char} {tag : OpeningTag}
    (htag : tag ∈ OpeningTag.all template) {offset : Nat} {written : WrittenAttribute}
    (hwritten : (offset, written) ∈ tag.attributes) {found found' : Extraction}
    {names names' : HelperNames} (hfound : BlockPass.within.Keeps template found)
    (h : (written.extractFromValue (tag.start + offset) found).run names = (.ok found', names')) :
    BlockPass.within.Keeps template found' := by
  rw [WrittenAttribute.extractFromValue] at h
  split at h
  · split at h
    · cases h
    · next a hconditional =>
      obtain ⟨⟨helper, text⟩, middle, hextract, h⟩ := exists_of_run_bind h
      cases h
      obtain ⟨hname, hkeeps, htrail, hvalue⟩ := WrittenAttribute.of_conditional? hconditional
      let e : Rewriting :=
        { conditional := a
          replacement :=
            { start := tag.start + offset, length := Text.utf8Length written.text, text }
          helper }
      exact hfound.add (e := e) ⟨tag, htag, _, hwritten, hname, hvalue, hkeeps, rfl, rfl⟩
        ⟨htrail, names, _, hextract⟩
  · cases h
    exact hfound

/-! ### Blocks around attributes -/

/-- What wraps an attribute of a tag, read from its opening on. -/
theorem exists_of_surrounding {attributeText cs rest : List Char} {opening : BlockOpening}
    {negated : Bool} (h : surroundingBlock? attributeText cs = some (opening, negated, rest)) :
    ∃ blanks blanks' ending,
      BlockOpening.at? cs =
        some (opening, blanks ++ (attributeText ++ (blanks' ++ (ending ++ rest)))) ∧
      IsEnding negated ending ∧ (∀ c ∈ blanks, Text.isBlank c = true) ∧
      ∀ c ∈ blanks', Text.isBlank c = true := by
  rw [surroundingBlock?] at h
  obtain ⟨⟨found, inner⟩, hopening, h⟩ := Option.bind_eq_some_iff.1 h
  obtain ⟨after, hafter, h⟩ := Option.bind_eq_some_iff.1 h
  obtain ⟨⟨negated', last⟩, hending, h⟩ := Option.bind_eq_some_iff.1 h
  cases h
  obtain ⟨ending, hlast, hend⟩ := exists_of_blockEnd? hending
  have hinner := List.takeWhile_append_dropWhile (p := Text.isBlank) (l := inner)
  have hbehind := List.takeWhile_append_dropWhile (p := Text.isBlank) (l := after)
  rw [← Text.trimStart, Text.afterLead?_eq_some_iff.1 hafter] at hinner
  rw [← Text.trimStart, hlast] at hbehind
  refine ⟨inner.takeWhile Text.isBlank, after.takeWhile Text.isBlank, ending, ?_, hend,
    fun c hc => List.mem_takeWhile_imp hc, fun c hc => List.mem_takeWhile_imp hc⟩
  rw [hbehind, hinner, hopening]

theorem exists_of_surroundingBlock? {attributeText cs rest : List Char} {opening : BlockOpening}
    {negated : Bool} (h : surroundingBlock? attributeText cs = some (opening, negated, rest)) :
    ∃ text blanks blanks' ending, IsOpening opening.negated opening.condition text ∧
      IsEnding negated ending ∧ (∀ c ∈ blanks ++ blanks', Text.isBlank c = true) ∧
      cs = text ++ blanks ++ attributeText ++ blanks' ++ ending ++ rest := by
  obtain ⟨blanks, blanks', ending, hopening, hend, hblanks, hblanks'⟩ := exists_of_surrounding h
  obtain ⟨text, rfl, htext⟩ := BlockOpening.exists_of_at? hopening
  refine ⟨text, blanks, blanks', ending, htext, hend, fun c hc => ?_, ?_⟩
  · rcases List.mem_append.1 hc with hc | hc
    · exact hblanks c hc
    · exact hblanks' c hc
  · simp only [List.append_assoc]

theorem BlockPass.keeps_around {template : List Char} {tag : OpeningTag}
    (htag : tag ∈ OpeningTag.all template) {offset : Nat} {written : WrittenAttribute}
    (hwritten : (offset, written) ∈ tag.attributes) {found found' : Extraction}
    {names names' : HelperNames} (hfound : BlockPass.around.Keeps template found)
    (h : (written.extractAround tag found).run names = (.ok found', names')) :
    BlockPass.around.Keeps template found' := by
  rw [WrittenAttribute.extractAround] at h
  split at h
  · cases h
    exact hfound
  · next before opening negated rest hcut =>
    dsimp only at h
    split at h
    · cases h
      exact hfound
    · split at h
      · cases h
      · next hsame =>
        obtain ⟨⟨helper, text⟩, middle, hextract, h⟩ := exists_of_run_bind h
        cases h
        obtain ⟨cs, htext, hblock⟩ := Text.exists_of_cutAtFirst? hcut
        obtain ⟨opened, blanks, blanks', ending, hopening, hending, hblanks, rfl⟩ :=
          exists_of_surroundingBlock? hblock
        obtain rfl := not_not.1 hsame
        let e : Rewriting :=
          { conditional := written.surrounded opening
            replacement :=
              { start := tag.start + Text.utf8Length before
                length := Text.utf8Length tag.text - Text.utf8Length before - Text.utf8Length rest
                text }
            helper }
        have hlength : e.replacement.length =
            Text.utf8Length (opened ++ blanks ++ written.text ++ blanks' ++ ending) := by
          show Text.utf8Length tag.text - Text.utf8Length before - Text.utf8Length rest = _
          rw [htext, Text.utf8Length_append, Text.utf8Length_append _ rest]
          omega
        refine hfound.add (e := e) ⟨tag, htag, _, hwritten, rfl, rfl, rfl, rfl, rfl, before, opened,
          blanks, blanks', ending, rest, hopening, hending, hblanks, ?_, rfl, hlength⟩
          ⟨nofun, names, _, hextract⟩
        rw [htext]
        simp only [List.append_assoc]

theorem BlockPass.keeps_tag {template : List Char} {tag : OpeningTag}
    (htag : tag ∈ OpeningTag.all template) {found found' : Extraction} {names names' : HelperNames}
    (hfound : BlockPass.around.Keeps template found)
    (h : (tag.extractAround found).run names = (.ok found', names')) :
    BlockPass.around.Keeps template found' := by
  rw [OpeningTag.extractAround] at h
  obtain ⟨last, middle, hfold, h⟩ := exists_of_run_bind h
  dsimp only at h
  split at h
  · cases h
  · cases h
    exact foldlM_induction (fun p hp b b' names names' hb hstep => keeps_around htag hp hb hstep)
      hfound hfold

def BlockPass.find : BlockPass → List Char → ExtractM Extraction
  | within, template =>
    (OpeningTag.all template).foldlM (fun found tag => tag.extractFromValues found) {}
  | around, template =>
    (OpeningTag.all template).foldlM (fun found tag => tag.extractAround found) {}

theorem BlockPass.extract_eq (pass : BlockPass) (template : List Char) :
    pass.extract template =
      pass.find template >>= fun found => ExceptT.mk (pure (found.applyTo template)) := by
  cases pass <;> rfl

theorem BlockPass.keeps_of_find {pass : BlockPass} {template : List Char} {found : Extraction}
    {names names' : HelperNames} (h : (pass.find template).run names = (.ok found, names')) :
    pass.Keeps template found := by
  cases pass with
  | within =>
    exact foldlM_induction (fun tag htag b b' names names' hb hstep =>
      foldlM_induction (fun p hp b b' names names' hb hstep => keeps_fromValue htag hp hb hstep)
        hb hstep) .start h
  | around =>
    exact foldlM_induction (fun tag htag b b' names names' hb hstep => keeps_tag htag hb hstep)
      .start h

/-- A pass that succeeds puts in the place of attributes with blocks what was extracted from
them. -/
theorem BlockPass.exists_entries (pass : BlockPass) {template : List Char} {prepared : Prepared}
    {names names' : HelperNames}
    (h : (pass.extract template).run names = (.ok prepared, names')) :
    ∃ entries : List Rewriting, prepared.helpers = entries.map Rewriting.helper ∧
      splice template (entries.map Rewriting.replacement) = .ok prepared.template ∧
      ∀ e ∈ entries, pass.Finds template e ∧ e.IsExtracted := by
  rw [extract_eq] at h
  obtain ⟨found, middle, hfind, h⟩ := exists_of_run_bind h
  exact exists_of_keeps (keeps_of_find hfind) (congrArg Prod.fst h)

/-- A pass that succeeds puts rewritings in the place of attributes with blocks. Each calls a helper
that returns what the attribute is worth, which is what it means where no mustache is left in a text
of the helper. -/
theorem BlockPass.preserves_meaning (pass : BlockPass) {template : List Char} {prepared : Prepared}
    {names names' : HelperNames}
    (h : (pass.extract template).run names = (.ok prepared, names')) :
    ∃ entries : List Rewriting, prepared.helpers = entries.map Rewriting.helper ∧
      splice template (entries.map Rewriting.replacement) = .ok prepared.template ∧
      ∀ e ∈ entries, pass.Finds template e ∧ e.IsFaithful := by
  obtain ⟨entries, hhelpers, hsplice, hentries⟩ := pass.exists_entries h
  exact ⟨entries, hhelpers, hsplice, fun e he =>
    ⟨(hentries e he).1, (hentries e he).2.isFaithful⟩⟩

def classHelper (condition value : String) (consequent : List HelperPart) (alternate : String) :
    Helper :=
  { name := "classIfHelper", params := [condition, value], negate := false, consequent
    alternate := some alternate }

theorem BlockPass.class_is_preserved :
    let template := ("<a class=\"b \x7b\x7b#if c\x7d\x7dd " ++
      "\x7b\x7be\x7d\x7d\x7b\x7b/if\x7d\x7d\"></a>").toList
    ∃ prepared names', (within.extract template).run [] = (.ok prepared, names') ∧
      prepared.helpers = [classHelper "c" "e" [.text "b d ", .param "e"] "b "] ∧
      ∃ entries : List Rewriting, prepared.helpers = entries.map Rewriting.helper ∧
        splice template (entries.map Rewriting.replacement) = .ok prepared.template ∧
        ∀ e ∈ entries, within.Finds template e ∧ e.IsFaithful := by
  intro template
  have hrun : ((within.extract template).run []).1.toOption.map Prepared.helpers =
      some [classHelper "c" "e" [.text "b d ", .param "e"] "b "] := by
    decide +kernel
  cases hresult : (within.extract template).run [] with
  | mk result names' =>
    rw [hresult] at hrun
    cases result with
    | error fault => cases hrun
    | ok prepared =>
      exact ⟨prepared, names', rfl, Option.some.inj hrun, preserves_meaning within hresult⟩

/-- One plain mustache lets another one pass, which becomes a text of the helper. -/
theorem BlockPass.call_becomes_text :
    let template := ("<a class=\"\x7b\x7b#if a\x7d\x7d" ++
      "\x7b\x7bb\x7d\x7d \x7b\x7bf c\x7d\x7d\x7b\x7b/if\x7d\x7d\"></a>").toList
    ((within.extract template).run []).1.toOption.map Prepared.helpers =
        some [classHelper "a" "b" [.param "b", .text " \x7b\x7bf c\x7d\x7d"] ""] ∧
      ¬ Unbraced " \x7b\x7bf c\x7d\x7d".toList := by
  decide +kernel

end MustacheJsx
