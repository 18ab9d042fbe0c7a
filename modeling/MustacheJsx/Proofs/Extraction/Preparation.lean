import MustacheJsx.Proofs.Extraction.Clearing

/-!
# Blocks that preparation leaves in tags

The three passes of a preparation put no tags of blocks into opening tags. One that is left behind
stands in the source already, where no pass looks for it: it begins a value without quotes, ends or
divides a block between attributes, or is in a value without a whole block.
-/

namespace MustacheJsx

namespace OpeningTag

variable {place : Place} {offset : Nat} {cs : List Char} {m : TagMustache}

/-! ### Mustaches that the reader meets -/

/-- What a mustache that the reader meets tells about the places before and behind it, and about
its text. -/
structure Met (m : TagMustache) (before after : Place) : Prop where
  places : ∃ quote last, before = .inside quote last ∧ after = .inside quote '}' ∧
    m.inValue = (quote.isSome || last == '=')
  text : ∃ body, mustacheText? ('{' :: '{' :: body) = some m.text

theorem met_of_step {next : Place} {c : Char} {text rest : List Char}
    (hstep : place.step c cs = some (text.length, next)) (hcs : c :: cs = text ++ rest)
    (h : m ∈ place.mustache? offset c cs) :
    m.start = offset ∧ m.text = text ∧ Met m place next := by
  cases place with
  | between => cases h
  | inside quote last =>
    rcases inside_cases quote last c cs with
      ⟨body, hbody, ⟨hnone, hstuck⟩ | ⟨found, hfound, hread⟩⟩ | ⟨hbraces, -⟩ | ⟨hbraces, -⟩
    · rw [hstuck] at hstep
      cases hstep
    · rw [mustache?_of_braces hbody hfound] at h
      obtain rfl := Option.some.inj h
      rw [hread] at hstep
      obtain ⟨hlength, rfl⟩ := Prod.mk.inj (Option.some.inj hstep)
      obtain ⟨behind, hsource, -⟩ := exists_of_mustacheText? hfound
      obtain ⟨rfl, rfl⟩ := List.append_inj (hcs.symm.trans hsource) hlength.symm
      exact ⟨rfl, rfl, ⟨quote, last, rfl, rfl, rfl⟩, body, hbody ▸ hfound⟩
    · rw [mustache?_of_not_braces hbraces] at h
      cases h
    · rw [mustache?_of_not_braces hbraces] at h
      cases h

theorem exists_met (h : m ∈ mustachesFrom place offset 0 cs) :
    ∃ before after, placeAt m.start place offset 0 cs = some before ∧
      placeAt m.stop place offset 0 cs = some after ∧ Met m before after := by
  induction place, offset, cs using place_induction with
  | done place offset => cases h
  | stuck place offset c cs hstep =>
    rw [mustachesFrom, hstep] at h
    cases h
  | step place next offset c cs text rest hstep hcs hne ih =>
    have hpos := utf8Length_pos hne
    rw [mustachesFrom_step hstep hcs hne, List.mem_append] at h
    rcases h with h | h
    -- The mustache is the text of this step.
    · obtain ⟨hstart, htext, hmet⟩ := met_of_step hstep hcs (Option.mem_toList.1 h)
      have hstop : m.stop = offset + Text.utf8Length text := by
        rw [TagMustache.stop, hstart, htext]
      refine ⟨place, next, ?_, ?_, hmet⟩
      · rw [hstart]
        exact placeAt_self _
      · rw [hstop, placeAt_step hstep hcs hne (by omega)]
        exact placeAt_self _
    -- It stands behind.
    · have hle := le_of_mem_mustachesFrom h
      have hstop : m.start ≤ m.stop := Nat.le_add_right _ _
      obtain ⟨before, after, hbefore, hafter, hmet⟩ := ih h
      refine ⟨before, after, ?_, ?_, hmet⟩
      · rw [placeAt_step hstep hcs hne (by omega)]
        exact hbefore
      · rw [placeAt_step hstep hcs hne (by omega)]
        exact hafter

theorem pairwise_mustachesFrom (place : Place) (offset : Nat) (cs : List Char) :
    (mustachesFrom place offset 0 cs).Pairwise fun m m' => m.stop ≤ m'.start := by
  induction place, offset, cs using place_induction with
  | done place offset => exact .nil
  | stuck place offset c cs hstep =>
    rw [mustachesFrom, hstep]
    exact .nil
  | step place next offset c cs text rest hstep hcs hne ih =>
    rw [mustachesFrom_step hstep hcs hne, List.pairwise_append]
    refine ⟨?_, ih, fun m hm m' hm' => ?_⟩
    · cases place.mustache? offset c cs with
      | none => exact .nil
      | some m => exact List.pairwise_singleton _ _
    · obtain ⟨hstart, htext, -⟩ := met_of_step hstep hcs (Option.mem_toList.1 hm)
      rw [TagMustache.stop, hstart, htext]
      exact le_of_mem_mustachesFrom hm'

theorem Met.isOutside {before after : Place} (h : Met m before after) (hvalue : m.inValue = false) :
    before.isOutside = true ∧ after.isOutside = true := by
  obtain ⟨quote, last, rfl, rfl, heq⟩ := h.places
  rw [hvalue, eq_comm, Bool.or_eq_false_iff, Option.isSome_eq_false_iff,
    Option.isNone_iff_eq_none] at heq
  obtain ⟨rfl, hlast⟩ := heq
  refine ⟨?_, rfl⟩
  rw [Place.isOutside, bne, hlast]
  rfl

end OpeningTag

open OpeningTag

/-! ### Replacements that fit -/

/-- A replacement that keeps the reader of opening tags on its way: it cuts no quote, no mustache
and no value, and the reader gets through its text. -/
structure Replacement.Fits (template : List Char) (r : Replacement) : Prop where
  start : isOutsideAt template r.start = true
  stop : isOutsideAt template r.stop = true
  text : StandsAlone r.text

instance (text : List Char) : Decidable (StandsAlone text) :=
  decidable_of_iff (text.head? ≠ some '{' ∧
      placeAt (Text.utf8Length text) (.inside none ' ') 0 0 text = some (.inside none '"'))
    ⟨fun ⟨h₁, h₂⟩ => ⟨h₁, h₂⟩, fun ⟨h₁, h₂⟩ => ⟨h₁, h₂⟩⟩

instance (template : List Char) (r : Replacement) : Decidable (r.Fits template) :=
  decidable_of_iff (isOutsideAt template r.start = true ∧ isOutsideAt template r.stop = true ∧
      StandsAlone r.text)
    ⟨fun ⟨h₁, h₂, h₃⟩ => ⟨h₁, h₂, h₃⟩, fun ⟨h₁, h₂, h₃⟩ => ⟨h₁, h₂, h₃⟩⟩

/-- A tag of a block that is left behind where parts of tags give way was there before, and did not
give way. -/
theorem exists_of_isBlockTag_splice {template result : List Char} {rs : List Replacement}
    (h : splice template rs = .ok result) (hfits : ∀ r ∈ rs, r.Fits template)
    (hputs : ∀ r ∈ rs, ∀ m ∈ mustachesWithin r.text, m.isBlockTag = false)
    {m : TagMustache} (hm : m ∈ mustachesOf (all result)) (hblock : m.isBlockTag = true) :
    ∃ m₀ ∈ mustachesOf (all template), m₀.Alike m ∧ ∀ r ∈ rs, ¬ r.Covers m₀.start := by
  rcases exists_of_splice h (fun r hr => (hfits r hr).start) (fun r hr => (hfits r hr).stop)
    (fun r hr => (hfits r hr).text) m hm with hleft | ⟨r, hr, m₀, hm₀, halike⟩
  · exact hleft
  · have hno := hputs r hr m₀ hm₀
    rw [TagMustache.isBlockTag, TagMustache.front, halike.text] at hno
    rw [TagMustache.isBlockTag, TagMustache.front, hno] at hblock
    cases hblock

/-! ### Calls that are bound -/

/-- The replacements of the pass that binds calls. -/
def generatorBindings (template : List Char) : List Replacement :=
  (all template).flatMap fun tag => tag.bindGenerators 0 tag.mustaches

theorem exists_of_mem_bindGenerators {tag : OpeningTag} {ms : List TagMustache} {count : Nat}
    {r : Replacement} (h : r ∈ tag.bindGenerators count ms) :
    ∃ m ∈ ms, m.inValue = false ∧ m.isGeneratorCall = true ∧
      ∃ n, r = m.bind (tag.start + m.start) n := by
  induction ms generalizing count with
  | nil => cases h
  | cons m ms ih =>
    rw [OpeningTag.bindGenerators] at h
    split at h
    · next hcall =>
      rw [Bool.and_eq_true, Bool.not_eq_true'] at hcall
      rcases List.mem_cons.1 h with rfl | h
      · exact ⟨m, List.mem_cons_self, hcall.1, hcall.2, _, rfl⟩
      · obtain ⟨m', hm', hrest⟩ := ih h
        exact ⟨m', List.mem_cons_of_mem _ hm', hrest⟩
    · obtain ⟨m', hm', hrest⟩ := ih h
      exact ⟨m', List.mem_cons_of_mem _ hm', hrest⟩

/-- Where a call is bound, the reader stays on its way and meets no tag of a block. -/
theorem fits_of_mem_generatorBindings {template : List Char} {r : Replacement}
    (h : r ∈ generatorBindings template) :
    r.Fits template ∧ 0 < r.length ∧
      ∀ m ∈ mustachesWithin r.text, m.isBlockTag = false := by
  obtain ⟨tag, htag, h⟩ := List.mem_flatMap.1 h
  obtain ⟨m, hm, hvalue, hcall, n, rfl⟩ := exists_of_mem_bindGenerators h
  have hmet : m.shift tag.start ∈ mustachesOf (all template) :=
    List.mem_flatMap.2 ⟨tag, htag, List.mem_map_of_mem hm⟩
  rw [mustachesOf_all] at hmet
  obtain ⟨before, after, hbefore, hafter, hmet⟩ := exists_met hmet
  obtain ⟨body, htext⟩ := hmet.text
  obtain ⟨houtside, houtside'⟩ := hmet.isOutside hvalue
  obtain ⟨halone, hputs⟩ := TagMustache.standsAlone_bind htext hcall (tag.start + m.start) n
  refine ⟨⟨?_, ?_, halone⟩, ?_, hputs⟩
  · exact (Option.any_eq_true _ _).2 ⟨before, hbefore, houtside⟩
  · exact (Option.any_eq_true _ _).2 ⟨after, hafter, houtside'⟩
  · obtain ⟨rest, -, hlength, -⟩ := exists_of_mustacheText? htext
    refine utf8Length_pos fun hnil => ?_
    have htext : (m.shift tag.start).text = [] := hnil
    rw [htext] at hlength
    exact absurd hlength (by decide)

theorem edges_bindGenerators (tag : OpeningTag) (count : Nat) (ms : List TagMustache) :
    ((tag.bindGenerators count ms).map fun r => (r.start, r.stop)).Sublist
      ((ms.map fun m => m.shift tag.start).map fun m => (m.start, m.stop)) := by
  induction ms generalizing count with
  | nil => exact .slnil
  | cons m ms ih =>
    rw [OpeningTag.bindGenerators]
    split
    · exact (ih _).cons_cons _
    · exact (ih _).cons _

theorem pairwise_generatorBindings (template : List Char) :
    (generatorBindings template).Pairwise fun r s => r.stop ≤ s.start := by
  have hmustaches : ((mustachesOf (all template)).map fun m => (m.start, m.stop)).Pairwise
      fun e e' => e.2 ≤ e'.1 := by
    rw [List.pairwise_map, mustachesOf_all]
    exact pairwise_mustachesFrom .between 0 template
  have hedges : ((generatorBindings template).map fun r => (r.start, r.stop)).Sublist
      ((mustachesOf (all template)).map fun m => (m.start, m.stop)) := by
    rw [generatorBindings, mustachesOf]
    induction all template with
    | nil => exact .slnil
    | cons tag tags ih =>
      rw [List.flatMap_cons, List.flatMap_cons, List.map_append, List.map_append]
      exact (edges_bindGenerators tag 0 tag.mustaches).append ih
  exact List.pairwise_map.1 (hmustaches.sublist hedges)

theorem exists_splice_generatorBindings (template : List Char) :
    ∃ result, splice template (generatorBindings template) = .ok result := by
  refine exists_splice (fun r hr => (fits_of_mem_generatorBindings hr).1.start)
    (fun r hr => (fits_of_mem_generatorBindings hr).1.stop) ?_
    fun r hr => (fits_of_mem_generatorBindings hr).2.1
  exact (pairwise_generatorBindings template).imp Or.inl

/-! ### Values that give way -/

namespace BlockPass

/-- Whether the bytes of an attribute give way. -/
def Replaces (found : Extraction) (tag : OpeningTag) (entry : Nat × WrittenAttribute) : Prop :=
  ∃ r ∈ found.replacements,
    r.start = tag.start + entry.1 ∧ r.length = Text.utf8Length entry.2.text

variable {template : List Char} {found found' : Extraction} {names names' : HelperNames}

theorem Replaces.add {tag : OpeningTag} {entry : Nat × WrittenAttribute}
    (h : Replaces found tag entry) (r : Replacement) (helper : Helper) :
    Replaces (found.add r helper) tag entry := by
  obtain ⟨r', hr', hrest⟩ := h
  exact ⟨r', List.mem_append_left _ hr', hrest⟩

/-- A value with a block gives way, and the values that gave way before still do. -/
theorem replaces_fromValue {tag : OpeningTag} {entry : Nat × WrittenAttribute}
    (h : (entry.2.extractFromValue (tag.start + entry.1) found).run names =
      (.ok found', names')) :
    (hasBlock entry.2.value = true → Replaces found' tag entry) ∧
      ∀ tag' entry', Replaces found tag' entry' → Replaces found' tag' entry' := by
  rw [WrittenAttribute.extractFromValue] at h
  split at h
  · split at h
    · cases h
    · obtain ⟨⟨helper, text⟩, middle, -, h⟩ := exists_of_run_bind h
      cases h
      refine ⟨fun _ => ⟨_, List.mem_append_right _ List.mem_cons_self, rfl, rfl⟩, ?_⟩
      intro tag' entry' hreplaced
      exact hreplaced.add _ _
  · next hnone =>
    cases h
    exact ⟨fun hblock => absurd hblock hnone, fun _ _ hreplaced => hreplaced⟩

/-- Every value of the source that has a block gives way. -/
theorem replaces_of_find (h : (within.find template).run names = (.ok found, names')) :
    ∀ tag ∈ all template, ∀ entry ∈ tag.attributes,
      hasBlock entry.2.value = true → Replaces found tag entry := by
  refine foldlM_forall
    (Q := fun (tag : OpeningTag) (found : Extraction) => ∀ entry ∈ tag.attributes,
      hasBlock entry.2.value = true → Replaces found tag entry) ?_ ?_ h
  · intro tag b b' names names' hstep
    refine foldlM_forall
      (Q := fun (entry : Nat × WrittenAttribute) (found : Extraction) =>
        hasBlock entry.2.value = true → Replaces found tag entry) ?_ ?_ hstep
    · intro entry b b' names names' hstep
      exact (replaces_fromValue hstep).1
    · intro entry other b b' names names' hb hstep hblock
      exact (replaces_fromValue hstep).2 tag entry (hb hblock)
  · intro tag other b b' names names' hb hstep entry hm hblock
    refine foldlM_induction (motive := fun found => Replaces found tag entry) ?_
      (hb entry hm hblock) hstep
    intro entry' hentry' b b' names names' hb hstep
    exact (replaces_fromValue hstep).2 tag entry hb

/-! ### The passes of a preparation -/

/-- What a pass finds in a template and makes of it. -/
structure Application (pass : BlockPass) (template : List Char) (names : HelperNames) where
  found : Extraction
  taken : HelperNames
  result : List Char
  finds : (pass.find template).run names = (.ok found, taken)
  splices : splice template found.replacements = .ok result

variable {pass : BlockPass}

theorem exists_of_extract {prepared : Prepared}
    (h : (pass.extract template).run names = (.ok prepared, names')) :
    ∃ a : pass.Application template names, a.taken = names' ∧ a.result = prepared.template := by
  rw [extract_eq] at h
  obtain ⟨found, middle, hfind, h⟩ := exists_of_run_bind h
  obtain ⟨happly, rfl⟩ := Prod.mk.inj h
  obtain ⟨result, hsplice, rfl⟩ := exists_of_map_eq_ok happly
  exact ⟨⟨found, middle, result, hfind, hsplice⟩, rfl, rfl⟩

theorem Application.of_check (a : pass.Application template names) (check : Extraction → Bool)
    (h : ((pass.find template).run names).1.toOption.any check = true) :
    check a.found = true := by
  rw [a.finds] at h
  exact h

/-- Everything that a pass replaces fits. -/
def Application.Fits (a : pass.Application template names) : Prop :=
  ∀ r ∈ a.found.replacements, r.Fits template

end BlockPass

/-- The passes that prepare a template. -/
structure Preparation (template : List Char) where
  within : BlockPass.within.Application template []
  around : BlockPass.around.Application within.result within.taken
  result : List Char
  binds : splice around.result (generatorBindings around.result) = .ok result

namespace Preparation

variable {template : List Char}

theorem exists_of_prepare {prepared : Prepared} (h : prepare template = .ok prepared) :
    ∃ p : Preparation template, p.result = prepared.template := by
  obtain ⟨lifted, cleared, bound, _, _, _, hlifted, hcleared, hbound, rfl⟩ := passes_of_prepare h
  obtain ⟨within, rfl, hwithin⟩ := @BlockPass.exists_of_extract _ _ _ .within _ hlifted
  rw [← hwithin] at hcleared
  obtain ⟨around, rfl, haround⟩ := @BlockPass.exists_of_extract _ _ _ .around _ hcleared
  obtain ⟨result, hbinds, rfl⟩ := exists_of_map_eq_ok (Prod.mk.inj hbound).1
  rw [← haround] at hbinds
  exact ⟨⟨within, around, result, hbinds⟩, rfl⟩

/-- Everything that the passes over blocks replace fits. -/
def Fits (p : Preparation template) : Prop := p.within.Fits ∧ p.around.Fits

/-- What a check finds in the passes holds of the preparation. -/
theorem of_check (p : Preparation template) (check : Extraction → List Char → Extraction → Bool)
    (h : (match (BlockPass.within.find template).run [] with
      | (.ok within, taken) => (splice template within.replacements).toOption.any fun lifted =>
        ((BlockPass.around.find lifted).run taken).1.toOption.any (check within lifted)
      | (.error _, _) => false) = true) :
    check p.within.found p.within.result p.around.found = true := by
  rw [p.within.finds] at h
  dsimp only at h
  rw [p.within.splices] at h
  exact p.around.of_check (check p.within.found p.within.result) h

end Preparation

/-! ### Why preparation fails -/

/-- A template cannot be prepared: a block in a tag is not supported, or replacements overlap. -/
def CompileError.IsRefusal (e : CompileError) : Prop :=
  e.IsBlockInAttribute ∨ ∃ start, e = .overlappingReplacement start

theorem Replacement.exists_of_applyAll_error {cursor : Nat} {cs out : List Char}
    {rs : List Replacement} {e : CompileError} (h : applyAll cursor cs out rs = .error e) :
    ∃ start, e = .overlappingReplacement start := by
  induction rs generalizing cursor cs out with
  | nil => cases h
  | cons r rs ih =>
    rw [applyAll] at h
    split at h
    · cases h
      exact ⟨_, rfl⟩
    · exact ih h

theorem Extraction.isRefusal_of_applyTo {found : Extraction} {template : List Char}
    {e : CompileError} (h : found.applyTo template = .error e) : e.IsRefusal := by
  rw [applyTo] at h
  cases hs : splice template found.replacements with
  | ok text =>
    rw [hs] at h
    cases h
  | error cause =>
    rw [hs] at h
    cases h
    exact .inr (Replacement.exists_of_applyAll_error hs)

theorem BlockPass.isRefusal_of_extract (pass : BlockPass) {template : List Char}
    {names names' : HelperNames} {e : CompileError}
    (h : (pass.extract template).run names = (.error e, names')) : e.IsRefusal := by
  rw [extract_eq] at h
  obtain h | ⟨found, middle, -, h⟩ := exists_of_run_bind_error h
  · exact .inl (isBlockInAttribute_of_find h)
  · exact Extraction.isRefusal_of_applyTo (Prod.mk.inj h).1

theorem bindGenerators_ne_error {template : List Char} {names names' : HelperNames}
    {e : CompileError} : (bindGenerators template).run names ≠ (.error e, names') := by
  intro h
  obtain ⟨result, hresult⟩ := exists_splice_generatorBindings template
  have happly : (splice template (generatorBindings template)).map
      (fun template => { template, helpers := [] : Prepared }) = .error e :=
    (Prod.mk.inj h).1
  rw [hresult] at happly
  cases happly

theorem isRefusal_of_prepare {template : List Char} {e : CompileError}
    (h : prepare template = .error e) : e.IsRefusal := by
  obtain ⟨given, names, names', ⟨pass, hpass⟩ | hbind⟩ := pass_error_of_prepare h
  · exact pass.isRefusal_of_extract hpass
  · exact absurd hbind bindGenerators_ne_error

/-! ### What is left -/

/-- A tag of a block that no pass looks for: it opens no block between attributes, and in the source
it is in no value that has a block. -/
structure TagMustache.IsOverlooked (template : List Char) (m : TagMustache) : Prop where
  opens : m.inValue = false → m.opensBlock = false
  source : ∃ m₀ ∈ mustachesOf (all template), m₀.Alike m ∧
    ∀ tag ∈ all template, ∀ entry ∈ tag.attributes, hasBlock entry.2.value = true →
      ¬ (tag.start + entry.1 ≤ m₀.start ∧
        m₀.start < tag.start + entry.1 + Text.utf8Length entry.2.text)

theorem Extraction.exists_of_covers {found : Extraction} {offset : Nat}
    (h : found.covers offset = true) : ∃ r ∈ found.replacements, r.Covers offset := by
  obtain ⟨r, hr, hcovers⟩ := List.any_eq_true.1 h
  rw [Bool.and_eq_true, decide_eq_true_eq, decide_eq_true_eq] at hcovers
  exact ⟨r, hr, hcovers⟩

theorem Preparation.isOverlooked {template : List Char} (p : Preparation template) (hfits : p.Fits)
    {m : TagMustache} (hm : m ∈ mustachesOf (all p.result)) (hblock : m.isBlockTag = true) :
    m.IsOverlooked template := by
  obtain ⟨hwithin, haround⟩ := hfits
  have htext : ∀ {m₁ m₂ : TagMustache}, m₁.Alike m₂ → m₂.isBlockTag = true →
      m₁.isBlockTag = true := by
    intro m₁ m₂ halike hblock
    rw [TagMustache.isBlockTag, TagMustache.front, halike.text]
    exact hblock
  -- Binding calls only adds mustaches that are no tags of blocks.
  obtain ⟨m₂, hm₂, halike₂, -⟩ := exists_of_isBlockTag_splice p.binds
    (fun r hr => (fits_of_mem_generatorBindings hr).1)
    (fun r hr => (fits_of_mem_generatorBindings hr).2.2) hm hblock
  have hblock₂ := htext halike₂ hblock
  obtain ⟨m₁, hm₁, halike₁, hkept₁⟩ := exists_of_isBlockTag_splice p.around.splices haround
    (BlockPass.putsNoBlock_of_find p.around.finds) hm₂ hblock₂
  have hblock₁ := htext halike₁ hblock₂
  obtain ⟨m₀, hm₀, halike₀, hkept₀⟩ := exists_of_isBlockTag_splice p.within.splices hwithin
    (BlockPass.putsNoBlock_of_find p.within.finds) hm₁ hblock₁
  constructor
  · intro hvalue
    rw [Bool.eq_false_iff]
    intro hopens
    have hvalue₁ : m₁.inValue = false := by
      rw [halike₁.inValue, halike₂.inValue]
      exact hvalue
    have hopens₁ : m₁.opensBlock = true := by
      rw [TagMustache.opensBlock, halike₁.text, halike₂.text]
      exact hopens
    have hcovers := BlockPass.covers_of_find p.around.finds m₁ hm₁ hvalue₁ hopens₁
    obtain ⟨r, hr, hcovers⟩ := Extraction.exists_of_covers hcovers
    exact hkept₁ r hr hcovers
  · refine ⟨m₀, hm₀, ⟨?_, ?_⟩, ?_⟩
    · rw [halike₀.text, halike₁.text, halike₂.text]
    · rw [halike₀.inValue, halike₁.inValue, halike₂.inValue]
    · intro tag htag entry hentry hvalue
      obtain ⟨r, hr, hstart, hlength⟩ :=
        BlockPass.replaces_of_find p.within.finds tag htag entry hentry hvalue
      have hkept := hkept₀ r hr
      rw [Replacement.Covers, Replacement.stop, hstart, hlength] at hkept
      exact hkept

/-- A template is refused because of a block in a tag, or the passes leave in its opening tags no
tags of blocks but those that none of them looks for, provided that what they replace fits. -/
theorem prepare_clears (template : List Char) :
    (∀ e, prepare template = .error e → e.IsRefusal) ∧
      ∀ prepared, prepare template = .ok prepared →
        ∃ p : Preparation template, p.result = prepared.template ∧
          (p.Fits → ∀ m ∈ mustachesOf (all prepared.template), m.isBlockTag = true →
            m.IsOverlooked template) := by
  refine ⟨fun e h => isRefusal_of_prepare h, fun prepared h => ?_⟩
  obtain ⟨p, hresult⟩ := Preparation.exists_of_prepare h
  refine ⟨p, hresult, fun hfits m hm hblock => ?_⟩
  rw [← hresult] at hm
  exact p.isOverlooked hfits hm hblock

/-- A tag with a block in a value, a block around an attribute and a stray `else`. -/
def straySource : List Char :=
  ("<a b=\"\x7b\x7b#if c\x7d\x7dd\x7b\x7b/if\x7d\x7d\" " ++
    "\x7b\x7b#if e\x7d\x7df=\"g\"\x7b\x7b/if\x7d\x7d \x7b\x7belse\x7d\x7d></a>").toList

theorem straySource_prepared :
    ∃ prepared, prepare straySource = .ok prepared ∧
      (∃ m ∈ mustachesOf (all prepared.template), m.isBlockTag = true) ∧
      ∀ m ∈ mustachesOf (all prepared.template), m.isBlockTag = true →
        m.IsOverlooked straySource := by
  have hprepare : (prepare straySource).toOption.any (fun prepared =>
      (mustachesOf (all prepared.template)).any TagMustache.isBlockTag) = true := by
    decide +kernel
  obtain ⟨prepared, hprepare, hleft⟩ := exists_ok_of_check hprepare
  obtain ⟨p, -, hclears⟩ := (prepare_clears straySource).2 prepared hprepare
  have hcheck := p.of_check (fun within lifted around =>
    decide ((∀ r ∈ within.replacements, r.Fits straySource) ∧
      ∀ r ∈ around.replacements, r.Fits lifted)) (by decide +kernel)
  have hfits := of_decide_eq_true hcheck
  exact ⟨prepared, hprepare, List.any_eq_true.1 hleft, hclears hfits⟩

/-- A block that begins a value without quotes. -/
def unquotedBlock : List Char :=
  "<a class=\x7b\x7b#if b\x7d\x7dx\x7b\x7b/if\x7d\x7d></a>".toList

/-- Such a block is left in its tag. -/
theorem unquotedBlock_is_left :
    prepare unquotedBlock = .ok { template := unquotedBlock, helpers := [] } ∧
      ∃ m ∈ mustachesOf (all unquotedBlock), m.opensBlock = true ∧ m.isBlockTag = true := by
  have hleft : (mustachesOf (all unquotedBlock)).any
      (fun m => m.opensBlock && m.isBlockTag) = true := by
    decide +kernel
  obtain ⟨m, hm, hblock⟩ := List.any_eq_true.1 hleft
  exact ⟨by decide +kernel, m, hm, Bool.and_eq_true_iff.1 hblock⟩

end MustacheJsx
