import MustacheJsx.Extraction.Prepare
import MustacheJsx.Proofs.Extraction.Generators

/-!
# Tags without blocks

A pass that sees the blocks of a template leaves no tags of them in its opening tags, and fails only
because of a block that it does not support.
-/

namespace MustacheJsx

/-! ### What a pass puts into tags -/

namespace WrittenAttribute

variable {cs : List Char} {written : WrittenAttribute} {offset skip : Nat}

theorem name_of_at? (h : at? cs = some written) :
    written.name ≠ [] ∧ ∀ c ∈ written.name, isNameChar c = true := by
  rw [at?] at h
  dsimp only at h
  split at h
  · cases h
  · next hempty =>
    split at h
    · obtain ⟨found, -, rfl⟩ := Option.map_eq_some_iff.1 h
      refine ⟨fun hnil => hempty (List.isEmpty_iff.2 hnil), fun c hc => ?_⟩
      exact List.mem_takeWhile_imp hc
    · cases h

theorem exists_of_mem_allFrom {start : Nat} (h : (offset, written) ∈ allFrom start skip cs) :
    ∃ before rest, cs = before ++ rest ∧ offset = start + Text.utf8Length before ∧
      at? rest = some written := by
  induction cs generalizing start skip with
  | nil => cases h
  | cons c cs ih =>
    have of_later : ∀ {skip}, (offset, written) ∈ allFrom (start + c.utf8Size) skip cs →
        ∃ before rest, c :: cs = before ++ rest ∧ offset = start + Text.utf8Length before ∧
          at? rest = some written := by
      intro skip h
      obtain ⟨before, rest, rfl, rfl, hwritten⟩ := ih h
      exact ⟨c :: before, rest, rfl, Nat.add_assoc _ _ _, hwritten⟩
    cases skip with
    | succ skip => exact of_later h
    | zero =>
      rw [allFrom.eq_def] at h
      dsimp only at h
      split at h
      · next found hfound =>
        rcases List.mem_cons.1 h with heq | h
        · cases heq
          exact ⟨[], c :: cs, rfl, rfl, hfound⟩
        · exact of_later h
      · exact of_later h

theorem name_of_mem_attributes {tag : OpeningTag} (h : (offset, written) ∈ tag.attributes) :
    written.name ≠ [] ∧ ∀ c ∈ written.name, isNameChar c = true := by
  obtain ⟨-, rest, -, -, hwritten⟩ := exists_of_mem_allFrom (List.mem_of_mem_filter h)
  exact name_of_at? hwritten

end WrittenAttribute

theorem IsOpening.not_mem {negated : Bool} {condition text : List Char}
    (h : IsOpening negated condition text) : '}' ∉ condition := by
  obtain ⟨inner, -, -, hbrace, rfl⟩ := h
  intro hmem
  rw [Text.trim, Text.trimEnd, List.mem_reverse] at hmem
  have hstart := List.mem_reverse.1 ((List.dropWhile_suffix _).subset hmem)
  exact hbrace ((List.dropWhile_suffix _).subset hstart)

theorem ConditionalAttribute.isBlockTag_of_extract {a : ConditionalAttribute} {helper : Helper}
    {text : List Char} {names names' : HelperNames} (hne : a.name ≠ [])
    (hname : ∀ c ∈ a.name, WrittenAttribute.isNameChar c = true) (hcondition : '}' ∉ a.condition)
    (h : a.extract.run names = (.ok (helper, text), names')) :
    ∀ m ∈ OpeningTag.mustachesWithin text, m.isBlockTag = false := by
  obtain ⟨-, called, hcalled, -, rfl⟩ := of_extract h
  obtain ⟨hlength, hchars⟩ := unique_chars names a.name a.negated
  rw [hcalled] at hlength hchars
  exact isBlockTag_of_call hne hname hcondition (Nat.lt_of_succ_lt hlength) hchars

theorem Extraction.covers_add (found : Extraction) {offset : Nat}
    (h : found.covers offset = true) (r : Replacement) (helper : Helper) :
    (found.add r helper).covers offset = true := by
  rw [covers, add, List.any_append]
  exact Bool.or_eq_true_iff.2 (.inl h)

namespace BlockPass

variable {pass : BlockPass} {template : List Char} {found found' : Extraction}
  {names names' : HelperNames}

/-- No text that is put into a tag has a tag of a block. -/
def PutsNoBlock (found : Extraction) : Prop :=
  ∀ r ∈ found.replacements, ∀ m ∈ OpeningTag.mustachesWithin r.text, m.isBlockTag = false

theorem PutsNoBlock.add (h : PutsNoBlock found) {r : Replacement} {helper : Helper}
    (hr : ∀ m ∈ OpeningTag.mustachesWithin r.text, m.isBlockTag = false) :
    PutsNoBlock (found.add r helper) := by
  intro r' hr'
  rcases List.mem_append.1 hr' with hr' | hr'
  · exact h r' hr'
  · cases List.mem_singleton.1 hr'
    exact hr

theorem putsNoBlock_fromValue {tag : OpeningTag} {offset start : Nat} {written : WrittenAttribute}
    (hwritten : (offset, written) ∈ tag.attributes) (hfound : PutsNoBlock found)
    (h : (written.extractFromValue start found).run names = (.ok found', names')) :
    PutsNoBlock found' := by
  obtain ⟨hne, hchars⟩ := WrittenAttribute.name_of_mem_attributes hwritten
  rw [WrittenAttribute.extractFromValue] at h
  split at h
  · split at h
    · cases h
    · next a hconditional =>
      obtain ⟨⟨helper, text⟩, middle, hextract, h⟩ := exists_of_run_bind h
      cases h
      obtain ⟨hname, -, -, opening, -, hopening, -, -⟩ :=
        WrittenAttribute.of_conditional? hconditional
      rw [← hname] at hne hchars
      exact hfound.add (ConditionalAttribute.isBlockTag_of_extract hne hchars hopening.not_mem
        hextract)
  · cases h
    exact hfound

theorem putsNoBlock_around {tag : OpeningTag} {offset : Nat} {written : WrittenAttribute}
    (hwritten : (offset, written) ∈ tag.attributes) (hfound : PutsNoBlock found)
    (h : (written.extractAround tag found).run names = (.ok found', names')) :
    PutsNoBlock found' := by
  obtain ⟨hne, hchars⟩ := WrittenAttribute.name_of_mem_attributes hwritten
  rw [WrittenAttribute.extractAround] at h
  split at h
  · cases h
    exact hfound
  · next before opening negated rest hcut =>
    dsimp only at h
    split at h
    · cases h
      exact hfound
    · split at h
      · cases h
      · obtain ⟨⟨helper, text⟩, middle, hextract, h⟩ := exists_of_run_bind h
        cases h
        obtain ⟨cs, -, hblock⟩ := Text.exists_of_cutAtFirst? hcut
        obtain ⟨opened, -, -, -, hopening, -, -, -⟩ := exists_of_surroundingBlock? hblock
        exact hfound.add (ConditionalAttribute.isBlockTag_of_extract hne hchars hopening.not_mem
          hextract)

theorem exists_of_extractAround {tag : OpeningTag}
    (h : (tag.extractAround found).run names = (.ok found', names')) :
    (∃ middle, (tag.attributes.foldlM (fun found (entry : Nat × WrittenAttribute) =>
        entry.2.extractAround tag found) found).run names = (.ok found', middle)) ∧
      ∀ m ∈ tag.mustaches, m.inValue = false → m.opensBlock = true →
        found'.covers (tag.start + m.start) = true := by
  rw [OpeningTag.extractAround] at h
  obtain ⟨last, middle, hfold, h⟩ := exists_of_run_bind h
  dsimp only at h
  split at h
  · cases h
  · next hleft =>
    cases h
    refine ⟨⟨_, hfold⟩, fun m hm hvalue hopens => ?_⟩
    by_contra hcovers
    refine hleft (List.any_eq_true.2 ⟨m, hm, ?_⟩)
    rw [hvalue, hopens, Bool.eq_false_iff.2 hcovers]
    rfl

theorem putsNoBlock_of_find (h : (pass.find template).run names = (.ok found, names')) :
    PutsNoBlock found := by
  have hnone : PutsNoBlock {} := fun r hr => absurd hr List.not_mem_nil
  cases pass with
  | within =>
    exact foldlM_induction (fun tag _ b b' names names' hb hstep =>
      foldlM_induction (fun p hp b b' names names' hb hstep =>
        putsNoBlock_fromValue hp hb hstep) hb hstep) hnone h
  | around =>
    refine foldlM_induction (fun tag _ b b' names names' hb hstep => ?_) hnone h
    obtain ⟨⟨middle, hfold⟩, -⟩ := exists_of_extractAround hstep
    exact foldlM_induction (fun p hp b b' names names' hb hstep =>
      putsNoBlock_around hp hb hstep) hb hfold

/-! ### What a pass makes sure of -/

theorem covers_around {tag : OpeningTag} {target : Nat} (hfound : found.covers target = true)
    (h : (tag.extractAround found).run names = (.ok found', names')) :
    found'.covers target = true := by
  obtain ⟨⟨middle, hfold⟩, -⟩ := exists_of_extractAround h
  refine foldlM_induction (motive := fun found => found.covers target = true)
    (fun entry _ b b' names names' hb hstep => ?_) hfound hfold
  rw [WrittenAttribute.extractAround] at hstep
  split at hstep
  · cases hstep
    exact hb
  · dsimp only at hstep
    split at hstep
    · cases hstep
      exact hb
    · split at hstep
      · cases hstep
      · obtain ⟨⟨helper, text⟩, middle, -, hstep⟩ := exists_of_run_bind hstep
        cases hstep
        exact b.covers_add hb _ _

end BlockPass

theorem foldlM_forall {α β : Type} {Q : α → β → Prop} {f : β → α → ExtractM β} {xs : List α}
    (hstep : ∀ x b b' names names', (f b x).run names = (.ok b', names') → Q x b')
    (hkeep : ∀ x y b b' names names', Q x b → (f b y).run names = (.ok b', names') → Q x b')
    {b b' : β} {names names' : HelperNames}
    (h : (xs.foldlM f b).run names = (.ok b', names')) : ∀ x ∈ xs, Q x b' := by
  induction xs generalizing b names with
  | nil =>
    intro x hx
    cases hx
  | cons y xs ih =>
    rw [List.foldlM_cons] at h
    obtain ⟨middle, names'', hfirst, hrest⟩ := exists_of_run_bind h
    intro x hx
    rcases List.mem_cons.1 hx with rfl | hx
    · exact foldlM_induction (fun z _ b b' names names' hb hz => hkeep x z b b' names names' hb hz)
        (hstep x b middle names names'' hfirst) hrest
    · exact ih hrest x hx

theorem exists_of_run_bind_error {α β : Type} {x : ExtractM α} {f : α → ExtractM β}
    {names names' : HelperNames} {e : CompileError}
    (h : (x >>= f).run names = (.error e, names')) :
    x.run names = (.error e, names') ∨
      ∃ a middle, x.run names = (.ok a, middle) ∧ (f a).run middle = (.error e, names') := by
  change (match x.run names with
    | (result, middle) => (ExceptT.bindCont f result : StateM HelperNames _) middle) = _ at h
  cases hx : x.run names with
  | mk result middle =>
    rw [hx] at h
    cases result with
    | error cause =>
      cases h
      exact .inl rfl
    | ok a => exact .inr ⟨a, middle, rfl, h⟩

theorem foldlM_error {α β : Type} {E : CompileError → Prop} {f : β → α → ExtractM β} {xs : List α}
    (hstep : ∀ x b e names names', (f b x).run names = (.error e, names') → E e)
    {b : β} {e : CompileError} {names names' : HelperNames}
    (h : (xs.foldlM f b).run names = (.error e, names')) : E e := by
  induction xs generalizing b names with
  | nil => cases h
  | cons x xs ih =>
    rw [List.foldlM_cons] at h
    rcases exists_of_run_bind_error h with hfirst | ⟨middle, names'', -, hrest⟩
    · exact hstep x b e names names' hfirst
    · exact ih hrest

/-- A block in a tag that is not supported. -/
def CompileError.IsBlockInAttribute (e : CompileError) : Prop :=
  ∃ name fault, e = .blockInAttribute name fault

theorem ConditionalAttribute.isBlockInAttribute_of_extract {a : ConditionalAttribute}
    {e : CompileError} {names names' : HelperNames}
    (h : a.extract.run names = (.error e, names')) : e.IsBlockInAttribute := by
  rw [extract] at h
  split at h
  · cases h
    exact ⟨_, _, rfl⟩
  · rcases exists_of_run_bind_error h with h | ⟨taken, middle, -, h⟩
    · cases h
    · rcases exists_of_run_bind_error h with h | ⟨-, last, -, h⟩
      · cases h
      · cases h

namespace BlockPass

variable {pass : BlockPass} {template : List Char} {found found' : Extraction}
  {names names' : HelperNames}

theorem covers_of_find (h : (around.find template).run names = (.ok found, names')) :
    ∀ m ∈ OpeningTag.mustachesOf (OpeningTag.all template), m.inValue = false →
      m.opensBlock = true → found.covers m.start = true := by
  have hall := foldlM_forall
    (Q := fun (tag : OpeningTag) (found : Extraction) => ∀ m ∈ tag.mustaches, m.inValue = false →
      m.opensBlock = true → found.covers (tag.start + m.start) = true)
    (fun tag b b' names names' hstep => (exists_of_extractAround hstep).2)
    (fun tag other b b' names names' hb hstep m hm hvalue hopens =>
      covers_around (hb m hm hvalue hopens) hstep) h
  intro m hm hvalue hopens
  obtain ⟨tag, htag, hm⟩ := List.mem_flatMap.1 hm
  obtain ⟨inner, hinner, rfl⟩ := List.mem_map.1 hm
  exact hall tag htag inner hinner hvalue hopens

theorem isBlockInAttribute_of_find {e : CompileError}
    (h : (pass.find template).run names = (.error e, names')) : e.IsBlockInAttribute := by
  cases pass with
  | within =>
    refine foldlM_error (fun tag b e names names' hstep => ?_) h
    refine foldlM_error (fun entry b e names names' hstep => ?_) hstep
    obtain ⟨offset, written⟩ := entry
    change (written.extractFromValue _ b).run names = _ at hstep
    rw [WrittenAttribute.extractFromValue] at hstep
    split at hstep
    · split at hstep
      · cases hstep
        exact ⟨_, _, rfl⟩
      · rcases exists_of_run_bind_error hstep with hstep | ⟨found, middle, -, hstep⟩
        · exact ConditionalAttribute.isBlockInAttribute_of_extract hstep
        · cases hstep
    · cases hstep
  | around =>
    refine foldlM_error (fun tag b e names names' hstep => ?_) h
    rw [OpeningTag.extractAround] at hstep
    rcases exists_of_run_bind_error hstep with hstep | ⟨found, middle, -, hstep⟩
    · refine foldlM_error (fun entry b e names names' hstep => ?_) hstep
      obtain ⟨offset, written⟩ := entry
      change (written.extractAround tag b).run names = _ at hstep
      rw [WrittenAttribute.extractAround] at hstep
      split at hstep
      · cases hstep
      · dsimp only at hstep
        split at hstep
        · cases hstep
        · split at hstep
          · cases hstep
            exact ⟨_, _, rfl⟩
          · rcases exists_of_run_bind_error hstep with hstep | ⟨found, middle, -, hstep⟩
            · exact ConditionalAttribute.isBlockInAttribute_of_extract hstep
            · cases hstep
    · dsimp only at hstep
      split at hstep
      · cases hstep
        exact ⟨_, _, rfl⟩
      · cases hstep

end BlockPass

/-! ### The passes of a preparation -/

namespace Prepared

variable {prepared prepared' : Prepared} {pass : List Char → ExtractM Prepared}
  {names names' : HelperNames}

theorem exists_of_through (h : (prepared.through pass).run names = (.ok prepared', names')) :
    ∃ next, (pass prepared.template).run names = (.ok next, names') ∧
      prepared' = { next with helpers := prepared.helpers ++ next.helpers } := by
  obtain ⟨next, middle, hnext, h⟩ := exists_of_run_bind h
  cases h
  exact ⟨next, hnext, rfl⟩

theorem error_of_through {e : CompileError}
    (h : (prepared.through pass).run names = (.error e, names')) :
    (pass prepared.template).run names = (.error e, names') := by
  obtain h | ⟨next, middle, -, h⟩ := exists_of_run_bind_error h
  · exact h
  · cases h

end Prepared

/-- What the passes of a preparation that succeeds make, one after the other. The helpers of each
stand behind those of the passes before it. -/
theorem passes_of_prepare {template : List Char} {prepared : Prepared}
    (h : prepare template = .ok prepared) : ∃ lifted cleared bound names₁ names₂ names₃,
      (BlockPass.within.extract template).run [] = (.ok lifted, names₁) ∧
      (BlockPass.around.extract lifted.template).run names₁ = (.ok cleared, names₂) ∧
      (bindGenerators cleared.template).run names₂ = (.ok bound, names₃) ∧
      prepared = { bound with helpers := lifted.helpers ++ cleared.helpers ++ bound.helpers } := by
  cases hrun : (prepareWith template).run [] with
  | mk outcome names₃ =>
    rw [prepare, hrun] at h
    cases h
    obtain ⟨first, names₁, hfirst, hrun⟩ := exists_of_run_bind hrun
    obtain ⟨second, names₂, hsecond, hrun⟩ := exists_of_run_bind hrun
    obtain ⟨lifted, hlifted, rfl⟩ := Prepared.exists_of_through hfirst
    obtain ⟨cleared, hcleared, rfl⟩ := Prepared.exists_of_through hsecond
    obtain ⟨bound, hbound, rfl⟩ := Prepared.exists_of_through hrun
    exact ⟨lifted, cleared, bound, names₁, names₂, names₃, hlifted, hcleared, hbound, rfl⟩

/-- A preparation fails because one of its passes does. -/
theorem pass_error_of_prepare {template : List Char} {e : CompileError}
    (h : prepare template = .error e) : ∃ given names names',
      (∃ pass : BlockPass, (pass.extract given).run names = (.error e, names')) ∨
        (bindGenerators given).run names = (.error e, names') := by
  cases hrun : (prepareWith template).run [] with
  | mk outcome names =>
    rw [prepare, hrun] at h
    cases h
    obtain hrun | ⟨lifted, middle, -, hrun⟩ := exists_of_run_bind_error hrun
    · exact ⟨_, _, _, .inl ⟨.within, Prepared.error_of_through hrun⟩⟩
    · obtain hrun | ⟨cleared, last, -, hrun⟩ := exists_of_run_bind_error hrun
      · exact ⟨_, _, _, .inl ⟨.around, Prepared.error_of_through hrun⟩⟩
      · exact ⟨_, _, _, .inr (Prepared.error_of_through hrun)⟩

end MustacheJsx
