import MustacheJsx.Proofs.Outcome
import MustacheJsx.Proofs.Printing.Lifting
import MustacheJsx.Proofs.Reading.Unbraced

/-!
# What lifting never takes back

Whatever the source, lifting goes forward: a tag that was stored stays, under its number; a number
that was noted as written without quotes stays noted, and none is noted later; markup that ends with
no blank stays. `Lifting.Grows` says so of two states, and `Lifting.run_grows` of a whole run.
-/

namespace MustacheJsx.Lifting

structure Grows (st st' : Lifting) : Prop where
  placeholders : st.placeholders <:+ st'.placeholders
  unquoted : ∃ noted, st'.unquoted = noted ++ st.unquoted ∧
    ∀ index ∈ noted, st.placeholders.length ≤ index ∧ index < st'.placeholders.length
  /-- A `~` only drops blanks. -/
  markup : ∀ c cs, Text.isBlank c = false → c :: cs <:+ st.markup → c :: cs <:+ st'.markup

variable {marker : Char} {st st' st'' : Lifting}

theorem Grows.refl (st : Lifting) : Grows st st :=
  ⟨List.suffix_refl _, ⟨[], rfl, nofun⟩, fun _ _ _ h => h⟩

theorem Grows.trans (h : Grows st st') (h' : Grows st' st'') : Grows st st'' := by
  obtain ⟨noted, hnoted, hbound⟩ := h.unquoted
  obtain ⟨noted', hnoted', hbound'⟩ := h'.unquoted
  have hle := h.placeholders.length_le
  have hle' := h'.placeholders.length_le
  refine ⟨h.placeholders.trans h'.placeholders, ⟨noted' ++ noted, ?_, fun index hmem => ?_⟩,
    fun c cs hc hcs => h'.markup c cs hc (h.markup c cs hc hcs)⟩
  · rw [hnoted', hnoted, List.append_assoc]
  · rcases List.mem_append.1 hmem with hmem | hmem
    · have hindex := hbound' index hmem
      omega
    · have hindex := hbound index hmem
      omega

/-! ### Steps -/

/-- Markup is added, and at most one tag is stored. -/
structure Writes (st st' : Lifting) : Prop where
  markup : ∃ cs, st'.markup = cs ++ st.markup
  stored : st'.placeholders = st.placeholders ∧ st'.unquoted = st.unquoted ∨
    ∃ placeholder, st'.placeholders = placeholder :: st.placeholders ∧
      (st'.unquoted = st.unquoted ∨ st'.unquoted = st.placeholders.length :: st.unquoted)

theorem Writes.of_markup {cs : List Char} (hmarkup : st'.markup = cs ++ st.markup)
    (hplaceholders : st'.placeholders = st.placeholders) (hunquoted : st'.unquoted = st.unquoted) :
    Writes st st' :=
  ⟨⟨cs, hmarkup⟩, .inl ⟨hplaceholders, hunquoted⟩⟩

theorem Writes.of_store {placeholder : Placeholder} {cs : List Char}
    (hmarkup : st'.markup = cs ++ st.markup)
    (hplaceholders : st'.placeholders = placeholder :: st.placeholders)
    (hunquoted : st'.unquoted = st.unquoted ∨
      st'.unquoted = st.placeholders.length :: st.unquoted) : Writes st st' :=
  ⟨⟨cs, hmarkup⟩, .inr ⟨placeholder, hplaceholders, hunquoted⟩⟩

theorem Writes.grows (h : Writes st st') : Grows st st' := by
  obtain ⟨⟨added, hmarkup⟩, hstored⟩ := h
  have hkept : ∀ c cs, Text.isBlank c = false → c :: cs <:+ st.markup → c :: cs <:+ st'.markup := by
    intro c cs _ hcs
    rw [hmarkup]
    exact hcs.trans (List.suffix_append _ _)
  rcases hstored with ⟨hplaceholders, hunquoted⟩ | ⟨placeholder, hplaceholders, hunquoted⟩
  · exact ⟨hplaceholders ▸ List.suffix_refl _, ⟨[], hunquoted, nofun⟩, hkept⟩
  · refine ⟨hplaceholders ▸ List.suffix_cons _ _, ?_, hkept⟩
    rcases hunquoted with hunquoted | hunquoted
    · exact ⟨[], hunquoted, nofun⟩
    · refine ⟨[st.placeholders.length], hunquoted, fun index hmem => ?_⟩
      cases List.mem_singleton.1 hmem
      rw [hplaceholders]
      exact ⟨Nat.le_refl _, Nat.lt_succ_self _⟩

theorem Writes.length_le (h : Writes st st') :
    st'.placeholders.length ≤ st.placeholders.length + 1 := by
  rcases h.stored with ⟨hplaceholders, -⟩ | ⟨placeholder, hplaceholders, -⟩
  · rw [hplaceholders]
    exact Nat.le_succ _
  · rw [hplaceholders]
    exact Nat.le_refl _

theorem writeInText_writes {tag : Tag} (h : st.writeInText marker tag = .ok st') :
    Writes st st' := by
  rw [writeInText.eq_def] at h
  split at h
  · cases h
    exact .of_store rfl rfl (.inl rfl)
  · cases h
    exact .of_store rfl rfl (.inl rfl)
  · cases h
    exact .of_store rfl rfl (.inl rfl)
  · cases h
    exact .of_store rfl rfl (.inl rfl)
  · split at h
    · cases h
    · split at h <;> cases h
      · exact .of_store rfl rfl (.inl rfl)
      · exact .of_markup rfl rfl rfl
  · split at h
    · cases h
    · split at h <;> cases h
      exact .of_markup rfl rfl rfl

theorem writeInTag_writes {open_ : OpenTag} {tag : Tag}
    (h : st.writeInTag marker open_ tag = .ok st') : Writes st st' := by
  rw [writeInTag.eq_def] at h
  split at h
  · cases h
    exact .of_markup (List.nil_append _).symm rfl rfl
  · split at h
    · cases h
      exact .of_store rfl rfl (.inr rfl)
    · cases h
    · cases h
      exact .of_store rfl rfl (.inl rfl)
  · cases h
  · cases h

theorem setNext_grows (st : Lifting) (next : Nat) : Grows st { st with next } :=
  ⟨List.suffix_refl _, ⟨[], rfl, nofun⟩, fun _ _ _ h => h⟩

theorem dropBlanks_grows (st : Lifting) :
    Grows st { st with markup := st.markup.dropWhile Text.isBlank } := by
  refine ⟨List.suffix_refl _, ⟨[], rfl, nofun⟩, fun c cs hc hcs => ?_⟩
  obtain ⟨before, hbefore⟩ := hcs
  have hkept : (c :: cs).dropWhile Text.isBlank = c :: cs :=
    List.dropWhile_cons_of_neg (Bool.eq_false_iff.1 hc)
  have hdrop : st.markup.dropWhile Text.isBlank =
      (before ++ c :: cs).dropWhile Text.isBlank := by rw [hbefore]
  rw [List.dropWhile_append, hkept] at hdrop
  show c :: cs <:+ st.markup.dropWhile Text.isBlank
  rw [hdrop]
  split
  · exact List.suffix_refl _
  · exact List.suffix_append _ _

/-- What a mustache does: its span is cut out and read as a tag, which is written where the reader
is. -/
theorem stepMustache_cases {cs : List Char} {offset count : Nat}
    (h : stepMustache marker st cs offset = .ok (st', count)) :
    ∃ span tag next, Span.read cs = .ok span ∧
      Tag.read span.content span.trusting (offset + span.lead) st.next = (.ok tag, next) ∧
      (st.tag = none →
        let markup := if span.stripLeft then st.markup.dropWhile Text.isBlank else st.markup
        let rest := if span.stripRight then Text.trimStart span.rest else span.rest
        writeInText marker { st with next, markup } tag = .ok st' ∧
          count = cs.length - rest.length) ∧
      ∀ open_, st.tag = some open_ → writeInTag marker { st with next } open_ tag = .ok st' ∧
        count = cs.length - span.rest.length := by
  rw [stepMustache] at h
  obtain ⟨span, hspan, h⟩ := bind_eq_ok h
  dsimp only at h
  obtain ⟨tag, htag, h⟩ := bind_eq_ok h
  refine ⟨span, tag, _, mapError_eq_ok hspan, Prod.ext htag rfl, fun hnone => ?_,
    fun open_ hopen => ?_⟩
  · rw [hnone] at h ⊢
    obtain ⟨written, hwritten, h⟩ := bind_eq_ok h
    cases h
    refine ⟨mapError_eq_ok hwritten, ?_⟩
    rw [Option.isNone_none, Bool.and_true]
  · rw [hopen] at h ⊢
    obtain ⟨written, hwritten, h⟩ := bind_eq_ok h
    cases h
    refine ⟨mapError_eq_ok hwritten, ?_⟩
    rw [Option.isNone_some, Bool.and_false]
    rfl

theorem step_writes {c : Char} {cs : List Char} {offset count : Nat}
    (h : step marker st c cs offset = .ok (st', count)) :
    ∃ middle, Grows st middle ∧ middle.placeholders = st.placeholders ∧ Writes middle st' := by
  rw [step.eq_def] at h
  split at h
  · cases h
    exact ⟨st, .refl st, rfl, .of_markup rfl rfl rfl⟩
  · obtain ⟨span, tag, next, -, -, htext, hopened⟩ := stepMustache_cases h
    cases hopen : st.tag with
    | none =>
      have hwrites := writeInText_writes (htext hopen).1
      split at hwrites
      · exact ⟨_, (setNext_grows st next).trans (dropBlanks_grows { st with next }), rfl, hwrites⟩
      · exact ⟨{ st with next }, setNext_grows st next, rfl, hwrites⟩
    | some open_ =>
      exact ⟨{ st with next }, setNext_grows st next, rfl,
        writeInTag_writes (hopened open_ hopen).1⟩
  · have hplain : st.stepPlain c cs = (st', count) := by
      rw [stepPlain]
      cases hopen : st.tag with
      | none =>
        rw [hopen] at h
        exact Except.ok.inj h
      | some open_ =>
        rw [hopen] at h
        exact Except.ok.inj h
    obtain ⟨written, tag, heq⟩ := stepPlain_eq st c cs
    rw [hplain] at heq
    dsimp only at heq
    rw [heq]
    exact ⟨st, .refl st, rfl, .of_markup rfl rfl rfl⟩

theorem step_grows {c : Char} {cs : List Char} {offset count : Nat}
    (h : step marker st c cs offset = .ok (st', count)) : Grows st st' := by
  obtain ⟨middle, hgrows, -, hwrites⟩ := step_writes h
  exact hgrows.trans hwrites.grows

/-! ### Runs -/

theorem run_grows {cs : List Char} {offset skip : Nat}
    (h : run marker offset skip st cs = .ok st') : Grows st st' := by
  induction cs generalizing offset skip st with
  | nil =>
    cases h
    exact .refl st'
  | cons c cs ih =>
    cases skip with
    | succ skip => exact ih h
    | zero =>
      rw [run] at h
      split at h
      · next hstep => exact (step_grows hstep).trans (ih h)
      · cases h

/-- Every tag takes up characters of the source. -/
theorem run_length_le {cs : List Char} {offset skip : Nat}
    (h : run marker offset skip st cs = .ok st') :
    st'.placeholders.length ≤ st.placeholders.length + cs.length := by
  induction cs generalizing offset skip st with
  | nil =>
    cases h
    exact Nat.le_refl _
  | cons c cs ih =>
    rw [List.length_cons]
    cases skip with
    | succ skip =>
      have hrest := ih h
      omega
    | zero =>
      rw [run] at h
      split at h
      · next hstep =>
        obtain ⟨middle, -, hsame, hwrites⟩ := step_writes hstep
        have hfirst := hwrites.length_le
        have hrest := ih h
        rw [hsame] at hfirst
        omega
      · cases h

end MustacheJsx.Lifting
