import MustacheJsx.Proofs.Mustache.Ends
import MustacheJsx.Proofs.Opening.Growth

/-!
# Lifting step by step

`Lifting.steps` are the steps of a run, each with the text that it reads and the states before and
after it. What holds of a run is shown by induction along them: `Lifting.run_induction`. The opening
tags that lifting goes through are read off its steps.
-/

namespace MustacheJsx

/-- Where in an attribute a character outside quotes leads from `position`. -/
def ValuePosition.after (c : Char) : ValuePosition → ValuePosition
  | .afterEquals =>
    if c = '"' ∨ c = '\'' then .quoted c
    else if c = '=' ∨ Text.isBlank c then .afterEquals
    else .unquoted
  | .unquoted => if c = '=' then .afterEquals else if Text.isBlank c then .none else .unquoted
  | position => if c = '=' then .afterEquals else position

namespace Lifting

/-! ### Steps -/

/-- A step of lifting. -/
structure Step where
  /-- The bytes of the template before it. -/
  offset : Nat
  /-- What it reads. -/
  text : List Char
  /-- What is left of the template after it. -/
  rest : List Char
  before : Lifting
  after : Lifting

def Step.source (s : Step) : List Char := s.text ++ s.rest

def steps (marker : Char) (offset skip : Nat) (st : Lifting) : List Char → List Step
  | [] => []
  | c :: cs =>
    match skip with
    | skip + 1 => steps marker (offset + c.utf8Size) skip st cs
    | 0 =>
      match step marker st c cs offset with
      | .ok (after, count) =>
        { offset
          text := (c :: cs).take count
          rest := (c :: cs).drop count
          before := st
          after } ::
          steps marker (offset + c.utf8Size) (count - 1) after cs
      | .error _ => []

/-- The steps of lifting the tags out of a template. -/
def stepsOf (source : List Char) : List Step :=
  match freeMarker? source with
  | none => []
  | some marker => steps marker 0 0 {} source

/-! ### The opening tags that lifting goes through -/

/-- The mustache that a step reads inside the tag that begins at `start`. -/
def Step.mustache? (s : Step) (start : Nat) : Option TagMustache :=
  if Text.startsWith ['{', '{'] s.source then
    some
      { start := s.offset - start
        text := s.text
        inValue := s.before.tag.any fun open_ => open_.position ≠ .none }
  else none

def Step.begun (s : Step) : OpeningTag := { start := s.offset, text := s.text, mustaches := [] }

def Step.extend (s : Step) (opened : OpeningTag) : OpeningTag :=
  { opened with
    text := opened.text ++ s.text
    mustaches := opened.mustaches ++ (s.mustache? opened.start).toList }

/-- The tags that are ended by steps, of which `opened` is the first if lifting is inside it. -/
def tagsAlong : Option OpeningTag → List Step → List OpeningTag
  | _, [] => []
  | none, s :: ss => tagsAlong (s.after.tag.map fun _ => s.begun) ss
  | some opened, s :: ss =>
    match s.after.tag with
    | some _ => tagsAlong (some (s.extend opened)) ss
    | none => s.extend opened :: tagsAlong none ss

/-- The opening tags that lifting goes through. One that is still open at the end is left out. -/
def openingTags (source : List Char) : List OpeningTag := tagsAlong none (stepsOf source)

/-! ### One step at a time -/

variable {marker : Char} {offset : Nat} {st st' final : Lifting}

theorem steps_append (text rest : List Char) :
    steps marker offset text.length st (text ++ rest) =
      steps marker (offset + Text.utf8Length text) 0 st rest := by
  induction text generalizing offset with
  | nil => rfl
  | cons c cs ih =>
    rw [List.length_cons, List.cons_append, steps, ih, Text.utf8Length, Nat.add_assoc]

theorem run_append (text rest : List Char) :
    run marker offset text.length st (text ++ rest) =
      run marker (offset + Text.utf8Length text) 0 st rest := by
  induction text generalizing offset with
  | nil => rfl
  | cons c cs ih =>
    rw [List.length_cons, List.cons_append, run, ih, Text.utf8Length, Nat.add_assoc]

theorem stepPlain_count (st : Lifting) (c : Char) (cs : List Char) :
    0 < (st.stepPlain c cs).2 ∧ (st.stepPlain c cs).2 ≤ cs.length + 1 := by
  rw [stepPlain]
  split
  · obtain ⟨before, after, heq, hstep⟩ | hstep | ⟨-, hstep⟩ | hstep := stepText_cases st c cs
    · have hlength := congrArg List.length heq
      simp only [List.length_cons, List.length_append, String.length_toList] at hlength
      change cs.length + 1 = before.length + 3 + after.length at hlength
      rw [hstep]
      exact ⟨Nat.succ_pos _, by omega⟩
    · rw [hstep]
      exact ⟨Nat.succ_pos _, Nat.le_refl _⟩
    · rw [hstep]
      exact ⟨Nat.succ_pos _, Nat.succ_le_succ (List.takeWhile_prefix _).length_le⟩
    · rw [hstep]
      exact ⟨Nat.one_pos, Nat.succ_le_succ (Nat.zero_le _)⟩
  · next open_ _ =>
    obtain ⟨_, hstep⟩ | ⟨rest, heq, hstep⟩ | ⟨-, hstep⟩ | hstep := stepTag_cases st open_ c cs
    · rw [hstep]
      exact ⟨Nat.one_pos, Nat.succ_le_succ (Nat.zero_le _)⟩
    · cases heq
      rw [hstep]
      exact ⟨Nat.two_pos, Nat.succ_le_succ (Nat.succ_le_succ (Nat.zero_le _))⟩
    · rw [hstep]
      exact ⟨Nat.one_pos, Nat.succ_le_succ (Nat.zero_le _)⟩
    · rw [hstep]
      exact ⟨Nat.one_pos, Nat.succ_le_succ (Nat.zero_le _)⟩

theorem length_rest_le {body : List Char} {span : Span}
    (h : Span.read ('{' :: '{' :: body) = .ok span) : span.rest.length ≤ body.length := by
  have hrest : Span.restOf? ('{' :: '{' :: body) = some span.rest := by
    rw [Span.restOf?, h]
    rfl
  exact ((Span.suffix_of_restOf? hrest).trans (drop_bracesOf_suffix body)).length_le

theorem step_count {c : Char} {cs : List Char} {count : Nat}
    (h : step marker st c cs offset = .ok (st', count)) : 0 < count ∧ count ≤ cs.length + 1 := by
  by_cases hplain : BeginsTag (c :: cs)
  · rw [step.eq_def] at h
    split at h
    · cases h
      exact ⟨Nat.succ_pos _, by simp⟩
    · next body =>
      obtain ⟨span, tag, next, hspan, -, htext, htag⟩ := stepMustache_cases h
      have hle := length_rest_le hspan
      have htrim := Text.length_trimStart_le span.rest
      cases hopen : st.tag with
      | some open_ =>
        rw [(htag open_ hopen).2]
        simp only [List.length_cons]
        omega
      | none =>
        rw [(htext hopen).2]
        simp only [List.length_cons]
        split <;> omega
    · next hescape hbraces =>
      rcases hplain with ⟨rest, heq⟩ | ⟨rest, heq⟩
      · cases heq
        exact absurd rfl (hbraces rest rfl)
      · cases heq
        exact absurd rfl (hescape rest rfl)
  · rw [step_of_not_beginsTag hplain] at h
    have hcount := stepPlain_count st c cs
    rw [Except.ok.inj h] at hcount
    exact hcount

/-- A step that lifting may take. -/
def Step.IsStep (marker : Char) (s : Step) : Prop :=
  ∃ c cs, s.source = c :: cs ∧
    step marker s.before c cs s.offset = .ok (s.after, s.text.length)

theorem exists_step {c : Char} {cs : List Char}
    (h : run marker offset 0 st (c :: cs) = .ok final) :
    ∃ s : Step, s.IsStep marker ∧ s.offset = offset ∧ s.before = st ∧ s.source = c :: cs ∧
      run marker (offset + Text.utf8Length s.text) 0 s.after s.rest = .ok final ∧
      steps marker offset 0 st (c :: cs) =
        s :: steps marker (offset + Text.utf8Length s.text) 0 s.after s.rest := by
  rw [run] at h
  split at h
  · next after count hstep =>
    obtain ⟨hpos, hle⟩ := step_count hstep
    obtain ⟨count, rfl⟩ := Nat.exists_eq_succ_of_ne_zero (Nat.pos_iff_ne_zero.1 hpos)
    have hlength : (cs.take count).length = count :=
      List.length_take_of_le (Nat.le_of_succ_le_succ hle)
    have hsplit := List.take_append_drop count cs
    refine ⟨{ offset, text := c :: cs.take count, rest := cs.drop count, before := st, after },
      ⟨c, cs, ?_, ?_⟩, rfl, rfl, ?_, ?_, ?_⟩
    · rw [Step.source, List.cons_append, hsplit]
    · rw [hstep, List.length_cons, hlength]
    · rw [Step.source, List.cons_append, hsplit]
    · rw [Text.utf8Length, ← Nat.add_assoc, ← run_append, hlength, hsplit]
      exact h
    · have hlater :=
        @steps_append marker (offset + c.utf8Size) after (cs.take count) (cs.drop count)
      rw [hlength, hsplit] at hlater
      rw [steps, hstep, Text.utf8Length, ← Nat.add_assoc, ← hlater]
      rfl
  · cases h

/-- What holds at the end of a template and is kept, from back to front, by every step holds along a
run that succeeds. -/
theorem run_induction {motive : Nat → Lifting → List Char → List Step → Prop}
    (done : ∀ offset st, motive offset st [] [])
    (step : ∀ (s : Step) (ss : List Step), s.IsStep marker →
      motive (s.offset + Text.utf8Length s.text) s.after s.rest ss →
      motive s.offset s.before s.source (s :: ss))
    (cs : List Char) (offset : Nat) (st : Lifting)
    (h : run marker offset 0 st cs = .ok final) :
    motive offset st cs (steps marker offset 0 st cs) := by
  -- A step may take up more than one character, so the induction is on what is left.
  induction hn : cs.length using Nat.strong_induction_on generalizing cs offset st with
  | _ n ih =>
    cases cs with
    | nil => exact done offset st
    | cons c cs =>
      obtain ⟨s, hs, rfl, rfl, hsource, hrun, hsteps⟩ := exists_step h
      rw [hsteps, ← hsource]
      refine step s _ hs (ih s.rest.length ?_ s.rest _ s.after hrun rfl)
      obtain ⟨d, ds, heq, hstep⟩ := hs
      have hpos := (step_count hstep).1
      have hlength := congrArg List.length hsource
      rw [Step.source, List.length_append] at hlength
      omega

/-! ### The tag that lifting is in -/

variable {open_ : OpenTag}

theorem tag_of_writeInText {st st' : Lifting} {tag : Tag}
    (h : st.writeInText marker tag = .ok st') : st'.tag = st.tag := by
  rw [writeInText.eq_def] at h
  split at h
  · cases h
    rfl
  · cases h
    rfl
  · cases h
    rfl
  · cases h
    rfl
  · split at h
    · cases h
    · split at h <;> cases h <;> rfl
  · split at h
    · cases h
    · split at h <;> cases h
      rfl

/-- A mustache in a tag is a comment, or a value that does not stand between attributes. -/
theorem position_of_writeInTag {marker : Char} {st st' : Lifting} {open_ : OpenTag} {tag : Tag}
    (htag : st.tag = some open_) (h : st.writeInTag marker open_ tag = .ok st') :
    ∃ next, st'.tag = some next ∧
      (next.position = open_.position ∨
        open_.position = .afterEquals ∧ next.position = .none) := by
  rw [writeInTag.eq_def] at h
  split at h
  · cases h
    exact ⟨open_, htag, .inl rfl⟩
  · split at h
    · next hposition =>
      cases h
      exact ⟨_, rfl, .inr ⟨hposition, rfl⟩⟩
    · cases h
    · cases h
      exact ⟨open_, htag, .inl rfl⟩
  · cases h
  · cases h

theorem position_after (open_ : OpenTag) (c : Char) :
    (open_.after c).position = open_.position.after c := by
  obtain ⟨name, position, key, cased⟩ := open_
  cases position with
  | none =>
    simp [OpenTag.after, OpenTag.endName, ValuePosition.after, apply_ite OpenTag.position]
  | afterEquals =>
    simp [OpenTag.after, OpenTag.endName, ValuePosition.after, apply_ite OpenTag.position, ite_or]
  | unquoted =>
    simp [OpenTag.after, OpenTag.endName, ValuePosition.after, apply_ite OpenTag.position]
  | quoted q =>
    simp [OpenTag.after, OpenTag.endName, ValuePosition.after, apply_ite OpenTag.position]

theorem stepTag_quoted {q : Char} (st : Lifting) (c : Char) (cs : List Char)
    (h : open_.position = .quoted q) :
    st.stepTag open_ c cs =
      ({ st.write [c] with
          tag := some { open_ with position := if c = q then .none else .quoted q } }, 1) := by
  rw [stepTag.eq_def]
  simp only [h]

theorem stepTag_greater (st : Lifting) (cs : List Char) (h : ∀ q, open_.position ≠ .quoted q) :
    st.stepTag open_ '>' cs =
      ({ st.write (open_.spellings ++ ['>']) with tag := none }, 1) := by
  rw [stepTag.eq_def]
  split
  · next q hq => exact absurd hq (h q)
  · rfl

theorem stepTag_slash (st : Lifting) (cs : List Char) (h : ∀ q, open_.position ≠ .quoted q) :
    st.stepTag open_ '/' ('>' :: cs) =
      ({ st.write (open_.spellings ++ ['/', '>']) with tag := none }, 2) := by
  rw [stepTag.eq_def]
  split
  · next q hq => exact absurd hq (h q)
  · rfl

end Lifting

end MustacheJsx
