import MustacheJsx.Lifted.OfSource
import MustacheJsx.Proofs.Outcome
import MustacheJsx.Proofs.Printing.Pieces

/-!
# Lifting where nothing is to be lifted

Where no two braces stand side by side, no mustache begins, so nothing is lifted out and nothing can
fail. The markup is the source with the spellings of capitals added, and brings in no character but
those of the spellings: `Lifted.ofSource_unbraced`.
-/

namespace MustacheJsx

/-- No mustache begins in the text. -/
def Unbraced (cs : List Char) : Prop := ¬ ['{', '{'] <:+: cs

theorem Unbraced.tail {c : Char} {cs : List Char} (h : Unbraced (c :: cs)) : Unbraced cs :=
  fun hbraces => h (hbraces.trans (List.suffix_cons c cs).isInfix)

instance Unbraced.decide : (cs : List Char) → Decidable (Unbraced cs)
  | [] => isTrue fun h => nomatch List.infix_nil.1 h
  | c :: cs =>
    match Unbraced.decide cs with
    | isFalse hrest => isFalse fun h => hrest h.tail
    | isTrue hrest =>
      decidable_of_iff (¬ ['{', '{'] <+: c :: cs)
        ⟨fun hnot h => (List.infix_cons_iff.1 h).elim hnot hrest, fun h hlead => h hlead.isInfix⟩

/-- A character that lifting never writes of its own in such a source. -/
structure IsForeign (c : Char) : Prop where
  less : c ≠ '<'
  slash : c ≠ '/'
  greater : c ≠ '>'
  blank : c ≠ ' '
  equals : c ≠ '='
  quote : c ≠ '"'
  tag : c ∉ tagSpelling.toList
  attributes : c ∉ attributeSpellings.toList

theorem IsMarker.isForeign {marker : Char} (h : IsMarker marker) : IsForeign marker := by
  have hnot : ∀ cs : List Char, (∀ c ∈ cs, c.toNat < 0xE000) → marker ∉ cs :=
    fun cs hcs hmem => h.ne (hcs marker hmem) rfl
  refine ⟨h.ne ?_, h.ne ?_, h.ne ?_, h.ne ?_, h.ne ?_, h.ne ?_, hnot _ ?_, hnot _ ?_⟩ <;> decide

namespace Lifting

def stepPlain (st : Lifting) (c : Char) (cs : List Char) : Lifting × Nat :=
  match st.tag with
  | none => st.stepText c cs
  | some open_ => st.stepTag open_ c cs

variable {marker avoided : Char}

/-- A mustache begins here, or its escape. -/
def BeginsTag (cs : List Char) : Prop := ['{', '{'] <+: cs ∨ ['\\', '{', '{'] <+: cs

theorem step_of_not_beginsTag {c : Char} {cs : List Char} (h : ¬ BeginsTag (c :: cs)) (st : Lifting)
    (offset : Nat) : step marker st c cs offset = .ok (st.stepPlain c cs) := by
  rw [step.eq_def, stepPlain]
  split
  · next rest => exact absurd (.inr ⟨rest, rfl⟩) h
  · next rest => exact absurd (.inl ⟨rest, rfl⟩) h
  · cases st.tag <;> rfl

theorem not_beginsTag_of_unbraced {cs : List Char} (h : Unbraced cs) : ¬ BeginsTag cs := by
  rintro (⟨rest, rfl⟩ | ⟨rest, rfl⟩)
  · exact h ⟨[], rest, rfl⟩
  · exact h ⟨['\\'], rest, rfl⟩

/-- A run keeps whatever each of its steps keeps between the state and the text that is left. -/
theorem exists_run_unbraced {motive : Lifting → List Char → Prop}
    (hstep : ∀ st c cs, motive st (c :: cs) →
      motive (st.stepPlain c cs).1 (cs.drop ((st.stepPlain c cs).2 - 1)))
    {cs : List Char} (h : Unbraced cs) (offset skip : Nat) {st : Lifting}
    (hm : motive st (cs.drop skip)) :
    ∃ st', run marker offset skip st cs = .ok st' ∧ motive st' [] := by
  induction cs generalizing offset skip st with
  | nil =>
    rw [List.drop_nil] at hm
    exact ⟨st, rfl, hm⟩
  | cons c cs ih =>
    cases skip with
    | succ skip => exact ih h.tail _ skip hm
    | zero =>
      rw [run, step_of_not_beginsTag (not_beginsTag_of_unbraced h)]
      exact ih h.tail _ _ (hstep st c cs hm)

/-! ### Nothing is lifted out -/

theorem stepText_cases (st : Lifting) (c : Char) (cs : List Char) :
    (∃ before after, c :: cs = before ++ "-->".toList ++ after ∧
      st.stepText c cs = (st.write (before ++ "-->".toList), before.length + 3)) ∨
    st.stepText c cs = (st.write (c :: cs), cs.length + 1) ∨
    (c = '<' ∧ st.stepText c cs = st.openTag cs) ∨
    st.stepText c cs = (st.write [c], 1) := by
  rw [stepText.eq_def]
  split
  · split
    · next hcut => exact .inl ⟨_, _, Text.eq_append_of_cutAt? hcut, rfl⟩
    · exact .inr (.inl rfl)
  · split
    · exact .inr (.inr (.inl ⟨rfl, rfl⟩))
    · exact .inr (.inr (.inr rfl))
  · exact .inr (.inr (.inr rfl))

theorem stepTag_cases (st : Lifting) (open_ : OpenTag) (c : Char) (cs : List Char) :
    (∃ position, st.stepTag open_ c cs =
      ({ st.write [c] with tag := some { open_ with position } }, 1)) ∨
    (∃ rest, c :: cs = ['/', '>'] ++ rest ∧ st.stepTag open_ c cs =
      ({ st.write (open_.spellings ++ ['/', '>']) with tag := none }, 2)) ∨
    (c = '>' ∧ st.stepTag open_ c cs =
      ({ st.write (open_.spellings ++ ['>']) with tag := none }, 1)) ∨
    st.stepTag open_ c cs = ({ st.write [c] with tag := some (open_.after c) }, 1) := by
  rw [stepTag.eq_def]
  split
  · exact .inl ⟨_, rfl⟩
  · split
    · exact .inr (.inl ⟨_, rfl, rfl⟩)
    · exact .inr (.inr (.inl ⟨rfl, rfl⟩))
    · exact .inr (.inr (.inr rfl))

theorem stepPlain_eq (st : Lifting) (c : Char) (cs : List Char) :
    ∃ written tag, (st.stepPlain c cs).1 = { st.write written with tag } := by
  rw [stepPlain]
  split
  · obtain ⟨_, _, -, h⟩ | h | ⟨-, h⟩ | h := stepText_cases st c cs <;>
      exact ⟨_, _, congrArg Prod.fst h⟩
  · next open_ _ =>
    obtain ⟨_, h⟩ | ⟨_, -, h⟩ | ⟨-, h⟩ | h := stepTag_cases st open_ c cs <;>
      exact ⟨_, _, congrArg Prod.fst h⟩

/-! ### No other character is written -/

/-- A character stands nowhere in what has been written or is remembered. -/
structure Avoids (avoided : Char) (st : Lifting) : Prop where
  markup : avoided ∉ st.markup
  name : ∀ open_ ∈ st.tag, avoided ∉ open_.name
  key : ∀ open_ ∈ st.tag, avoided ∉ open_.key
  cased : ∀ open_ ∈ st.tag, ∀ name ∈ open_.cased, avoided ∉ name

theorem Avoids.write {st : Lifting} (h : Avoids avoided st) {cs : List Char} (hcs : avoided ∉ cs) :
    Avoids avoided (st.write cs) :=
  ⟨by simp [Lifting.write, hcs, h.markup], h.name, h.key, h.cased⟩

theorem Avoids.setTag {st : Lifting} (h : Avoids avoided st) {tag : Option OpenTag}
    (htag : ∀ open_ ∈ tag, avoided ∉ open_.name ∧ avoided ∉ open_.key ∧
      ∀ name ∈ open_.cased, avoided ∉ name) : Avoids avoided { st with tag } :=
  ⟨h.markup, fun o ho => (htag o ho).1, fun o ho => (htag o ho).2.1, fun o ho => (htag o ho).2.2⟩

theorem mem_joinWith {sep c : Char} {pieces : List (List Char)}
    (h : c ∈ Text.joinWith sep pieces) : c = sep ∨ ∃ piece ∈ pieces, c ∈ piece := by
  induction pieces with
  | nil => cases h
  | cons piece pieces ih =>
    cases pieces with
    | nil => exact .inr ⟨piece, List.mem_cons_self, h⟩
    | cons next pieces =>
      rw [Text.joinWith] at h
      · rcases List.mem_append.1 h with h | h
        · exact .inr ⟨piece, List.mem_cons_self, h⟩
        · rcases List.mem_cons.1 h with rfl | h
          · exact .inl rfl
          · rcases ih h with rfl | ⟨found, hfound, h⟩
            · exact .inl rfl
            · exact .inr ⟨found, List.mem_cons_of_mem _ hfound, h⟩
      · simp

section

variable (hforeign : IsForeign avoided) {open_ : OpenTag}

theorem not_mem_cased_endName (hkey : avoided ∉ open_.key)
    (hcased : ∀ name ∈ open_.cased, avoided ∉ name) :
    ∀ name ∈ open_.endName.cased, avoided ∉ name := by
  intro name hname
  rw [OpenTag.endName] at hname
  dsimp only at hname
  split at hname
  · rcases List.mem_cons.1 hname with rfl | hname
    · simpa using hkey
    · exact hcased name hname
  · exact hcased name hname

include hforeign in
theorem not_mem_spellings (hkey : avoided ∉ open_.key)
    (hcased : ∀ name ∈ open_.cased, avoided ∉ name) : avoided ∉ open_.spellings := by
  have hnames : avoided ∉ Text.joinWith ' ' open_.endName.cased.reverse := by
    intro hmem
    rcases mem_joinWith hmem with rfl | ⟨name, hname, hmem⟩
    · exact hforeign.blank rfl
    · exact not_mem_cased_endName hkey hcased name (List.mem_reverse.1 hname) hmem
  show avoided ∉ if open_.endName.cased.reverse.isEmpty then [] else _
  split
  · exact List.not_mem_nil
  · simp [hforeign.attributes, hnames, hforeign.blank, hforeign.equals, hforeign.quote]

theorem avoids_after {c : Char} (hc : c ≠ avoided) (hname : avoided ∉ open_.name)
    (hkey : avoided ∉ open_.key) (hcased : ∀ name ∈ open_.cased, avoided ∉ name) :
    avoided ∉ (open_.after c).name ∧ avoided ∉ (open_.after c).key ∧
      ∀ name ∈ (open_.after c).cased, avoided ∉ name := by
  have hend := not_mem_cased_endName hkey hcased
  have hnil : avoided ∉ open_.endName.key := List.not_mem_nil
  rw [OpenTag.after]
  split
  · exact ⟨hname, hkey, hcased⟩
  · split
    · exact ⟨hname, hnil, hend⟩
    · split
      · split
        · exact ⟨hname, hkey, hcased⟩
        · exact ⟨hname, hnil, hend⟩
        · exact ⟨hname, hkey, hcased⟩
      · split
        · exact ⟨hname, hnil, hend⟩
        · split
          · exact ⟨hname, hkey, hcased⟩
          · exact ⟨hname, by simp [hkey, hc.symm], hcased⟩
          · exact ⟨hname, hkey, hcased⟩

end

theorem Avoids.openTag (hforeign : IsForeign avoided) {st : Lifting} (h : Avoids avoided st)
    {cs : List Char} (hcs : avoided ∉ cs) : Avoids avoided (st.openTag cs).1 := by
  have hname : avoided ∉ cs.takeWhile fun c => !endsTagName c :=
    fun hmem => hcs ((List.takeWhile_prefix _).subset hmem)
  refine (h.write ?_).setTag ?_
  · split <;> simp [hname, hforeign.tag, hforeign.less, hforeign.blank, hforeign.equals,
      hforeign.quote]
  · rintro open_ ⟨⟩
    exact ⟨hname, by simp, by simp⟩

theorem Avoids.stepPlain (hforeign : IsForeign avoided) {st : Lifting} (h : Avoids avoided st)
    {c : Char} {cs : List Char} (hcs : avoided ∉ c :: cs) :
    Avoids avoided (st.stepPlain c cs).1 := by
  have hne : c ≠ avoided := fun heq => hcs (by simp [heq])
  have hc : avoided ∉ [c] := by simpa using hne.symm
  have hrest : avoided ∉ cs := fun hmem => hcs (List.mem_cons_of_mem _ hmem)
  rw [Lifting.stepPlain]
  split
  · obtain ⟨before, after, heq, hstep⟩ | hstep | ⟨-, hstep⟩ | hstep := stepText_cases st c cs
    · rw [hstep]
      rw [heq] at hcs
      exact h.write fun hmem => hcs (List.mem_append_left _ hmem)
    · rw [hstep]
      exact h.write hcs
    · rw [hstep]
      exact h.openTag hforeign hrest
    · rw [hstep]
      exact h.write hc
  · next open_ htag =>
    have hname := h.name open_ htag
    have hkey := h.key open_ htag
    have hcased := h.cased open_ htag
    have hspellings := not_mem_spellings hforeign hkey hcased
    obtain ⟨position, hstep⟩ | ⟨rest, -, hstep⟩ | ⟨-, hstep⟩ | hstep :=
      stepTag_cases st open_ c cs
    · rw [hstep]
      refine (h.write hc).setTag ?_
      rintro _ ⟨⟩
      exact ⟨hname, hkey, hcased⟩
    · rw [hstep]
      refine (h.write ?_).setTag nofun
      simp [hspellings, hforeign.slash, hforeign.greater]
    · rw [hstep]
      refine (h.write ?_).setTag nofun
      simp [hspellings, hforeign.greater]
    · rw [hstep]
      refine (h.write hc).setTag ?_
      rintro _ ⟨⟩
      exact avoids_after hne hname hkey hcased

/-! ### Without capitals the source is copied -/

/-- The state has copied what it has read, and no name of the open tag has a capital. -/
structure Copies (source : List Char) (st : Lifting) (rest : List Char) : Prop where
  markup : st.markup.reverse ++ rest = source
  key : ∀ open_ ∈ st.tag, ∀ c ∈ open_.key, Text.isAsciiUpper c = false
  cased : ∀ open_ ∈ st.tag, open_.cased = []

theorem spellings_eq_nil {open_ : OpenTag} (hkey : ∀ c ∈ open_.key, Text.isAsciiUpper c = false)
    (hcased : open_.cased = []) : open_.endName.cased = [] ∧ open_.spellings = [] := by
  have hany : open_.key.reverse.any Text.isAsciiUpper = false := by
    rw [List.any_eq_false]
    intro c hc
    simpa using hkey c (List.mem_reverse.1 hc)
  have hend : open_.endName.cased = [] := by simp [OpenTag.endName, hany, hcased]
  exact ⟨hend, by simp [OpenTag.spellings, hend]⟩

theorem copies_after {c : Char} {open_ : OpenTag} (hc : Text.isAsciiUpper c = false)
    (hkey : ∀ c ∈ open_.key, Text.isAsciiUpper c = false) (hcased : open_.cased = []) :
    (∀ d ∈ (open_.after c).key, Text.isAsciiUpper d = false) ∧ (open_.after c).cased = [] := by
  have hend := (spellings_eq_nil hkey hcased).1
  have hnil : ∀ d ∈ open_.endName.key, Text.isAsciiUpper d = false := nofun
  rw [OpenTag.after]
  split
  · exact ⟨hkey, hcased⟩
  · split
    · exact ⟨hnil, hend⟩
    · split
      · split
        · exact ⟨hkey, hcased⟩
        · exact ⟨hnil, hend⟩
        · exact ⟨hkey, hcased⟩
      · split
        · exact ⟨hnil, hend⟩
        · split
          · exact ⟨hkey, hcased⟩
          · exact ⟨List.forall_mem_cons.2 ⟨hc, hkey⟩, hcased⟩
          · exact ⟨hkey, hcased⟩

theorem Copies.write {source cs rest : List Char} {st : Lifting}
    (h : Copies source st (cs ++ rest)) : Copies source (st.write cs) rest :=
  ⟨by simp [Lifting.write, ← h.markup], h.key, h.cased⟩

theorem Copies.setTag {source rest : List Char} {st : Lifting} (h : Copies source st rest)
    {tag : Option OpenTag} (htag : ∀ open_ ∈ tag,
      (∀ c ∈ open_.key, Text.isAsciiUpper c = false) ∧ open_.cased = []) :
    Copies source { st with tag } rest :=
  ⟨h.markup, fun o ho => (htag o ho).1, fun o ho => (htag o ho).2⟩

theorem Copies.write_drop {source cs xs ys : List Char} {c : Char} {st : Lifting}
    (h : Copies source st (c :: cs)) (heq : c :: cs = xs ++ ys) {count : Nat}
    (hcount : xs.length = count + 1) : Copies source (st.write xs) (cs.drop count) := by
  have hdrop := congrArg (List.drop (count + 1)) heq
  rw [List.drop_succ_cons, ← hcount, List.drop_left] at hdrop
  rw [hdrop]
  rw [heq] at h
  exact h.write

theorem Copies.openTag {source cs : List Char} {st : Lifting}
    (hcs : ∀ d ∈ cs, Text.isAsciiUpper d = false) (h : Copies source st ('<' :: cs)) :
    Copies source (st.openTag cs).1 (cs.drop ((st.openTag cs).2 - 1)) := by
  have hsplit := List.takeWhile_append_dropWhile (p := fun c => !endsTagName c) (l := cs)
  have hupper : (cs.takeWhile fun c => !endsTagName c).any Text.isAsciiUpper = false := by
    rw [List.any_eq_false]
    intro d hd
    simpa using hcs d ((List.takeWhile_prefix _).subset hd)
  rw [Lifting.openTag]
  dsimp only
  rw [hupper, if_neg Bool.false_ne_true, List.append_nil]
  have heq : '<' :: cs = ('<' :: cs.takeWhile fun c => !endsTagName c) ++
      cs.dropWhile fun c => !endsTagName c := by rw [List.cons_append, hsplit]
  refine (h.write_drop heq ?_).setTag ?_
  · simp
  · rintro _ ⟨⟩
    exact ⟨nofun, rfl⟩

theorem Copies.stepPlain {source : List Char} {st : Lifting} {c : Char} {cs : List Char}
    (hcs : ∀ d ∈ c :: cs, Text.isAsciiUpper d = false) (h : Copies source st (c :: cs)) :
    Copies source (st.stepPlain c cs).1 (cs.drop ((st.stepPlain c cs).2 - 1)) := by
  have hone : Copies source (st.write [c]) cs := @Copies.write source [c] cs st h
  rw [Lifting.stepPlain]
  split
  · obtain ⟨before, after, heq, hstep⟩ | hstep | ⟨rfl, hstep⟩ | hstep := stepText_cases st c cs
    · rw [hstep]
      exact h.write_drop heq (by simp)
    · rw [hstep]
      exact h.write_drop (List.append_nil _).symm rfl
    · rw [hstep]
      exact h.openTag fun d hd => hcs d (List.mem_cons_of_mem _ hd)
    · rw [hstep]
      exact hone
  · next open_ htag =>
    have hkey := h.key open_ htag
    have hcased := h.cased open_ htag
    have hspellings := (spellings_eq_nil hkey hcased).2
    obtain ⟨position, hstep⟩ | ⟨rest, heq, hstep⟩ | ⟨rfl, hstep⟩ | hstep :=
      stepTag_cases st open_ c cs
    · rw [hstep]
      refine hone.setTag ?_
      rintro _ ⟨⟩
      exact ⟨hkey, hcased⟩
    · rw [hstep, hspellings]
      exact (h.write_drop heq rfl).setTag nofun
    · rw [hstep, hspellings]
      exact hone.setTag nofun
    · rw [hstep]
      refine hone.setTag ?_
      rintro _ ⟨⟩
      exact copies_after (hcs c List.mem_cons_self) hkey hcased

/-- What holds all along a run over a source without mustaches, of which `rest` is left. -/
structure Idle (source : List Char) (st : Lifting) (rest : List Char) : Prop where
  state : ∃ markup tag, st = { markup, tag }
  avoids : ∀ c, IsForeign c → c ∉ source → Avoids c st ∧ c ∉ rest
  copies : (∀ c ∈ source, Text.isAsciiUpper c = false) →
    (∀ c ∈ rest, Text.isAsciiUpper c = false) ∧ Copies source st rest

theorem Idle.stepPlain {source : List Char} {st : Lifting} {c : Char}
    {cs : List Char} (h : Idle source st (c :: cs)) :
    Idle source (st.stepPlain c cs).1 (cs.drop ((st.stepPlain c cs).2 - 1)) := by
  obtain ⟨⟨markup, tag, rfl⟩, havoids, hcopies⟩ := h
  have hdrop : ∀ count, cs.drop count ⊆ c :: cs :=
    fun _ _ hd => List.mem_cons_of_mem c (List.mem_of_mem_drop hd)
  obtain ⟨written, tag', hstep⟩ := stepPlain_eq { markup, tag } c cs
  refine ⟨⟨written.reverse ++ markup, tag', hstep⟩, fun other hforeign hother => ?_,
    fun hsmall => ?_⟩
  · obtain ⟨hstate, hfree⟩ := havoids other hforeign hother
    exact ⟨hstate.stepPlain hforeign hfree, fun hmem => hfree (hdrop _ hmem)⟩
  · obtain ⟨hrest, hcopied⟩ := hcopies hsmall
    exact ⟨fun d hd => hrest d (hdrop _ hd), hcopied.stepPlain hrest⟩

end Lifting

theorem Lifted.ofSource_unbraced {source : List Char} (h : Unbraced source) {marker : Char}
    (hmarker : freeMarker? source = some marker) :
    ∃ markup, Lifted.ofSource source =
        .ok ({ markup, placeholders := [], unquoted := [], marker }, 0) ∧
      (∀ c, IsForeign c → c ∉ source → c ∉ markup) ∧
      ((∀ c ∈ source, Text.isAsciiUpper c = false) → markup = source) := by
  have hstart : Lifting.Idle source {} (source.drop 0) :=
    ⟨⟨[], none, rfl⟩, fun c _ hc => ⟨⟨by simp, nofun, nofun, nofun⟩, hc⟩,
      fun hsmall => ⟨hsmall, rfl, nofun, nofun⟩⟩
  obtain ⟨st, hrun, ⟨markup, tag, rfl⟩, havoids, hcopies⟩ :=
    Lifting.exists_run_unbraced (fun _ _ _ h => h.stepPlain) h 0 0 hstart
  refine ⟨markup.reverse, ?_, fun c hforeign hc => ?_, fun hsmall => ?_⟩
  · unfold Lifted.ofSource
    rw [hmarker]
    dsimp only
    rw [hrun]
    rfl
  · simpa using (havoids c hforeign hc).1.markup
  · have hmarkup := (hcopies hsmall).2.markup
    rwa [List.append_nil] at hmarkup

end MustacheJsx
