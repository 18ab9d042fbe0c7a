import MustacheJsx.Proofs.Document.Lifting
import MustacheJsx.Proofs.Reading.Unmarked

/-!
# The tokens of a document

The markup of each part is read as it was written: text and the holes of values are added to the
text that is pending, a doctype leaves nothing, and any other part ends the text before it and gives
its token. `Part.GivesAll` says so of a whole document.
-/

namespace MustacheJsx

open Markup (Token)
open Markup.Lexer (textTokens)

theorem IsClosingName.isNamePart {name : List Char} (h : IsClosingName name) :
    ∀ c ∈ name, IsNamePart c := fun c hc => isNamePart_of_isTagNameChar (h.chars.2 c hc)

theorem IsClosingName.not_mem_return {name : List Char} (h : IsClosingName name) :
    '\r' ∉ '<' :: '/' :: name := by
  have hname := Markup.Lexer.not_mem_return_of_isBlank fun c hc => (h.isNamePart c hc).blank
  simp only [List.mem_cons, not_or]
  exact ⟨by decide, by decide, hname⟩

/-! ### What text stands for -/

theorem contentText_false (cs : List Char) :
    contentText false cs = (Markup.Lexer.unifyLineEnds cs).map Markup.Lexer.visible := by
  rw [contentText]
  induction Markup.Lexer.unifyLineEnds cs with
  | nil => rfl
  | cons c cs ih =>
    rw [contentTextAfter, if_neg (fun h => Bool.false_ne_true h.1), ih, List.map_cons]

/-! ### Words -/

/-- A character that stands in a text only where it was written. -/
def isWordChar (c : Char) : Bool := c != '\n' && c != '{' && c != '\ufffd'

/-- A text has no words of such characters that do not stand in what it was made from. -/
structure HasWordsOf (source text : List Char) : Prop where
  start : ∀ word, (∀ c ∈ word, isWordChar c = true) → word <+: text → word <+: source
  inside : ∀ word, (∀ c ∈ word, isWordChar c = true) → word <:+: text → word <:+: source

namespace HasWordsOf

variable {source text other : List Char}

theorem trans (h : HasWordsOf source text) (hnext : HasWordsOf text other) :
    HasWordsOf source other where
  start word hword hstart := h.start word hword (hnext.start word hword hstart)
  inside word hword hinside := h.inside word hword (hnext.inside word hword hinside)

protected theorem nil : HasWordsOf [] [] := ⟨fun _ _ h => h, fun _ _ h => h⟩

theorem cons (h : HasWordsOf source text) (c : Char) : HasWordsOf (c :: source) (c :: text) := by
  have hstart : ∀ word, (∀ d ∈ word, isWordChar d = true) → word <+: c :: text →
      word <+: c :: source := by
    intro word hword hbegin
    cases word with
    | nil => exact List.nil_prefix
    | cons d word =>
      obtain ⟨rfl, hrest⟩ := List.cons_prefix_cons.1 hbegin
      exact (List.prefix_cons_inj d).2
        (h.start word (fun e he => hword e (List.mem_cons_of_mem d he)) hrest)
  refine ⟨hstart, fun word hword hwithin => ?_⟩
  rcases List.infix_cons_iff.1 hwithin with hbegin | hinside
  · exact (hstart word hword hbegin).isInfix
  · exact (h.inside word hword hinside).trans (List.suffix_cons c source).isInfix

theorem divider (h : HasWordsOf source text) {c : Char} (hc : isWordChar c = false)
    (before : List Char) : HasWordsOf (before ++ source) (c :: text) := by
  have hstart : ∀ word, (∀ d ∈ word, isWordChar d = true) → word <+: c :: text → word = [] := by
    intro word hword hbegin
    cases word with
    | nil => rfl
    | cons d word =>
      obtain ⟨rfl, -⟩ := List.cons_prefix_cons.1 hbegin
      exact absurd (hword d List.mem_cons_self) (Bool.eq_false_iff.1 hc)
  refine ⟨fun word hword hbegin => ?_, fun word hword hwithin => ?_⟩
  · rw [hstart word hword hbegin]
    exact List.nil_prefix
  · rcases List.infix_cons_iff.1 hwithin with hbegin | hinside
    · rw [hstart word hword hbegin]
      exact List.nil_infix
    · exact (h.inside word hword hinside).trans (List.suffix_append before source).isInfix

theorem unescaped (chars : List Char) : HasWordsOf chars (unescaped chars) := by
  fun_induction MustacheJsx.unescaped chars with
  | case1 cs ih => exact (ih.divider rfl []).divider rfl ['\\', '{', '{']
  | case2 c cs _ ih => exact ih.cons c
  | case3 => exact .nil

theorem unifyLineEnds (chars : List Char) :
    HasWordsOf chars (Markup.Lexer.unifyLineEnds chars) := by
  fun_induction Markup.Lexer.unifyLineEnds chars with
  | case1 => exact .nil
  | case2 cs ih => exact ih.divider rfl ['\r', '\n']
  | case3 cs _ ih => exact ih.divider rfl ['\r']
  | case4 c cs _ _ ih => exact ih.cons c

theorem visible (chars : List Char) : HasWordsOf chars (chars.map Markup.Lexer.visible) := by
  induction chars with
  | nil => exact .nil
  | cons c cs ih =>
    rw [List.map_cons, Markup.Lexer.visible]
    split
    · exact ih.divider rfl [c]
    · exact ih.cons c

end HasWordsOf

namespace Markup.Lexer

open Reference (IsStop)

variable {m : Machine} {raw : Option String} {content : Content} {text rest : List Char}
  {marker : Char}

/-! ### Content -/

def contentIn (raw : Option String) : Content := raw.elim .markup contentOf

def lessState : Content → State
  | .markup => .tagOpen
  | content => .rawLessThan content

/-- The machine is in the content of the element `raw`, or in markup, and `text` is the text that is
pending. -/
structure InContent (m : Machine) (raw : Option String) (text : List Char) : Prop where
  state : m.state = .text (contentIn raw)
  key : m.key = []
  text : m.text.reverse = text
  opened : ∀ element ∈ raw, m.opened = element ∧ contentOf element ≠ .markup

theorem inContent_none : InContent m none text ↔ InText m text :=
  ⟨fun h => ⟨h.state, h.key, h.text⟩, fun h => ⟨h.state, h.key, h.text, nofun⟩⟩

theorem HasOpened.inContent {tag : SourceTag}
    (h : HasOpened m tag.selfClosing (smallName tag.name)) : InContent m tag.rawElement? [] := by
  have htext : m.text.reverse = [] := by rw [h.text, List.reverse_nil]
  rw [SourceTag.rawElement?]
  split
  · next hmarkup =>
    refine ⟨?_, h.key, htext, nofun⟩
    rw [h.state]
    rcases hmarkup with hclosing | hmarkup
    · rw [if_pos hclosing]
      rfl
    · rw [hmarkup, ite_self]
      rfl
  · next hraw =>
    obtain ⟨hclosing, hmarkup⟩ := not_or.1 hraw
    refine ⟨?_, h.key, htext, ?_⟩
    · rw [h.state, if_neg hclosing]
      rfl
    · rintro element ⟨⟩
      exact ⟨h.opened, hmarkup⟩

theorem InContent.write (hm : InContent m raw text) (line : Nat) (cs : List Char) :
    InContent (({ m with line } : Machine).write cs) raw (text ++ cs) where
  state := hm.state
  key := hm.key
  text := by simp [Machine.write, hm.text]
  opened := hm.opened

theorem isOuter_contentIn (raw : Option String) : IsOuter (contentIn raw) := by
  cases raw with
  | none => exact .markup
  | some element =>
    show IsOuter (contentOf element)
    rw [contentOf]
    repeat' split
    · exact .plain
    · exact .script
    · exact .reference
    · exact .markup

/-! ### Text -/

theorem stepText_reference (hrefs : readsReferences content = true) (m : Machine)
    (cs : List Char) : stepText content m '&' cs = match Reference.read? false cs with
      | some (found, count) => (m.write (found.map visible), [], count)
      | none => keep (m.write ['&']) := by
  cases content with
  | markup => rfl
  | reference => rfl
  | _ => cases hrefs

theorem IsOuter.stepText_less (h : IsOuter content) (m : Machine) (cs : List Char) :
    stepText content m '<' cs = keep (m.goTo (lessState content)) := by
  cases h <;> rfl

theorem IsOuter.step_afterLess (h : IsOuter content) (hstate : m.state = .text content)
    {cs : List Char} {c : Char} (hstays : staysText (c :: cs) = true) (rest : List Char) :
    step (m.goTo (lessState content)) c rest = stepText content (m.write ['<']) c rest := by
  obtain ⟨_, _, ⟨⟩, hletter, hbang, hslash, hquestion⟩ := exists_of_staysText hstays
  have hnone : letter? c = none := if_neg (Bool.eq_false_iff.1 hletter)
  have hback : backToText content (m.goTo (lessState content)) ['<'] c rest =
      stepText content (m.write ['<']) c rest := by
    rw [backToText, ← hstate]
    rfl
  have hraw : ∀ kind, step (m.goTo (.rawLessThan kind)) c rest =
      stepRawLessThan kind (m.goTo (.rawLessThan kind)) c rest := fun _ => rfl
  rw [← hback]
  cases h with
  | markup =>
    show stepTagOpen _ c rest = _
    rw [stepTagOpen.eq_def]
    split
    · exact absurd rfl hbang
    · exact absurd rfl hslash
    · exact absurd rfl hquestion
    · rw [hnone]
  | _ =>
    refine Eq.trans (hraw _) ?_
    simp [stepRawLessThan, hslash, hbang, lessState]

theorem exists_countLine_eq_both {m' : Machine} (hm : m.state ≠ .beforeValue)
    (hm' : m'.state ≠ .beforeValue) (hlines : m'.line = m.line) (c : Char) :
    ∃ line, countLine m c = { m with line } ∧ countLine m' c = { m' with line } := by
  by_cases hc : c = '\n'
  · refine ⟨m.line + 1, ?_, ?_⟩
    · rw [countLine, if_pos ⟨hc, hm⟩]
    · rw [countLine, if_pos ⟨hc, hm'⟩, hlines]
  · refine ⟨m.line, ?_, ?_⟩
    · rw [countLine_of_ne hc]
    · rw [countLine_of_ne hc, ← hlines]

theorem InContent.run_less (hm : InContent m raw text) {cs : List Char}
    (hstays : staysText cs = true) (rest : List Char) :
    run 0 m ('<' :: (cs ++ rest)) = run 0 (m.write ['<']) (cs ++ rest) := by
  have houter := isOuter_contentIn raw
  have hless : step (countLine m '<') '<' (cs ++ rest) =
      (m.goTo (lessState (contentIn raw)), [], 0) := by
    rw [countLine_of_ne (by decide), step, hm.state]
    exact houter.stepText_less m (cs ++ rest)
  rw [run_of_step hless]
  obtain ⟨c, cs, rfl, -⟩ := exists_of_staysText hstays
  have hvalue : m.state ≠ .beforeValue := by
    rw [hm.state]
    intro heq
    cases heq
  have hnext : ∀ kind, lessState kind ≠ .beforeValue := by
    intro kind heq
    cases kind <;> cases heq
  obtain ⟨line, hgone, hwritten⟩ := @exists_countLine_eq_both (m.goTo (lessState (contentIn raw)))
    (m.write ['<']) (hnext _) hvalue rfl c
  have hstate : ({ m with line } : Machine).state = .text (contentIn raw) := hm.state
  have hstep : step (({ m with line } : Machine).write ['<']) c (cs ++ rest) =
      stepText (contentIn raw) (({ m with line } : Machine).write ['<']) c (cs ++ rest) := by
    rw [step, show (({ m with line } : Machine).write ['<']).state = _ from hstate]
  rw [List.cons_append, run, run, hgone, hwritten]
  exact congrArg (fun found : Outcome => found.2.1 ++ run found.2.2 found.1 (cs ++ rest))
    ((houter.step_afterLess hstate hstays (cs ++ rest)).trans hstep.symm)

/-- What ends a text: nothing, or a character that no reference goes on with. -/
def IsEnd (rest : List Char) : Prop := ∀ c ∈ rest.head?, IsStop c

theorem read?_append_end (cs : List Char) (h : IsEnd rest) :
    Reference.read? false (cs ++ rest) = Reference.read? false cs := by
  cases rest with
  | nil => rw [List.append_nil]
  | cons stop more => exact Reference.read?_append (h stop rfl) more false cs

theorem InContent.run_text (hm : InContent m raw text) {chars : List Char}
    (hbegins : beginsNone chars = true) (hrest : IsEnd rest) {skip : Nat}
    (hskip : skip ≤ chars.length) :
    ∃ m', run skip m (chars ++ rest) = run 0 m' rest ∧ InContent m' raw
      (text ++ contentTextAfter (readsReferences (contentIn raw)) skip chars) := by
  -- `skip` counts the characters that a reference has taken already.
  induction chars generalizing m text skip with
  | nil =>
    cases Nat.le_zero.1 hskip
    exact ⟨m, rfl, by rwa [contentTextAfter, List.append_nil]⟩
  | cons c cs ih =>
    have htail : beginsNone cs = true := beginsNone_tail hbegins
    cases skip with
    | succ skip => exact ih hm htail (Nat.le_of_succ_le_succ hskip)
    | zero =>
      obtain ⟨line, hline⟩ := exists_countLine_eq m c
      have hstep : step (countLine m c) c (cs ++ rest) =
          stepText (contentIn raw) { m with line } c (cs ++ rest) := by
        rw [hline, step, show ({ m with line } : Machine).state = _ from hm.state]
      rw [List.cons_append, contentTextAfter]
      by_cases hamp : readsReferences (contentIn raw) = true ∧ c = '&'
      · obtain ⟨hrefs, rfl⟩ := hamp
        rw [if_pos ⟨hrefs, rfl⟩]
        rw [stepText_reference hrefs, read?_append_end cs hrest] at hstep
        cases hread : Reference.read? false cs with
        | some found =>
          rw [hread] at hstep
          obtain ⟨m', hrun, hm'⟩ := ih (hm.write line (found.1.map visible)) htail
            (Reference.read?_bounds hread).2
          refine ⟨m', ?_, by rwa [List.append_assoc] at hm'⟩
          rw [run_of_step hstep, hrun]
        | none =>
          rw [hread] at hstep
          obtain ⟨m', hrun, hm'⟩ := ih (hm.write line ['&']) htail (Nat.zero_le _)
          refine ⟨m', ?_, by rwa [List.append_assoc] at hm'⟩
          rw [run_of_step hstep, hrun]
      · rw [if_neg hamp]
        obtain ⟨line, hfirst⟩ : ∃ line, run 0 m (c :: (cs ++ rest)) =
            run 0 (({ m with line } : Machine).write [visible c]) (cs ++ rest) := by
          by_cases hc : c = '<'
          · subst hc
            exact ⟨m.line, hm.run_less (staysText_of_beginsNone hbegins) rest⟩
          · rw [(isOuter_contentIn raw).stepText_char hc hamp] at hstep
            exact ⟨line, run_of_step hstep⟩
        obtain ⟨m', hrun, hm'⟩ := ih (hm.write line [visible c]) htail (Nat.zero_le _)
        refine ⟨m', ?_, by rwa [List.append_assoc] at hm'⟩
        rw [hfirst, hrun]

theorem staysText_of_head? {cs ds : List Char} (h : staysText cs = true)
    (hhead : ∀ c ∈ cs.head?, c ∈ ds.head? ∨ ∃ d ∈ ds.head?, staysText [d] = true) :
    staysText ds = true := by
  obtain ⟨c, cs, rfl, -⟩ := exists_of_staysText h
  rcases hhead c rfl with hsame | ⟨d, hd, hstays⟩
  · obtain ⟨ds, rfl⟩ := List.head?_eq_some_iff.1 hsame
    exact h
  · obtain ⟨ds, rfl⟩ := List.head?_eq_some_iff.1 hd
    exact hstays

theorem beginsNone_unescaped {chars : List Char} (h : beginsNone chars = true) :
    beginsNone (unescaped chars) = true := by
  fun_induction unescaped chars with
  | case1 cs ih =>
    have hrest := ih (beginsNone_tail (beginsNone_tail (beginsNone_tail h)))
    have hbrace : '{' ≠ '<' := by decide
    exact beginsNone_cons (absurd · hbrace) (beginsNone_cons (absurd · hbrace) hrest)
  | case2 c cs _ ih =>
    refine beginsNone_cons (fun hc => ?_) (ih (beginsNone_tail h))
    subst hc
    refine staysText_of_head? (staysText_of_beginsNone h) fun c hc => ?_
    rw [unescaped.eq_def]
    split
    · exact .inr ⟨'{', rfl, rfl⟩
    · exact .inl hc
    · cases hc
  | case3 => rfl

theorem beginsNone_unifyLineEnds {chars : List Char} (h : beginsNone chars = true) :
    beginsNone (unifyLineEnds chars) = true := by
  fun_induction unifyLineEnds chars with
  | case1 => rfl
  | case2 cs ih =>
    exact beginsNone_cons (absurd · (by decide)) (ih (beginsNone_tail (beginsNone_tail h)))
  | case3 cs _ ih => exact beginsNone_cons (absurd · (by decide)) (ih (beginsNone_tail h))
  | case4 c cs _ _ ih =>
    refine beginsNone_cons (fun hc => ?_) (ih (beginsNone_tail h))
    subst hc
    refine staysText_of_head? (staysText_of_beginsNone h) fun c hc => ?_
    rw [unifyLineEnds.eq_def]
    split
    · cases hc
    · exact .inr ⟨'\n', rfl, rfl⟩
    · exact .inr ⟨'\n', rfl, rfl⟩
    · exact .inl hc

theorem isEnd_of_isCut (hmarker : IsMarker marker) (h : IsCut marker rest) :
    IsEnd (unifyLineEnds rest) ∧ rest.head? ≠ some '\n' := by
  cases rest with
  | nil => exact ⟨nofun, nofun⟩
  | cons c cs =>
    have hc : IsStop c ∧ c ≠ '\r' ∧ c ≠ '\n' := by
      rcases h c rfl with rfl | rfl
      · decide
      · exact ⟨isStop_of_isMarker hmarker, hmarker.ne (by decide), hmarker.ne (by decide)⟩
    refine ⟨?_, fun heq => hc.2.2 (Option.some.inj heq)⟩
    rw [unifyLineEnds_cons hc.2.1]
    rintro d ⟨⟩
    exact hc.1

/-- Text before a tag is added to the text that is pending, as what it stands for. -/
theorem InContent.run_content (hmarker : IsMarker marker) (hm : InContent m raw text)
    {chars : List Char} (hbegins : beginsNone chars = true) (hrest : IsCut marker rest) :
    ∃ m', run 0 m (unifyLineEnds (chars ++ rest)) = run 0 m' (unifyLineEnds rest) ∧
      InContent m' raw (text ++ contentText (readsReferences (contentIn raw)) chars) := by
  obtain ⟨hend, hline⟩ := isEnd_of_isCut hmarker hrest
  rw [unifyLineEnds_append fun hhead => absurd hhead hline]
  exact hm.run_text (beginsNone_unifyLineEnds hbegins) hend (Nat.zero_le _)

theorem run_of_lexes {m' : Machine} {cs : List Char} {tokens : List Token}
    (h : Lexes cs m tokens m') (hcs : '\r' ∉ cs) (rest : List Char) :
    run 0 m (unifyLineEnds (cs ++ rest)) = tokens ++ run 0 m' (unifyLineEnds rest) := by
  rw [unifyLineEnds_append fun _ => hcs, unifyLineEnds_of_forall fun c hc heq => hcs (heq ▸ hc)]
  exact h _

/-! ### Comments -/

theorem head?_unifyLineEnds {d : Char} (hd : d ≠ '\n') {cs : List Char}
    (h : cs.head? ≠ some d) : (unifyLineEnds cs).head? ≠ some d := by
  have hline : some '\n' ≠ some d := fun heq => hd (Option.some.inj heq).symm
  rw [unifyLineEnds.eq_def]
  split
  · exact nofun
  · exact hline
  · exact hline
  · exact h

/-- Line ends are unified inside of what is written between two marks. -/
theorem unifyLineEnds_between {opening closing rest : List Char} (hopening : '\r' ∉ opening)
    (value : List Char) (hclosing : '\r' ∉ closing)
    (hhead : (closing ++ rest).head? ≠ some '\n') :
    unifyLineEnds (opening ++ (value ++ closing) ++ rest) =
      opening ++ (unifyLineEnds value ++ closing) ++ unifyLineEnds rest := by
  have hsame : ∀ {cs : List Char}, '\r' ∉ cs → unifyLineEnds cs = cs :=
    fun hcs => unifyLineEnds_of_forall fun c hc heq => hcs (heq ▸ hc)
  simp only [List.append_assoc]
  rw [unifyLineEnds_append fun _ => hopening, unifyLineEnds_append fun heq => absurd heq hhead,
    unifyLineEnds_append fun _ => hclosing, hsame hopening, hsame hclosing]

theorem isCommentBody_unifyLineEnds {value : List Char} (h : IsCommentBody value) :
    IsCommentBody (unifyLineEnds value) where
  dashes hend := by
    refine h.dashes ((HasWordsOf.unifyLineEnds _).inside _ (by decide) ?_)
    have hsource : unifyLineEnds (['<', '!', '-', '-'] ++ (value ++ ['-', '-']) ++ []) =
        ['<', '!', '-', '-'] ++ (unifyLineEnds value ++ ['-', '-']) ++ [] :=
      unifyLineEnds_between (by decide) value (by decide) nofun
    rw [List.append_nil, List.append_nil] at hsource
    exact hsource ▸ hend
  bang hend := h.bang ((HasWordsOf.unifyLineEnds value).inside _ (by decide) hend)

theorem isDeclared_unifyLineEnds {chars : List Char} (h : IsDeclared chars) :
    IsDeclared (unifyLineEnds chars) := by
  intro c hc
  rcases mem_of_mem_unifyLineEnds hc with rfl | hc
  · decide
  · exact h c hc

theorem isWordChar_of_doctype {word : List Char}
    (hword : word.map Text.lowerAscii = "doctype".toList) :
    ∀ c ∈ word, isWordChar c = true ∧ c ≠ '\r' ∧ c ≠ '>' := by
  intro c hc
  have hlower : Text.lowerAscii c ∈ "doctype".toList := hword ▸ List.mem_map_of_mem hc
  have hne : ∀ d, Text.lowerAscii d ∉ "doctype".toList → c ≠ d := by
    rintro d hd rfl
    exact hd hlower
  simp [isWordChar, hne '\n' (by decide), hne '{' (by decide), hne '\ufffd' (by decide),
    hne '\r' (by decide), hne '>' (by decide)]

theorem isDoctype_iff {chars : List Char} : isDoctype chars = true ↔
    ∃ word, word <+: chars ∧ word.map Text.lowerAscii = "doctype".toList := by
  rw [isDoctype, beq_iff_eq]
  constructor
  · exact fun h => ⟨chars.take 7, List.take_prefix 7 chars, h⟩
  · rintro ⟨word, ⟨rest, rfl⟩, hword⟩
    have hlength : word.length = 7 := by
      rw [← List.length_map (f := Text.lowerAscii), hword]
      rfl
    rw [List.take_left' hlength, hword]

theorem isDoctype_unifyLineEnds {chars : List Char} (h : isDoctype (unifyLineEnds chars) = true) :
    isDoctype chars = true := by
  obtain ⟨word, hbegin, hword⟩ := isDoctype_iff.1 h
  have hchars := isWordChar_of_doctype hword
  exact isDoctype_iff.2
    ⟨word, (HasWordsOf.unifyLineEnds chars).start word (fun c hc => (hchars c hc).1) hbegin, hword⟩

theorem admits_unifyLineEnds {form : CommentForm} {value : List Char} (h : form.Admits value) :
    form.Admits (unifyLineEnds value) := by
  cases form with
  | dashes => exact isCommentBody_unifyLineEnds h
  | bang =>
    obtain ⟨hdeclared, hdashes, hdoctype⟩ := h
    refine ⟨isDeclared_unifyLineEnds hdeclared, fun hbegin => hdashes ?_, ?_⟩
    · exact (HasWordsOf.unifyLineEnds value).start _ (by decide) hbegin
    · exact Bool.eq_false_iff.2 fun hlead =>
        Bool.eq_false_iff.1 hdoctype (isDoctype_unifyLineEnds hlead)
  | question =>
    obtain ⟨hdeclared, hhead⟩ := h
    refine ⟨isDeclared_unifyLineEnds hdeclared, ?_⟩
    obtain ⟨cs, rfl⟩ := List.head?_eq_some_iff.1 hhead
    rw [unifyLineEnds_cons (by decide)]
    rfl
  | slash =>
    obtain ⟨hdeclared, hne, hhead⟩ := h
    refine ⟨isDeclared_unifyLineEnds hdeclared, unifyLineEnds_ne_nil hne, fun c hc => ?_⟩
    by_cases hline : c = '\n'
    · rw [hline]
      decide
    · by_contra hletter
      exact head?_unifyLineEnds hline (fun heq => hletter (hhead c heq)) hc

/-- The machine is in a comment that `>` alone ends, of which `value` is read. -/
structure InBogus (m : Machine) (text value : List Char) : Prop where
  state : m.state = .bogusComment
  key : m.key = []
  text : m.text.reverse = text
  value : m.comment.reverse = value.map visible

theorem InBogus.lexes {before value : List Char} (hm : InBogus m text before)
    (hvalue : IsDeclared value) :
    ∃ m', Lexes (value ++ ['>']) m
        (textTokens text ++ [.comment ((before ++ value).map visible)]) m' ∧ InText m' [] := by
  induction value generalizing m before with
  | nil =>
    have hpending := pending_eq_textTokens (m := m) hm.text
    refine ⟨{ m with state := .text .markup, text := [], comment := [] }, ?_, rfl, hm.key, rfl⟩
    refine lexes_of_step fun rest => ?_
    rw [countLine_of_ne (by decide), step, hm.state]
    show finish m.endComment = _
    rw [Machine.endComment, hpending, hm.value, List.append_nil]
    rfl
  | cons c value ih =>
    obtain ⟨hc, hvalue⟩ := List.forall_mem_cons.1 hvalue
    obtain ⟨line, hline⟩ := exists_countLine_eq m c
    have hstep : Lexes [c] m []
        ((({ m with line } : Machine).note [visible c]).goTo .bogusComment) := by
      refine lexes_of_step fun rest => ?_
      rw [hline, step, show ({ m with line } : Machine).state = _ from hm.state]
      exact if_neg hc.2.1
    have hnext : InBogus ((({ m with line } : Machine).note [visible c]).goTo .bogusComment) text
        (before ++ [c]) := ⟨rfl, hm.key, hm.text, by simp [Machine.note, Machine.goTo, hm.value]⟩
    obtain ⟨m', hlexes, hm'⟩ := ih hnext hvalue
    rw [List.append_assoc] at hlexes
    exact ⟨m', hstep.cons hlexes, hm'⟩

theorem startsWith_eq_false {lead cs : List Char} (h : ¬ lead <+: cs) :
    Text.startsWith lead cs = false := by
  rw [Bool.eq_false_iff]
  intro hstarts
  exact h (Text.startsWith_iff.1 hstarts)

theorem stepTagOpen_bang {value : List Char} (hvalue : CommentForm.bang.Admits value)
    (m : Machine) (rest : List Char) :
    stepTagOpen m '!' (value ++ '>' :: rest) =
      keep (({ m with comment := [] } : Machine).goTo .bogusComment) := by
  obtain ⟨-, hdashes, hdoctype⟩ := hvalue
  have hlead : ((value ++ '>' :: rest).take 7).map Text.lowerAscii ≠ "doctype".toList := by
    intro hword
    have hgreater : '>' ∉ (value ++ '>' :: rest).take 7 :=
      fun hmem => (isWordChar_of_doctype hword '>' hmem).2.2 rfl
    exact Bool.eq_false_iff.1 hdoctype (isDoctype_iff.2
      ⟨_, isPrefix_of_not_mem (List.take_prefix 7 _) hgreater, hword⟩)
  have hstart : Text.startsWith ['-', '-'] (value ++ '>' :: rest) = false :=
    startsWith_eq_false fun hbegin => hdashes (isPrefix_of_not_mem hbegin (by decide))
  rw [stepTagOpen, hstart, if_neg Bool.false_ne_true, if_neg hlead]

theorem inBogus_of_note (start : Machine) (hkey : start.key = [])
    (htext : start.text.reverse = text) (cs : List Char) :
    InBogus ((({ start with comment := [] } : Machine).note (cs.map visible)).goTo .bogusComment)
      text cs :=
  ⟨rfl, hkey, htext, by simp [Machine.note, Machine.goTo]⟩

theorem InText.lexes_commentForm (hm : InText m text) {form : CommentForm} {value : List Char}
    (hvalue : form.Admits value) :
    ∃ m', Lexes (Segment.comment form value).source m
        (textTokens text ++ [.comment (value.map visible)]) m' ∧ InText m' [] := by
  cases form with
  | dashes => exact hm.lexes_comment hvalue
  | bang =>
    obtain ⟨m', hbody, hm'⟩ := (inBogus_of_note (m.goTo .tagOpen) hm.key hm.text []).lexes hvalue.1
    refine ⟨m', (lexes_less hm).cons fun rest => Eq.trans (run_of_step ?_) (hbody rest), hm'⟩
    rw [countLine_of_ne (by decide), step]
    show stepTagOpen _ '!' (value ++ ['>'] ++ rest) = _
    rw [List.append_assoc]
    exact stepTagOpen_bang hvalue _ rest
  | question =>
    obtain ⟨hdeclared, hhead⟩ := hvalue
    obtain ⟨cs, rfl⟩ := List.head?_eq_some_iff.1 hhead
    obtain ⟨m', hbody, hm'⟩ :=
      (inBogus_of_note (m.goTo .tagOpen) hm.key hm.text ['?']).lexes
        (List.forall_mem_cons.1 hdeclared).2
    refine ⟨m', (lexes_less hm).cons (Lexes.cons (lexes_of_step fun rest => ?_) hbody), hm'⟩
    rw [countLine_of_ne (by decide), step]
    rfl
  | slash =>
    obtain ⟨hdeclared, hne, hhead⟩ := hvalue
    obtain ⟨c, cs, rfl⟩ := List.exists_cons_of_ne_nil hne
    obtain ⟨hc, hcs⟩ := List.forall_mem_cons.1 hdeclared
    have hnone : letter? c = none := if_neg (Bool.eq_false_iff.1 (hhead c rfl))
    obtain ⟨line, hline⟩ := exists_countLine_eq (m.goTo .endTagOpen) c
    obtain ⟨m', hbody, hm'⟩ :=
      (inBogus_of_note { m.goTo .endTagOpen with line } hm.key hm.text [c]).lexes hcs
    have hslash : Lexes ['/'] (m.goTo .tagOpen) [] (m.goTo .endTagOpen) := by
      refine lexes_of_step fun rest => ?_
      rw [countLine_of_ne (by decide), step]
      rfl
    refine ⟨m', (lexes_less hm).cons (hslash.cons (Lexes.cons ?_ hbody)), hm'⟩
    refine lexes_of_step fun rest => ?_
    rw [hline, step]
    show stepEndTagOpen _ c = _
    rw [stepEndTagOpen, hnone]
    exact (if_neg hc.2.1).trans (if_neg hc.2.1)

theorem InText.run_comment (hm : InText m text) {form : CommentForm} {value : List Char}
    (hvalue : form.Admits value) (rest : List Char) :
    ∃ m', run 0 m (unifyLineEnds ((Segment.comment form value).source ++ rest)) =
        textTokens text ++ .comment (contentText false value) :: run 0 m' (unifyLineEnds rest) ∧
      InText m' [] := by
  obtain ⟨m', hlexes, hm'⟩ := hm.lexes_commentForm (admits_unifyLineEnds hvalue)
  have hread := hlexes (unifyLineEnds rest)
  rw [List.append_assoc, ← contentText_false] at hread
  refine ⟨m', Eq.trans (congrArg (run 0 m) ?_) hread, hm'⟩
  cases form <;> exact unifyLineEnds_between (by decide) value (by decide) nofun

/-! ### Doctypes -/

theorem lexes_ignored {chars : List Char} (hm : m.state = .doctype) (h : '>' ∉ chars) :
    ∃ line, Lexes chars m [] { m with line } := by
  induction chars generalizing m with
  | nil => exact ⟨m.line, lexes_nil m⟩
  | cons c cs ih =>
    obtain ⟨line, hline⟩ := exists_countLine_eq m c
    have hstep : Lexes [c] m [] { m with line } := by
      refine lexes_of_step fun rest => ?_
      rw [hline, step, show ({ m with line } : Machine).state = _ from hm]
      have hc : c ≠ '>' := fun heq => h (heq ▸ List.mem_cons_self)
      exact if_neg hc
    obtain ⟨last, hlast⟩ := ih (m := { m with line }) hm fun hmem => h (List.mem_cons_of_mem c hmem)
    exact ⟨last, hstep.cons hlast⟩

theorem InText.lexes_doctype (hm : InText m text) {word chars : List Char}
    (hword : word.map Text.lowerAscii = "doctype".toList) (hchars : '>' ∉ chars) :
    ∃ m', Lexes (Segment.doctype (word ++ chars)).source m [] m' ∧ InText m' text := by
  have hlength : word.length = 7 := by
    rw [← List.length_map (f := Text.lowerAscii), hword]
    rfl
  let opened : Machine := ({ m.goTo .tagOpen with comment := [] } : Machine).goTo .doctype
  have hopen : Lexes ('!' :: word) (m.goTo .tagOpen) [] opened := by
    refine lexes_of_step fun rest => ?_
    have hdoctype : isDoctype (word ++ rest) = true :=
      isDoctype_iff.2 ⟨word, List.prefix_append word rest, hword⟩
    have hdashes := startsWith_eq_false (not_dashes_of_isDoctype hdoctype)
    rw [countLine_of_ne (by decide), step]
    show stepTagOpen (m.goTo .tagOpen) '!' (word ++ rest) = _
    rw [stepTagOpen, hdashes, if_neg Bool.false_ne_true, if_pos (beq_iff_eq.1 hdoctype), hlength]
  obtain ⟨line, hread⟩ := lexes_ignored (m := opened) rfl hchars
  have hend : Lexes ['>'] { opened with line } [] (({ opened with line } : Machine).goTo
      (.text .markup)) := by
    refine lexes_of_step fun rest => ?_
    rw [countLine_of_ne (by decide), step]
    rfl
  refine ⟨({ opened with line } : Machine).goTo (.text .markup), ?_, rfl, hm.key, hm.text⟩
  have hall := (lexes_less hm).cons (hopen.append (hread.append hend))
  rw [List.cons_append, ← List.append_assoc] at hall
  exact hall

theorem InText.run_doctype (hm : InText m text) {chars : List Char}
    (hlead : isDoctype chars = true) (hchars : IsDeclared chars) (rest : List Char) :
    ∃ m', run 0 m (unifyLineEnds ((Segment.doctype chars).source ++ rest)) =
        run 0 m' (unifyLineEnds rest) ∧ InText m' text := by
  obtain ⟨word, ⟨more, rfl⟩, hword⟩ := isDoctype_iff.1 hlead
  have hreturn : '\r' ∉ word := fun hmem => (isWordChar_of_doctype hword '\r' hmem).2.1 rfl
  have hclosed : '>' ∉ unifyLineEnds more := fun hmem =>
    (isDeclared_unifyLineEnds hchars '>'
      (by rw [unifyLineEnds_append fun _ => hreturn]; exact List.mem_append_right _ hmem)).2.1 rfl
  obtain ⟨m', hlexes, hm'⟩ := hm.lexes_doctype hword hclosed
  have hunified : unifyLineEnds (word ++ more) = word ++ unifyLineEnds more := by
    rw [unifyLineEnds_append fun _ => hreturn,
      unifyLineEnds_of_forall fun c hc heq => hreturn (heq ▸ hc)]
  refine ⟨m', Eq.trans (congrArg (run 0 m) ?_) (hlexes (unifyLineEnds rest)), hm'⟩
  rw [Segment.source, Segment.source, ← hunified]
  exact unifyLineEnds_between (by decide : '\r' ∉ ['<', '!']) (word ++ more) (by decide)
    fun heq => by cases heq

/-! ### End tags -/

/-- The machine is in the name of an end tag. -/
structure InEndTag (m : Machine) (text name : List Char) : Prop where
  text : m.text.reverse = text
  isEndTag : m.isEndTag = true
  name : m.name.reverse = name

theorem InEndTag.lexes_name {name letters : List Char} (hm : InEndTag m text name)
    (hstate : m.state = .tagName) (h : ∀ c ∈ letters, IsNamePart c) :
    ∃ m', Lexes letters m [] m' ∧ m'.state = .tagName ∧
      InEndTag m' text (name ++ letters.map Text.lowerAscii) := by
  induction letters generalizing m name with
  | nil => exact ⟨m, lexes_nil m, hstate, by rwa [List.map_nil, List.append_nil]⟩
  | cons c letters ih =>
    have hc := h c List.mem_cons_self
    have hstep := lexes_namePart hstate hc
    have hnamed : InEndTag { m with name := Text.lowerAscii c :: m.name } text
        (name ++ [Text.lowerAscii c]) := ⟨hm.text, hm.isEndTag, by simp [hm.name]⟩
    obtain ⟨m', hlexes, hstate', hm'⟩ :=
      ih hnamed hstate fun d hd => h d (List.mem_cons_of_mem c hd)
    refine ⟨m', hstep.cons hlexes, hstate', ?_⟩
    rwa [List.append_assoc] at hm'

theorem InEndTag.lexes_blanks {name blanks : List Char} (hm : InEndTag m text name)
    (hstate : IsBetween m.state) (h : ∀ c ∈ blanks, Text.isMarkupBlank c = true) :
    ∃ m', Lexes blanks m [] m' ∧ IsBetween m'.state ∧ InEndTag m' text name := by
  induction blanks generalizing m with
  | nil => exact ⟨m, lexes_nil m, hstate, hm⟩
  | cons c blanks ih =>
    obtain ⟨line, state, hbefore, hfirst⟩ := lexes_blank hstate (h c List.mem_cons_self)
    have hread : InEndTag (({ m with line } : Machine).goTo state) text name :=
      ⟨hm.text, hm.isEndTag, hm.name⟩
    obtain ⟨m', hlexes, hstate', hm'⟩ := ih hread hbefore.isBetween
      fun d hd => h d (List.mem_cons_of_mem c hd)
    exact ⟨m', hfirst.cons hlexes, hstate', hm'⟩

theorem InEndTag.run_end {name blanks : List Char} (hm : InEndTag m text name)
    (hstate : IsBetween m.state) (hblanks : ∀ c ∈ blanks, Text.isAsciiBlank c = true)
    (rest : List Char) :
    ∃ line m', run 0 m (unifyLineEnds (blanks ++ '>' :: rest)) =
        textTokens text ++ .endTag (String.ofList name) line :: run 0 m' (unifyLineEnds rest) ∧
      InText m' [] := by
  obtain ⟨last, hspaces, hlast, hin⟩ := hm.lexes_blanks hstate (unifyLineEnds_blanks hblanks)
  obtain ⟨m', hend, hm'⟩ := lexes_endTagEnd hin.text hin.isEndTag hin.name (step_greater hlast)
  refine ⟨last.line, m', ?_, hm'⟩
  have hread := hspaces.append hend (unifyLineEnds rest)
  rw [List.append_assoc] at hread
  rw [unifyLineEnds_append fun hhead => (by cases hhead), unifyLineEnds_cons (by decide)]
  refine hread.trans ?_
  rw [List.nil_append, List.append_assoc]
  rfl

theorem closing_source_append (name blanks rest : List Char) :
    (Segment.closing name blanks).source ++ rest =
      ('<' :: '/' :: name) ++ (blanks ++ '>' :: rest) := by
  simp [Segment.source]

/-- An end tag is read as it was written, in small letters. -/
theorem InText.run_closing (hm : InText m text) {name blanks : List Char}
    (hname : IsClosingName name) (hblanks : ∀ c ∈ blanks, Text.isAsciiBlank c = true)
    (rest : List Char) :
    ∃ line m', run 0 m (unifyLineEnds ((Segment.closing name blanks).source ++ rest)) =
        textTokens text ++ .endTag (smallName name) line :: run 0 m' (unifyLineEnds rest) ∧
      InText m' [] := by
  have hparts := hname.isNamePart
  have hreturn := hname.not_mem_return
  obtain ⟨c, cs, rfl⟩ := List.exists_cons_of_ne_nil hname.chars.1
  have hfirst := hm.lexes_endLetter (hname.head c rfl)
  have hopened : InEndTag (namingTag m true c) text [Text.lowerAscii c] := ⟨hm.text, rfl, rfl⟩
  obtain ⟨named, hletters, hnamed, hin⟩ := hopened.lexes_name rfl
    fun d hd => hparts d (List.mem_cons_of_mem c hd)
  have hbetween : IsBetween named.state := by
    rw [hnamed]
    exact .tagName
  obtain ⟨line, m', hrun, hm'⟩ := hin.run_end hbetween hblanks rest
  refine ⟨line, m', ?_, hm'⟩
  have hopen : Lexes ('<' :: '/' :: c :: cs) m [] named := hfirst.append hletters
  rw [closing_source_append, run_of_lexes hopen hreturn]
  exact hrun

/-! ### End tags after content that is no markup -/

theorem isAsciiLetter_of_lowerAscii {c : Char} (h : Text.isAsciiLetter (Text.lowerAscii c) = true) :
    Text.isAsciiLetter c = true := by
  cases hupper : Text.isAsciiUpper c with
  | true =>
    rw [Text.isAsciiLetter, Bool.or_eq_true]
    exact .inr hupper
  | false => rwa [lowerAscii_of_not_upper hupper] at h

theorem isAsciiLetter_of_contentOf {element : String} (h : contentOf element ≠ .markup) :
    ∀ c ∈ element.toList, Text.isAsciiLetter c = true := by
  have hmem : element ∈ ["style", "xmp", "iframe", "noembed", "noframes", "script", "textarea",
      "title"] := by
    by_contra hnot
    simp only [List.mem_cons, not_or] at hnot
    exact h (by simp [contentOf, hnot])
  have hall : ∀ other ∈ ["style", "xmp", "iframe", "noembed", "noframes", "script", "textarea",
      "title"], ∀ c ∈ other.toList, Text.isAsciiLetter c = true := by decide
  exact hall element hmem

theorem InEndTag.lexes_rawName {name letters : List Char} (hm : InEndTag m text name)
    (hstate : m.state = .rawEndTagName content)
    (h : ∀ c ∈ letters, IsNamePart c ∧ Text.isAsciiLetter c = true) :
    ∃ m', Lexes letters m [] m' ∧ m'.state = .rawEndTagName content ∧ m'.opened = m.opened ∧
      InEndTag m' text (name ++ letters.map Text.lowerAscii) := by
  induction letters generalizing m name with
  | nil => exact ⟨m, lexes_nil m, hstate, rfl, by rwa [List.map_nil, List.append_nil]⟩
  | cons c letters ih =>
    obtain ⟨hc, hletter⟩ := h c List.mem_cons_self
    obtain ⟨hblank, hline, -⟩ := isMarkupBlank_of_isBlank hc.blank
    let named : Machine := { m with name := Text.lowerAscii c :: m.name, word := c :: m.word }
    have hstep : Lexes [c] m [] named := by
      refine lexes_of_step fun rest => ?_
      rw [countLine_of_ne hline, step, hstate]
      simp [stepRawEndTagName, hblank, hc.slash, hc.greater, letter?_of_isAsciiLetter hletter, keep,
        hstate, named]
    have hnamed : InEndTag named text (name ++ [Text.lowerAscii c]) :=
      ⟨hm.text, hm.isEndTag, by simp [named, hm.name]⟩
    obtain ⟨m', hlexes, hstate', hopened, hm'⟩ :=
      ih hnamed hstate fun d hd => h d (List.mem_cons_of_mem c hd)
    refine ⟨m', hstep.cons hlexes, hstate', hopened, ?_⟩
    rwa [List.append_assoc] at hm'

theorem step_rawEndTagName (hstate : m.state = .rawEndTagName content)
    (happropriate : m.isAppropriate = true) {c : Char}
    (hc : Text.isMarkupBlank c = true ∨ c = '>') (cs : List Char) :
    step m c cs = step (({ m with word := [] } : Machine).goTo .tagName) c cs := by
  rw [step, hstate]
  show stepRawEndTagName content m c cs = stepTagName _ c
  rw [stepRawEndTagName, stepTagName, happropriate]
  rcases hc with hblank | rfl
  · rw [hblank]
    rfl
  · rfl

theorem run_rawEndTagName (hstate : m.state = .rawEndTagName content)
    (happropriate : m.isAppropriate = true) {c : Char}
    (hc : Text.isMarkupBlank c = true ∨ c = '>') (cs : List Char) :
    run 0 m (c :: cs) = run 0 (({ m with word := [] } : Machine).goTo .tagName) (c :: cs) := by
  have hvalue : m.state ≠ .beforeValue := by
    rw [hstate]
    nofun
  obtain ⟨line, hfirst, hsecond⟩ := @exists_countLine_eq_both m
    (({ m with word := [] } : Machine).goTo .tagName) hvalue nofun rfl c
  have hstep := @step_rawEndTagName { m with line } content hstate happropriate c hc cs
  rw [run, run, hfirst, hsecond, hstep]
  rfl

theorem InContent.lexes_endTagName {element : String} (hm : InContent m (some element) text)
    {name : List Char} (hname : IsClosingName name) (helement : smallName name = element) :
    ∃ m', Lexes ('<' :: '/' :: name) m [] m' ∧ m'.state = .rawEndTagName (contentOf element) ∧
      m'.isAppropriate = true ∧ InEndTag m' text (name.map Text.lowerAscii) := by
  obtain ⟨hopened, hraw⟩ := hm.opened element rfl
  have hparts : ∀ c ∈ name, IsNamePart c ∧ Text.isAsciiLetter c = true := by
    refine fun c hc => ⟨hname.isNamePart c hc, isAsciiLetter_of_lowerAscii ?_⟩
    refine isAsciiLetter_of_contentOf hraw _ ?_
    rw [← helement, smallName, String.toList_ofList]
    exact List.mem_map_of_mem hc
  obtain ⟨c, cs, rfl⟩ := List.exists_cons_of_ne_nil hname.chars.1
  obtain ⟨hpart, hletter⟩ := hparts c List.mem_cons_self
  obtain ⟨-, hline, -⟩ := isMarkupBlank_of_isBlank hpart.blank
  -- Which raw content it is makes no difference from here on.
  have houter : IsOuter (contentOf element) := isOuter_contentIn (some element)
  have hstate : m.state = .text (contentOf element) := hm.state
  generalize contentOf element = content at hraw houter hstate
  let slashed := ({ m.goTo (.rawLessThan content) with word := [] } : Machine).goTo
    (.rawEndTagOpen content)
  let opened := ({ slashed.beginTag true (Text.lowerAscii c) with word := [c] } : Machine).goTo
    (.rawEndTagName content)
  have hless : Lexes ['<'] m [] (m.goTo (.rawLessThan content)) := by
    refine lexes_of_step fun rest => ?_
    rw [countLine_of_ne (by decide), step, hstate]
    show stepText content m '<' _ = _
    cases houter with
    | markup => exact absurd rfl hraw
    | _ => rfl
  have hslash : Lexes ['/'] (m.goTo (.rawLessThan content)) [] slashed := by
    refine lexes_of_step fun rest => ?_
    rw [countLine_of_ne (by decide), step]
    cases houter <;> rfl
  have hfirst : Lexes [c] slashed [] opened := by
    refine lexes_of_step fun rest => ?_
    rw [countLine_of_ne hline, step]
    show stepRawEndTagOpen content slashed c _ = _
    rw [stepRawEndTagOpen, letter?_of_isAsciiLetter hletter]
    rfl
  have hbegun : InEndTag opened text [Text.lowerAscii c] := ⟨hm.text, rfl, rfl⟩
  obtain ⟨named, hletters, hnamed, hkept, hin⟩ := hbegun.lexes_rawName rfl
    fun d hd => hparts d (List.mem_cons_of_mem c hd)
  refine ⟨named, hless.cons (hslash.cons (hfirst.cons hletters)), hnamed, ?_, hin⟩
  have hsame : named.opened = smallName (c :: cs) := by
    rw [hkept, helement]
    exact hopened
  rw [Machine.isAppropriate, hin.isEndTag, hin.name, hsame]
  exact beq_self_eq_true _

/-- In the content of an element that is no markup its end tag is read too. -/
theorem InContent.run_closing {element : String} (hm : InContent m (some element) text)
    {name blanks : List Char} (hname : IsClosingName name) (helement : smallName name = element)
    (hblanks : ∀ c ∈ blanks, Text.isAsciiBlank c = true) (rest : List Char) :
    ∃ line m', run 0 m (unifyLineEnds ((Segment.closing name blanks).source ++ rest)) =
        textTokens text ++ .endTag (smallName name) line :: run 0 m' (unifyLineEnds rest) ∧
      InText m' [] := by
  obtain ⟨named, hlexes, hnamed, happropriate, hin⟩ := hm.lexes_endTagName hname helement
  have hended : InEndTag (({ named with word := [] } : Machine).goTo .tagName) text
      (name.map Text.lowerAscii) := ⟨hin.text, hin.isEndTag, hin.name⟩
  obtain ⟨line, m', hrun, hm'⟩ := hended.run_end .tagName hblanks rest
  refine ⟨line, m', ?_, hm'⟩
  rw [closing_source_append, run_of_lexes hlexes hname.not_mem_return]
  refine Eq.trans ?_ hrun
  rw [unifyLineEnds_append fun hhead => (by cases hhead), unifyLineEnds_cons (by decide)]
  have hall := unifyLineEnds_blanks hblanks
  generalize unifyLineEnds blanks = unified at hall
  cases unified with
  | nil => exact run_rawEndTagName hnamed happropriate (.inr rfl) _
  | cons d ds =>
    exact run_rawEndTagName hnamed happropriate (.inl (hall d List.mem_cons_self)) _

end Markup.Lexer

/-! ### Parts -/

namespace Part

open Markup.Lexer (contentIn readsReferences)

/-- What a part means in markup: a piece of a text, a token on some line, or nothing. Text stands
for something else where references are not read. -/
def signal (marker : Char) (first : Nat) (refs : Bool) : Part → Option (Piece ⊕ (Nat → Token))
  | .text chars => some (.inl (.text (contentText refs chars)))
  | .tag t => some ((Item.tag t).signal marker first)
  | .comment _ value => some (.inr fun _ => .comment (contentText false value))
  | .doctype _ => none
  | .opening written _ => some (.inr fun line => .startTag (written.token marker first) line)
  | .closing name _ => some (.inr fun line => .endTag (smallName name) line)

/-- The element in whose content, which is no markup, stands what follows a part. -/
def rawAfter (raw : Option String) : Part → Option String
  | .opening written _ => written.rawElement?
  | .closing _ _ => none
  | _ => raw

/-- The tokens that a part ends when the pieces `pending` of a text stand before it, and the pieces
that are pending after it. -/
inductive Gives (marker : Char) (first : Nat) (refs : Bool) (part : Part) :
    List Piece → List Token → List Piece → Prop where
  | piece {pending piece} : part.signal marker first refs = some (.inl piece) →
      Gives marker first refs part pending [] (pending ++ [piece])
  | token {pending token} (line : Nat) : part.signal marker first refs = some (.inr token) →
      Gives marker first refs part pending
        (textTokens (pending.flatMap (Piece.rendered marker)) ++ [token line]) []
  | nothing {pending} : part.signal marker first refs = none →
      Gives marker first refs part pending [] pending

inductive GivesAll (marker : Char) :
    Option String → Nat → List Piece → List Part → List Token → Prop where
  | nil {raw first pending} :
      GivesAll marker raw first pending [] (textTokens (pending.flatMap (Piece.rendered marker)))
  | cons {raw first pending part tokens next parts others} :
      part.Gives marker first (readsReferences (contentIn raw)) pending tokens next →
      GivesAll marker (part.rawAfter raw) (first + part.slots.length) next parts others →
      GivesAll marker raw first pending (part :: parts) (tokens ++ others)

end Part

theorem mem_of_mem_unescaped {c : Char} {chars : List Char} (h : c ∈ unescaped chars) :
    c ∈ chars := by
  fun_induction unescaped chars with
  | case1 cs ih =>
    rcases List.mem_cons.1 h with rfl | h
    · exact List.mem_cons_of_mem _ List.mem_cons_self
    · rcases List.mem_cons.1 h with rfl | h
      · exact List.mem_cons_of_mem _ List.mem_cons_self
      · exact List.mem_cons_of_mem _ (List.mem_cons_of_mem _ (List.mem_cons_of_mem _ (ih h)))
  | case2 d cs _ ih =>
    rcases List.mem_cons.1 h with rfl | h
    · exact List.mem_cons_self
    · exact List.mem_cons_of_mem _ (ih h)
  | case3 => cases h

theorem Segment.Becomes.rawAfter {segment : Segment} {part : Part} (h : segment.Becomes part)
    (raw : Option String) : part.rawAfter raw = segment.rawAfter raw := by
  cases h <;> rfl

theorem Segment.Becomes.isCut {segment : Segment} {part : Part} (h : segment.Becomes part)
    (htext : ∀ chars, segment ≠ .text chars) (marker : Char) (first : Nat) (rest : List Char) :
    IsCut marker (part.markup marker first ++ rest) := by
  have hless : ∀ cs, IsCut marker ('<' :: cs) := by
    rintro cs c ⟨⟩
    exact .inl rfl
  have hhole : ∀ cs, IsCut marker (placeholderText marker first ++ cs) := by
    rintro cs c ⟨⟩
    exact .inr rfl
  cases h with
  | text chars => exact absurd rfl (htext chars)
  | @mustache _ _ _ tag _ =>
    cases tag with
    | expression m => exact hhole rest
    | partialCall call => exact hhole rest
    | elseBranch chain => cases chain <;> exact hless _
    | _ => exact hless _
  | comment form value => cases form <;> exact hless _
  | _ => exact hless _

namespace Markup.Lexer

variable {m : Machine} {raw : Option String} {marker : Char} {pending : List Piece}
  {rest : List Char}

theorem not_mem_return_tagMarkup (hmarker : IsMarker marker) (t : Tag) (first : Nat) :
    '\r' ∉ t.markup marker first := fun hmem => mem_tagMarkup_ne hmarker t first '\r' hmem rfl

/-- A hole is added to the text that is pending, in any content. -/
theorem InContent.run_hole (hmarker : IsMarker marker)
    (hm : InContent m raw (pending.flatMap (Piece.rendered marker))) {t : Tag} (ht : t.IsHole)
    (first : Nat) (refs : Bool) (rest : List Char) :
    ∃ next m', (Part.tag t).Gives marker first refs pending [] next ∧
      run 0 m (unifyLineEnds (t.markup marker first ++ rest)) = run 0 m' (unifyLineEnds rest) ∧
      InContent m' raw (next.flatMap (Piece.rendered marker)) := by
  have hreturn := not_mem_return_tagMarkup hmarker t first
  have hpiece : (Part.tag t).signal marker first refs = some (.inl (.hole (some first))) ∧
      t.markup marker first = placeholderText marker first := by
    cases t with
    | expression m => exact ⟨rfl, rfl⟩
    | partialCall call => exact ⟨rfl, rfl⟩
    | _ => exact ht.elim
  obtain ⟨hsignal, hmarkup⟩ := hpiece
  obtain ⟨line, hlexes⟩ := lexes_textual (isOuter_contentIn raw) hm.state fun c hc =>
    isTextual_of_mem_placeholderText hmarker hc
  rw [hmarkup] at hreturn ⊢
  refine ⟨_, _, .piece hsignal, run_of_lexes hlexes hreturn rest, ?_⟩
  rw [List.flatMap_append, List.flatMap_singleton]
  exact hm.write line (placeholderText marker first)

theorem InText.run_mustache (hmarker : IsMarker marker)
    (hm : InText m (pending.flatMap (Piece.rendered marker))) (t : Tag) (first : Nat) (refs : Bool)
    (rest : List Char) :
    ∃ tokens next m', (Part.tag t).Gives marker first refs pending tokens next ∧
      run 0 m (unifyLineEnds (t.markup marker first ++ rest)) =
        tokens ++ run 0 m' (unifyLineEnds rest) ∧
      InText m' (next.flatMap (Piece.rendered marker)) := by
  cases hsignal : (Item.tag t).signal marker first with
  | inl piece =>
    have ht : t.IsHole := by
      cases t with
      | expression m => trivial
      | partialCall call => trivial
      | elseBranch chain => cases chain <;> cases hsignal
      | _ => cases hsignal
    obtain ⟨next, m', hgives, hrun, hm'⟩ :=
      (inContent_none.2 hm).run_hole hmarker ht first refs rest
    exact ⟨[], next, m', hgives, hrun, inContent_none.1 hm'⟩
  | inr token =>
    obtain ⟨line, m', hlexes, hm'⟩ := hm.lexes_tag hmarker hsignal
    exact ⟨_, [], m', .token line (congrArg some hsignal),
      run_of_lexes hlexes (not_mem_return_tagMarkup hmarker t first) rest, hm'⟩

/-- A part is read as what it means. -/
theorem InContent.run_part (hmarker : IsMarker marker) {segment : Segment} {part : Part}
    (hsegment : segment.IsWritten) (hfits : segment.FitsIn raw) (hpart : segment.Becomes part)
    (hm : InContent m raw (pending.flatMap (Piece.rendered marker))) (first : Nat)
    (hrest : ∀ chars, segment = .text chars → IsCut marker rest) :
    ∃ tokens next m',
      part.Gives marker first (readsReferences (contentIn raw)) pending tokens next ∧
      run 0 m (unifyLineEnds (part.markup marker first ++ rest)) =
        tokens ++ run 0 m' (unifyLineEnds rest) ∧
      InContent m' (segment.rawAfter raw) (next.flatMap (Piece.rendered marker)) := by
  cases hpart with
  | text chars =>
    obtain ⟨m', hrun, hm'⟩ :=
      hm.run_content hmarker (beginsNone_unescaped hsegment.2.2) (hrest chars rfl)
    refine ⟨[], _, m', .piece rfl, hrun, ?_⟩
    rw [List.flatMap_append, List.flatMap_singleton]
    exact hm'
  | @mustache before source after tag hread =>
    cases raw with
    | none =>
      obtain ⟨tokens, next, m', hgives, hrun, hm'⟩ :=
        (inContent_none.1 hm).run_mustache hmarker tag first _ rest
      exact ⟨tokens, next, m', hgives, hrun, inContent_none.2 hm'⟩
    | some element =>
      -- Of the markers only holes are read as what they mean in raw content.
      obtain ⟨next, m', hgives, hrun, hm'⟩ := hm.run_hole hmarker
        (hfits nofun tag hread) first _ rest
      exact ⟨[], next, m', hgives, hrun, hm'⟩
  | comment form value =>
    cases hfits
    obtain ⟨m', hrun, hm'⟩ := (inContent_none.1 hm).run_comment hsegment rest
    refine ⟨_, [], m', .token 0 rfl, hrun.trans ?_, inContent_none.2 hm'⟩
    rw [List.append_assoc]
    rfl
  | doctype chars =>
    cases hfits
    obtain ⟨m', hrun, hm'⟩ := (inContent_none.1 hm).run_doctype hsegment.1 hsegment.2 rest
    exact ⟨[], pending, m', .nothing rfl, hrun, inContent_none.2 hm'⟩
  | @opening tag slots _ =>
    cases hfits
    obtain ⟨line, m', hrun, hm'⟩ :=
      (inContent_none.1 hm).run_tag hmarker hsegment.1 hsegment.2 first rest
    refine ⟨_, [], m', .token line rfl, hrun.trans ?_, hm'.inContent⟩
    rw [List.append_assoc]
    rfl
  | closing name blanks =>
    have hclosing : ∃ line m', run 0 m (unifyLineEnds ((Segment.closing name blanks).source ++
        rest)) = textTokens (pending.flatMap (Piece.rendered marker)) ++
          .endTag (smallName name) line :: run 0 m' (unifyLineEnds rest) ∧ InText m' [] := by
      cases raw with
      | none => exact (inContent_none.1 hm).run_closing hsegment.1 hsegment.2 rest
      | some element => exact hm.run_closing hsegment.1 (hfits element rfl) hsegment.2 rest
    obtain ⟨line, m', hrun, hm'⟩ := hclosing
    refine ⟨_, [], m', .token line rfl, hrun.trans ?_, inContent_none.2 hm'⟩
    rw [List.append_assoc]
    rfl

/-- The markup of a document before a cut is read as what its parts mean. What is left pending
belongs to the text that follows. -/
theorem InContent.run_parts_append (hmarker : IsMarker marker) {document : List Segment}
    {parts : List Part} (hparts : List.Forall₂ Segment.Becomes document parts)
    (hdocument : IsDocument raw document)
    (hm : InContent m raw (pending.flatMap (Piece.rendered marker))) (first : Nat)
    (hrest : IsCut marker rest) :
    ∃ (tokens : List Token) (next : List Piece) (m' : Machine),
      Part.GivesAll marker raw first pending parts
        (tokens ++ textTokens (next.flatMap (Piece.rendered marker))) ∧
      run 0 m (unifyLineEnds (Part.markupOfAll marker first parts ++ rest)) =
        tokens ++ run 0 m' (unifyLineEnds rest) ∧
      InContent m' (document.foldl Segment.rawAfter raw)
        (next.flatMap (Piece.rendered marker)) := by
  induction hparts generalizing m raw pending first with
  | nil => exact ⟨[], pending, m, .nil, rfl, hm⟩
  | @cons segment part document parts hpart hparts ih =>
    have hcut : ∀ chars, segment = .text chars →
        IsCut marker (Part.markupOfAll marker (first + part.slots.length) parts ++ rest) := by
      rintro chars rfl
      cases hparts with
      | nil => exact hrest
      | @cons next _ _ _ hbecomes _ =>
        rw [Part.markupOfAll, List.append_assoc]
        refine hbecomes.isCut (fun other heq => ?_) marker _ _
        have hnext := hdocument.next next rfl
        rw [heq] at hnext
        exact hnext.2
    obtain ⟨hwritten, hfits⟩ := hdocument.head
    obtain ⟨tokens, next, m', hgives, hrun, hm'⟩ :=
      hm.run_part hmarker hwritten hfits hpart first hcut
    obtain ⟨others, last, m'', hall, hothers, hm''⟩ :=
      ih hdocument.tail hm' (first + part.slots.length)
    rw [← hpart.rawAfter] at hall
    refine ⟨tokens ++ others, last, m'', ?_, ?_, hm''⟩
    · rw [List.append_assoc]
      exact .cons hgives hall
    · rw [Part.markupOfAll, List.append_assoc, hrun, hothers, List.append_assoc]

theorem InContent.run_parts (hmarker : IsMarker marker) {document : List Segment}
    {parts : List Part} (hparts : List.Forall₂ Segment.Becomes document parts)
    (hdocument : IsDocument raw document)
    (hm : InContent m raw (pending.flatMap (Piece.rendered marker))) (first : Nat) :
    ∃ tokens, Part.GivesAll marker raw first pending parts tokens ∧
      run 0 m (unifyLineEnds (Part.markupOfAll marker first parts)) = tokens := by
  obtain ⟨tokens, next, m', hgives, hrun, hm'⟩ :=
    hm.run_parts_append hmarker hparts hdocument first (isCut_nil marker)
  have hend : run 0 m' (unifyLineEnds []) =
      textTokens (next.flatMap (Piece.rendered marker)) := by
    show atEnd m' = _
    rw [atEnd, hm'.state]
    exact pending_eq_textTokens hm'.text
  rw [List.append_nil, hend] at hrun
  exact ⟨_, hgives, hrun⟩

end Markup.Lexer

end MustacheJsx
