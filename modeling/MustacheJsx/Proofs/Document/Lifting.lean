import MustacheJsx.Proofs.Document.Basic
import MustacheJsx.Proofs.Opening.Element

/-!
# Lifting the tags out of a document

Segment by segment, a run that succeeds writes the markup of the segment and stores its tags, in
their order. What it makes of a segment is a `Part`; the main statement is `Lifting.Ends.document`.
-/

namespace MustacheJsx

/-! ### Parts -/

/-- What lifting makes of a segment. -/
inductive Part where
  | text (chars : List Char)
  | tag (tag : Tag)
  | comment (form : CommentForm) (value : List Char)
  | doctype (chars : List Char)
  | opening (tag : SourceTag) (slots : List Slot)
  | closing (name blanks : List Char)

namespace Part

def slots : Part → List Slot
  | .tag t => t.slots
  | .opening _ slots => slots
  | _ => []

/-- A part as markup holds it, if its first tag has the index `first`. -/
def markup (marker : Char) (first : Nat) : Part → List Char
  | .text chars => chars
  | .tag t => t.markup marker first
  | .comment form value => form.opening ++ (value ++ form.closing)
  | .doctype chars => '<' :: '!' :: (chars ++ ['>'])
  | .opening written _ => written.markup marker first
  | .closing name blanks => '<' :: '/' :: (name ++ (blanks ++ ['>']))

def markupOfAll (marker : Char) (first : Nat) : List Part → List Char
  | [] => []
  | part :: parts =>
    part.markup marker first ++ markupOfAll marker (first + part.slots.length) parts

end Part

inductive Segment.Becomes : Segment → Part → Prop where
  | text (chars : List Char) : Becomes (.text chars) (.text (unescaped chars))
  | mustache {before source after : List Char} {tag : Tag} : IsTagReadAs source tag →
      Becomes (.mustache before source after) (.tag tag)
  | comment (form : CommentForm) (value : List Char) :
      Becomes (.comment form value) (.comment form value)
  | doctype (chars : List Char) : Becomes (.doctype chars) (.doctype chars)
  | opening {tag : SourceTag} {slots : List Slot} : List.Forall₂ TakesSlot tag.mustaches slots →
      Becomes (.opening tag) (.opening tag slots)
  | closing (name blanks : List Char) : Becomes (.closing name blanks) (.closing name blanks)

/-! ### Text that begins nothing -/

theorem exists_of_staysText {cs : List Char} (h : staysText cs = true) :
    ∃ c rest, cs = c :: rest ∧ Text.isAsciiLetter c = false ∧ c ≠ '!' ∧ c ≠ '/' ∧ c ≠ '?' := by
  cases cs with
  | nil => cases h
  | cons c rest =>
    simp only [staysText, Bool.and_eq_true, Bool.not_eq_true', List.contains_eq_mem,
      decide_eq_false_iff_not, List.mem_cons, not_or] at h
    obtain ⟨hletter, hbang, hslash, hquestion, -⟩ := h
    exact ⟨c, rest, rfl, hletter, hbang, hslash, hquestion⟩

theorem beginsNone_tail {c : Char} {cs : List Char} (h : beginsNone (c :: cs) = true) :
    beginsNone cs = true := (Bool.and_eq_true_iff.1 h).2

theorem staysText_of_beginsNone {cs : List Char} (h : beginsNone ('<' :: cs) = true) :
    staysText cs = true := (Bool.and_eq_true_iff.1 h).1

theorem beginsNone_cons {c : Char} {cs : List Char} (hless : c = '<' → staysText cs = true)
    (h : beginsNone cs = true) : beginsNone (c :: cs) = true := by
  by_cases hc : c = '<'
  · simp [beginsNone, hless hc, h]
  · simp [beginsNone, hc, h]

theorem beginsNone_of_not_mem {cs : List Char} (h : '<' ∉ cs) : beginsNone cs = true := by
  induction cs with
  | nil => rfl
  | cons c cs ih =>
    exact beginsNone_cons (fun hc => absurd (hc ▸ List.mem_cons_self) h)
      (ih fun hmem => h (List.mem_cons_of_mem c hmem))

/-! ### What no tag stands in -/

theorem isPrefix_of_not_mem {α : Type} {word xs ys : List α} {a : α} (h : word <+: xs ++ a :: ys)
    (ha : a ∉ word) : word <+: xs := by
  induction xs generalizing word with
  | nil =>
    cases word with
    | nil => exact List.nil_prefix
    | cons b word =>
      obtain ⟨rfl, -⟩ := List.cons_prefix_cons.1 h
      exact absurd List.mem_cons_self ha
  | cons x xs ih =>
    cases word with
    | nil => exact List.nil_prefix
    | cons b word =>
      obtain ⟨rfl, hrest⟩ := List.cons_prefix_cons.1 h
      exact (List.prefix_cons_inj b).2 (ih hrest fun hmem => ha (List.mem_cons_of_mem b hmem))

theorem IsDeclared.cons_ne {chars : List Char} (h : IsDeclared chars) {c : Char}
    (hc : c ≠ '<' ∧ c ≠ '{') : ∀ d ∈ c :: chars, d ≠ '<' ∧ d ≠ '{' :=
  List.forall_mem_cons.2 ⟨hc, fun d hd => ⟨(h d hd).1, (h d hd).2.2⟩⟩

theorem not_dashes_of_isDoctype {chars : List Char} (h : isDoctype chars = true) :
    ¬ ['-', '-'] <+: chars := by
  rintro ⟨cs, rfl⟩
  rw [isDoctype, beq_iff_eq] at h
  cases h

/-- What between `<` and `>` is neither a tag nor a comment between dashes, and holds no tag. -/
structure IsBracketed (chars : List Char) : Prop where
  head : ∃ c ∈ chars.head?, Text.isAsciiLetter c = false
  dashes : ¬ ['!', '-', '-'] <+: chars
  chars : ∀ c ∈ chars, c ≠ '<' ∧ c ≠ '{'

theorem exists_isBracketed_comment {form : CommentForm} (hform : form ≠ .dashes)
    {value : List Char} (hvalue : form.Admits value) :
    ∃ chars, (Segment.comment form value).source = '<' :: (chars ++ ['>']) ∧
      IsBracketed chars := by
  cases form with
  | dashes => exact absurd rfl hform
  | bang =>
    obtain ⟨hdeclared, hdashes, -⟩ := hvalue
    exact ⟨'!' :: value, rfl, ⟨'!', rfl, rfl⟩,
      fun hbegin => hdashes ((List.prefix_cons_inj '!').1 hbegin), hdeclared.cons_ne (by decide)⟩
  | question =>
    obtain ⟨hdeclared, hhead⟩ := hvalue
    obtain ⟨cs, rfl⟩ := List.head?_eq_some_iff.1 hhead
    exact ⟨'?' :: cs, rfl, ⟨'?', rfl, rfl⟩,
      fun hbegin => (nomatch (List.cons_prefix_cons.1 hbegin).1),
      fun c hc => ⟨(hdeclared c hc).1, (hdeclared c hc).2.2⟩⟩
  | slash =>
    exact ⟨'/' :: value, rfl, ⟨'/', rfl, rfl⟩,
      fun hbegin => (nomatch (List.cons_prefix_cons.1 hbegin).1), hvalue.1.cons_ne (by decide)⟩

theorem isBracketed_doctype {chars : List Char} (hlead : isDoctype chars = true)
    (hchars : IsDeclared chars) : IsBracketed ('!' :: chars) where
  head := ⟨'!', rfl, rfl⟩
  dashes hbegin := not_dashes_of_isDoctype hlead ((List.prefix_cons_inj '!').1 hbegin)
  chars := hchars.cons_ne (by decide)

theorem source_closing (name blanks : List Char) :
    (Segment.closing name blanks).source = '<' :: ('/' :: (name ++ blanks) ++ ['>']) := by
  simp [Segment.source]

theorem isBracketed_closing {name blanks : List Char} (hname : IsClosingName name)
    (hblanks : ∀ c ∈ blanks, Text.isAsciiBlank c = true) :
    IsBracketed ('/' :: (name ++ blanks)) where
  head := ⟨'/', rfl, rfl⟩
  dashes hbegin := nomatch (List.cons_prefix_cons.1 hbegin).1
  chars := by
    refine List.forall_mem_cons.2 ⟨by decide, List.forall_mem_append.2 ⟨fun c hc => ?_,
      fun c hc => ?_⟩⟩
    · exact ⟨fun heq => hname.less (heq ▸ hc),
        (isNamePart_of_isTagNameChar (hname.chars.2 c hc)).brace⟩
    · exact ⟨Lifting.ne_of_isAsciiBlank (hblanks c hc) (by decide),
        (Lifting.ne_of_blank (hblanks c hc)).2.2.2.1⟩

namespace Lifting

section

variable {marker : Char} {st st' final : Lifting} {slots : List Slot} {markup : List Char}
  {blocks : List String} {rest : List Char}

/-! ### Text -/

theorem Ends.stepText {c : Char} {written : List Char} (cs : List Char)
    (h : Ends marker st (c :: (cs ++ rest)) final) (hplain : ¬ BeginsTag (c :: (cs ++ rest)))
    (hst : Holds st slots markup blocks none)
    (hstep : st.stepText c (cs ++ rest) = (st.write written, cs.length + 1)) :
    ∃ st', Ends marker st' rest final ∧ Holds st' slots (markup ++ written) blocks none := by
  have hends := h.plain hplain
  rw [stepPlain, hst.tag] at hends
  dsimp only at hends
  rw [hstep, Nat.add_sub_cancel, List.drop_left] at hends
  exact ⟨_, hends, hst.write written⟩

theorem Ends.textChar {c : Char} (h : Ends marker st (c :: rest) final)
    (hplain : ¬ BeginsTag (c :: rest)) (hless : c ≠ '<')
    (hst : Holds st slots markup blocks none) :
    ∃ st', Ends marker st' rest final ∧ Holds st' slots (markup ++ [c]) blocks none :=
  h.stepText [] hplain hst (stepText_plain hless st _)

theorem Ends.escape (h : Ends marker st ('\\' :: '{' :: '{' :: rest) final)
    (hst : Holds st slots markup blocks none) :
    ∃ st', Ends marker st' rest final ∧ Holds st' slots (markup ++ ['{', '{']) blocks none := by
  obtain ⟨offset, st', count, hstep, hends⟩ := h.step
  cases hstep
  exact ⟨_, hends, hst.write ['{', '{']⟩

theorem not_beginsTag_of_opensNone {c : Char} {cs : List Char}
    (hescape : ∀ ds, c = '\\' → cs ≠ '{' :: '{' :: ds) (hbraces : ∀ ds, c = '{' → cs ≠ '{' :: ds)
    (hbefore : (Segment.text (c :: cs)).Before rest) : ¬ BeginsTag (c :: (cs ++ rest)) := by
  rintro (⟨tail, heq⟩ | ⟨tail, heq⟩)
  · cases cs with
    | nil =>
      cases heq
      exact (hbefore rfl '{' rfl).1 rfl
    | cons d cs =>
      cases heq
      exact hbraces cs rfl rfl
  · cases cs with
    | nil =>
      cases heq
      exact (hbefore rfl '\\' rfl).2 rfl
    | cons d cs =>
      cases cs with
      | nil =>
        cases heq
        exact (hbefore rfl '{' rfl).1 rfl
      | cons e cs =>
        cases heq
        exact hescape cs rfl rfl

theorem before_tail {c : Char} {cs : List Char} (h : (Segment.text (c :: cs)).Before rest) :
    (Segment.text cs).Before rest :=
  fun hrest d hd => h hrest d (getLast?_of_tail hd)

theorem stepText_lessThan {c : Char} (hletter : Text.isAsciiLetter c = false)
    (hcomment : Text.afterLead? "<!--".toList ('<' :: c :: rest) = none) (st : Lifting) :
    st.stepText '<' (c :: rest) = (st.write ['<'], 1) := by
  rw [Lifting.stepText.eq_def, hcomment]
  exact if_neg (Bool.eq_false_iff.1 hletter)

theorem Ends.lessThan {c : Char} (h : Ends marker st ('<' :: c :: rest) final)
    (hletter : Text.isAsciiLetter c = false)
    (hcomment : Text.afterLead? "<!--".toList ('<' :: c :: rest) = none)
    (hst : Holds st slots markup blocks none) :
    ∃ st', Ends marker st' (c :: rest) final ∧ Holds st' slots (markup ++ ['<']) blocks none :=
  h.stepText [] (not_beginsTag_of_ne (by decide) (by decide)) hst
    (stepText_lessThan hletter hcomment st)

theorem stepText_textLess {cs : List Char} (hstays : staysText cs = true) (rest : List Char)
    (st : Lifting) : st.stepText '<' (cs ++ rest) = (st.write ['<'], 1) := by
  obtain ⟨c, cs, rfl, hletter, hbang, -, -⟩ := exists_of_staysText hstays
  have hopen : "<!--".toList = ['<', '!', '-', '-'] := by decide
  have hcomment : Text.afterLead? "<!--".toList ('<' :: c :: (cs ++ rest)) = none := by
    rw [hopen]
    simp [Text.afterLead?, Ne.symm hbang]
  exact stepText_lessThan hletter hcomment st

theorem Ends.textLess {cs : List Char} (h : Ends marker st ('<' :: (cs ++ rest)) final)
    (hstays : staysText cs = true) (hst : Holds st slots markup blocks none) :
    ∃ st', Ends marker st' (cs ++ rest) final ∧ Holds st' slots (markup ++ ['<']) blocks none :=
  h.stepText [] (not_beginsTag_of_ne (by decide) (by decide)) hst
    (stepText_textLess hstays rest st)

theorem Ends.textSegment {chars : List Char} (h : Ends marker st (chars ++ rest) final)
    (hopens : opensNone chars = true) (hbegins : beginsNone chars = true)
    (hbefore : (Segment.text chars).Before rest) (hst : Holds st slots markup blocks none) :
    ∃ st', Ends marker st' rest final ∧
      Holds st' slots (markup ++ unescaped chars) blocks none := by
  fun_induction opensNone chars generalizing st markup with
  | case1 cs ih =>
    obtain ⟨middle, hmiddle, hholds⟩ := Ends.escape h hst
    obtain ⟨st', hends, hst'⟩ := ih hmiddle hopens
      (beginsNone_tail (beginsNone_tail (beginsNone_tail hbegins)))
      (before_tail (before_tail (before_tail hbefore))) hholds
    refine ⟨st', hends, ?_⟩
    rw [unescaped]
    simpa using hst'
  | case2 cs => cases hopens
  | case3 c cs hescape hbraces ih =>
    have hplain : ¬ BeginsTag (c :: (cs ++ rest)) :=
      not_beginsTag_of_opensNone hescape hbraces hbefore
    obtain ⟨middle, hmiddle, hholds⟩ : ∃ middle, Ends marker middle (cs ++ rest) final ∧
        Holds middle slots (markup ++ [c]) blocks none := by
      by_cases hc : c = '<'
      · subst hc
        exact Ends.textLess h (staysText_of_beginsNone hbegins) hst
      · exact Ends.textChar h hplain hc hst
    obtain ⟨st', hends, hst'⟩ := ih hmiddle hopens (beginsNone_tail hbegins)
      (before_tail hbefore) hholds
    refine ⟨st', hends, ?_⟩
    rw [unescaped]
    · simpa using hst'
    · exact hescape
  | case4 =>
    refine ⟨st, h, ?_⟩
    rw [unescaped, List.append_nil]
    exact hst

theorem unescaped_of_not_mem {chars : List Char} (h : '{' ∉ chars) :
    unescaped chars = chars ∧ opensNone chars = true := by
  have hbrace : ∀ {c : Char} {cs ds : List Char}, '{' ∉ c :: cs → cs ≠ '{' :: ds := by
    rintro c _ ds h rfl
    exact h (List.mem_cons_of_mem c List.mem_cons_self)
  induction chars with
  | nil => exact ⟨rfl, rfl⟩
  | cons c cs ih =>
    obtain ⟨hsame, hopens⟩ := ih fun hmem => h (List.mem_cons_of_mem c hmem)
    rw [unescaped, opensNone]
    · exact ⟨congrArg (c :: ·) hsame, hopens⟩
    · exact fun _ _ => hbrace h
    · exact fun _ _ => hbrace h
    · exact fun _ _ => hbrace h

theorem Ends.verbatim (chars : List Char) (h : Ends marker st (chars ++ '>' :: rest) final)
    (hchars : ∀ c ∈ chars, c ≠ '<' ∧ c ≠ '{') (hst : Holds st slots markup blocks none) :
    ∃ st', Ends marker st' rest final ∧
      Holds st' slots (markup ++ (chars ++ ['>'])) blocks none := by
  have hall : ∀ c ∈ chars ++ ['>'], c ≠ '<' ∧ c ≠ '{' := by
    intro c hc
    rcases List.mem_append.1 hc with hc | hc
    · exact hchars c hc
    · cases List.mem_singleton.1 hc
      decide
  obtain ⟨hsame, hopens⟩ := unescaped_of_not_mem fun hmem => (hall '{' hmem).2 rfl
  have hlast : (Segment.text (chars ++ ['>'])).Before rest := by
    intro _ c hc
    rw [List.getLast?_concat] at hc
    cases hc
    decide
  rw [← List.singleton_append, ← List.append_assoc] at h
  have hends := h.textSegment hopens
    (beginsNone_of_not_mem fun hmem => (hall '<' hmem).1 rfl) hlast hst
  rwa [hsame] at hends

theorem afterLead?_bracketed {chars : List Char} (hdashes : ¬ ['!', '-', '-'] <+: chars)
    (rest : List Char) :
    Text.afterLead? "<!--".toList ('<' :: (chars ++ '>' :: rest)) = none := by
  refine Option.eq_none_iff_forall_not_mem.2 fun after hafter => hdashes ?_
  have hopen : "<!--".toList = '<' :: ['!', '-', '-'] := by decide
  have hlead := Text.afterLead?_eq_some_iff.1 hafter
  rw [hopen] at hlead
  exact isPrefix_of_not_mem ⟨after, (List.cons_injective.eq_iff.1 hlead).symm⟩ (by decide)

/-- What no tag stands in between `<` and `>` is written as it is, if it begins none itself. -/
theorem Ends.bracketed {chars : List Char} (hbracketed : IsBracketed chars)
    (h : Ends marker st ('<' :: (chars ++ ['>']) ++ rest) final)
    (hst : Holds st slots markup blocks none) :
    ∃ st', Ends marker st' rest final ∧
      Holds st' slots (markup ++ '<' :: (chars ++ ['>'])) blocks none := by
  have hsource : '<' :: (chars ++ ['>']) ++ rest = '<' :: (chars ++ '>' :: rest) := by simp
  rw [hsource] at h
  have hcomment := afterLead?_bracketed hbracketed.dashes rest
  obtain ⟨c, hc, hletter⟩ := hbracketed.head
  obtain ⟨cs, rfl⟩ := List.head?_eq_some_iff.1 hc
  obtain ⟨middle, hmiddle, hholds⟩ := Ends.lessThan h hletter hcomment hst
  obtain ⟨st', hends, hst'⟩ := Ends.verbatim (c :: cs) hmiddle hbracketed.chars hholds
  rw [List.append_assoc] at hst'
  exact ⟨st', hends, hst'⟩

/-! ### Comments, doctypes and closing tags -/

theorem stepText_dashed {value : List Char} (hvalue : Markup.Lexer.IsCommentBody value)
    (rest : List Char) (st : Lifting) :
    st.stepText '<' ('!' :: '-' :: '-' :: (value ++ ['-', '-', '>']) ++ rest) =
      (st.write (Segment.comment .dashes value).source,
        ('!' :: '-' :: '-' :: (value ++ ['-', '-', '>'])).length + 1) := by
  have hopen : "<!--".toList = ['<', '!', '-', '-'] := by decide
  have hclose : "-->".toList = ['-', '-', '>'] := by decide
  have hlead : Text.afterLead? ['<', '!', '-', '-']
      ('<' :: ('!' :: '-' :: '-' :: (value ++ ['-', '-', '>']) ++ rest)) =
      some (value ++ ['-', '-', '>'] ++ rest) := Text.afterLead?_eq_some_iff.2 rfl
  have hcut : Text.cutAt? ['-', '-', '>']
      ('<' :: ('!' :: '-' :: '-' :: (value ++ ['-', '-', '>']) ++ rest)) =
      some ('<' :: '!' :: '-' :: '-' :: value, rest) :=
    (Text.cutAt?_eq_some_iff (List.cons_ne_nil _ _)).2 ⟨by simp, hvalue.dashes⟩
  rw [Lifting.stepText.eq_def, hopen, hlead]
  dsimp only
  rw [hclose, hcut]
  simp [Segment.source, CommentForm.opening, CommentForm.closing]

theorem Ends.dashed {value : List Char} (hvalue : Markup.Lexer.IsCommentBody value)
    (h : Ends marker st ((Segment.comment .dashes value).source ++ rest) final)
    (hst : Holds st slots markup blocks none) :
    ∃ st', Ends marker st' rest final ∧
      Holds st' slots (markup ++ (Segment.comment .dashes value).source) blocks none :=
  Ends.stepText ('!' :: '-' :: '-' :: (value ++ ['-', '-', '>'])) h
    (not_beginsTag_of_ne (by decide) (by decide)) hst (stepText_dashed hvalue rest st)

theorem Ends.comment {form : CommentForm} {value : List Char} (hvalue : form.Admits value)
    (h : Ends marker st ((Segment.comment form value).source ++ rest) final)
    (hst : Holds st slots markup blocks none) :
    ∃ st', Ends marker st' rest final ∧
      Holds st' slots (markup ++ (Segment.comment form value).source) blocks none := by
  by_cases hform : form = .dashes
  · subst hform
    exact Ends.dashed hvalue h hst
  · obtain ⟨chars, hsource, hbracketed⟩ := exists_isBracketed_comment hform hvalue
    rw [hsource] at h ⊢
    exact Ends.bracketed hbracketed h hst

theorem Ends.doctype {chars : List Char} (hlead : isDoctype chars = true)
    (hchars : IsDeclared chars) (h : Ends marker st ((Segment.doctype chars).source ++ rest) final)
    (hst : Holds st slots markup blocks none) :
    ∃ st', Ends marker st' rest final ∧
      Holds st' slots (markup ++ (Segment.doctype chars).source) blocks none :=
  Ends.bracketed (isBracketed_doctype hlead hchars) h hst

theorem Ends.closing {name blanks : List Char} (hname : IsClosingName name)
    (hblanks : ∀ c ∈ blanks, Text.isAsciiBlank c = true)
    (h : Ends marker st ((Segment.closing name blanks).source ++ rest) final)
    (hst : Holds st slots markup blocks none) :
    ∃ st', Ends marker st' rest final ∧
      Holds st' slots (markup ++ (Segment.closing name blanks).source) blocks none := by
  rw [source_closing] at h ⊢
  exact Ends.bracketed (isBracketed_closing hname hblanks) h hst

/-! ### Mustaches -/

theorem Holds.of_writeInText (hst : Holds st slots markup blocks none) {tag : Tag}
    (h : st.writeInText marker tag = .ok st') :
    ∃ blocks', Holds st' (slots ++ tag.slots) (markup ++ tag.markup marker slots.length) blocks'
      none := by
  cases tag with
  | expression m =>
    cases h
    exact ⟨blocks, hst.writeHole marker _⟩
  | partialCall call =>
    cases h
    exact ⟨blocks, hst.writeHole marker _⟩
  | comment value =>
    obtain ⟨hstore, hafter⟩ := hst.store (.comment value)
    rw [Lifting.writeInText, hstore] at h
    cases h
    exact ⟨blocks, hafter.write _⟩
  | openBlock head =>
    obtain ⟨hstore, hafter⟩ := hst.store (.block head)
    rw [Lifting.writeInText, hstore] at h
    cases h
    exact ⟨_, (hafter.write _).setBlocks _⟩
  | elseBranch chain =>
    rw [Lifting.writeInText.eq_def] at h
    dsimp only at h
    split at h
    · cases h
    · cases chain with
      | some head =>
        obtain ⟨hstore, hafter⟩ := hst.store (.elseIf head)
        dsimp only at h
        rw [hstore] at h
        cases h
        exact ⟨blocks, hafter.write _⟩
      | none =>
        cases h
        rw [Tag.slots, List.append_nil]
        exact ⟨blocks, hst.write _⟩
  | closeBlock name =>
    rw [Lifting.writeInText.eq_def] at h
    dsimp only at h
    split at h
    · cases h
    · split at h
      · cases h
        rw [Tag.slots, List.append_nil]
        exact ⟨_, (hst.write _).setBlocks _⟩
      · cases h

theorem dropWhile_append_of_forall {p : Char → Bool} {cs ds : List Char}
    (h : ∀ c ∈ cs, p c = true) (hhead : ∀ d ∈ ds.head?, p d = false) :
    (cs ++ ds).dropWhile p = ds := by
  rw [List.dropWhile_append_of_pos h]
  cases ds with
  | nil => rfl
  | cons d ds => exact List.dropWhile_cons_of_neg (Bool.eq_false_iff.1 (hhead d rfl))

theorem Ends.mustacheSegment {before source after : List Char}
    (hsource : IsWholeMustache source) (hbefore : IsDropped (stripsLeft source) before)
    (hafter : IsDropped (stripsRight source) after)
    (hmarkup : stripsLeft source = true → ∀ c ∈ markup.getLast?, Text.isBlank c = false)
    (hrest : stripsRight source = true → ∀ c ∈ rest.head?, Text.isBlank c = false)
    (h : Ends marker st (before ++ (source ++ (after ++ rest))) final)
    (hst : Holds st slots markup blocks none) :
    ∃ st' tag blocks', Ends marker st' rest final ∧ IsTagReadAs source tag ∧
      Holds st' (slots ++ tag.slots) (markup ++ tag.markup marker slots.length) blocks' none := by
  obtain ⟨⟨tail, rfl⟩, span, hspan, hend⟩ := hsource
  rw [stripsLeft, hspan] at hbefore hmarkup
  rw [stripsRight, hspan] at hafter hrest
  -- The blanks before the mustache are written, and dropped again.
  have hne : ∀ c ∈ before, c ≠ '<' ∧ c ≠ '{' ∧ c ≠ '\\' := by
    intro c hc
    have hblank := hbefore.1 c hc
    refine ⟨?_, ?_, ?_⟩ <;> rintro rfl <;> cases hblank
  obtain ⟨hsame, hopens⟩ := unescaped_of_not_mem fun hmem => (hne '{' hmem).2.1 rfl
  obtain ⟨middle, hmiddle, hholds⟩ := h.textSegment hopens
    (beginsNone_of_not_mem fun hmem => (hne '<' hmem).1 rfl)
    (fun _ c hc => (hne c (List.mem_of_getLast? hc)).2) hst
  rw [hsame] at hholds
  obtain ⟨offset, st', count, hstep, hends⟩ := Ends.step (c := '{') hmiddle
  have hmustache : stepMustache marker middle (['{', '{'] ++ tail ++ (after ++ rest)) offset =
      .ok (st', count) := hstep
  obtain ⟨span', tag, next, hread, htag, htext, -⟩ := stepMustache_cases hmustache
  rw [Span.read_append hspan (after ++ rest)] at hread
  cases hread
  obtain ⟨hwritten, rfl⟩ := htext hholds.tag
  dsimp only at hwritten htag
  have hkept : (if span.stripLeft then middle.markup.dropWhile Text.isBlank else middle.markup) =
      markup.reverse := by
    rw [hholds.markup, List.reverse_append]
    split
    · next hstrip =>
      refine dropWhile_append_of_forall (fun c hc => hbefore.1 c (List.mem_reverse.1 hc)) ?_
      rw [List.head?_reverse]
      exact hmarkup hstrip
    · next hstrip => rw [hbefore.2 (Bool.eq_false_iff.2 hstrip), List.reverse_nil, List.nil_append]
  rw [hkept] at hwritten
  have hcleared : Holds { middle with next, markup := markup.reverse } slots markup blocks none :=
    ⟨rfl, hholds.placeholders, hholds.unquoted, hholds.blocks, hholds.tag⟩
  obtain ⟨blocks', hst'⟩ := hcleared.of_writeInText hwritten
  -- So are the blanks after it.
  have hleft : (if span.stripRight then Text.trimStart (span.rest ++ (after ++ rest))
      else span.rest ++ (after ++ rest)) = rest := by
    rw [hend, List.nil_append]
    split
    · next hstrip => exact dropWhile_append_of_forall hafter.1 (hrest hstrip)
    · next hstrip => rw [hafter.2 (Bool.eq_false_iff.2 hstrip), List.nil_append]
  refine ⟨st', tag, blocks', ?_, ⟨span, _, _, _, hspan, htag⟩, hst'⟩
  rw [hleft] at hends
  have hcount : (['{', '{'] ++ tail ++ (after ++ rest)).length - rest.length - 1 =
      ('{' :: tail ++ after).length := by
    simp only [List.length_append, List.length_cons, List.length_nil]
    omega
  have hdrop : ('{' :: tail ++ (after ++ rest)).drop ('{' :: tail ++ after).length = rest := by
    rw [← List.append_assoc]
    exact List.drop_left
  rw [hcount] at hends
  rw [← hdrop]
  exact hends

/-! ### Segments -/

/-- A mustache that drops blanks drops none that the markup before it ends with. -/
def StartsAfter (markup : List Char) : Segment → Prop
  | .mustache _ source _ => stripsLeft source = true →
      ∀ c ∈ markup.getLast?, Text.isBlank c = false
  | _ => True

/-- A run that succeeds reads a segment and writes its markup. -/
theorem Ends.segment {segment : Segment} (hsegment : segment.IsWritten)
    (hbefore : segment.Before rest) (hstart : StartsAfter markup segment)
    (h : Ends marker st (segment.source ++ rest) final) (hst : Holds st slots markup blocks none) :
    ∃ st' part blocks', Ends marker st' rest final ∧ segment.Becomes part ∧
      Holds st' (slots ++ part.slots) (markup ++ part.markup marker slots.length) blocks' none := by
  have hnone : ∀ {last : Lifting} {written : List Char}, Holds last slots written blocks none →
      Holds last (slots ++ []) written blocks none := fun hlast => by rwa [List.append_nil]
  cases segment with
  | text chars =>
    obtain ⟨st', hends, hst'⟩ := h.textSegment hsegment.2.1 hsegment.2.2 hbefore hst
    exact ⟨st', _, blocks, hends, .text chars, hnone hst'⟩
  | mustache before source after =>
    obtain ⟨hsource, hdropped, hdropped'⟩ := hsegment
    rw [Segment.source, List.append_assoc, List.append_assoc] at h
    obtain ⟨st', tag, blocks', hends, htag, hst'⟩ :=
      h.mustacheSegment hsource hdropped hdropped' hstart hbefore hst
    exact ⟨st', .tag tag, blocks', hends, .mustache htag, hst'⟩
  | comment form value =>
    obtain ⟨st', hends, hst'⟩ := Ends.comment hsegment h hst
    exact ⟨st', _, blocks, hends, .comment form value, hnone hst'⟩
  | doctype chars =>
    obtain ⟨st', hends, hst'⟩ := Ends.doctype hsegment.1 hsegment.2 h hst
    exact ⟨st', _, blocks, hends, .doctype chars, hnone hst'⟩
  | opening tag =>
    obtain ⟨htag, htracked⟩ := hsegment
    obtain ⟨st', added, hends, hadded, hst'⟩ := h.tag htag htracked hst
    exact ⟨st', _, blocks, hends, .opening hadded, hst'⟩
  | closing name blanks =>
    obtain ⟨st', hends, hst'⟩ := Ends.closing hsegment.1 hsegment.2 h hst
    exact ⟨st', _, blocks, hends, .closing name blanks, hnone hst'⟩

/-! ### Documents -/

theorem source_ne_nil {segment : Segment} (h : segment.IsWritten) : segment.source ≠ [] := by
  cases segment with
  | text chars => exact h.1
  | mustache before source after =>
    obtain ⟨⟨tail, rfl⟩, -⟩ := h.1
    simp [Segment.source]
  | comment form value => cases form <;> exact List.cons_ne_nil _ _
  | _ => exact List.cons_ne_nil _ _

theorem before_append {segment : Segment} {source : List Char} (h : segment.Before source)
    (hne : source ≠ []) (rest : List Char) : segment.Before (source ++ rest) := by
  have hhead : (source ++ rest).head? = source.head? := List.head?_append_of_ne_nil _ hne
  cases segment with
  | text chars =>
    intro hrest
    rw [hhead] at hrest
    exact h hrest
  | mustache before source' after =>
    intro hstrip
    rw [hhead]
    exact h hstrip
  | _ => trivial

theorem getLast?_unescaped (chars : List Char) : (unescaped chars).getLast? = chars.getLast? := by
  fun_induction unescaped chars with
  | case1 cs ih =>
    rw [List.getLast?_cons, List.getLast?_cons, ih, List.getLast?_cons, List.getLast?_cons,
      List.getLast?_cons]
    rfl
  | case2 c cs _ ih => rw [List.getLast?_cons, List.getLast?_cons, ih]
  | case3 => rfl

theorem isBlank_getLast?_markup (hmarker : IsMarker marker) {segment : Segment} {part : Part}
    (hpart : segment.Becomes part) (htext : ∀ chars, segment ≠ .text chars) (first : Nat) :
    ∃ last, (part.markup marker first).getLast? = some last ∧ Text.isBlank last = false := by
  have hgreater : ∀ cs : List Char, ∃ last, (cs ++ ['>']).getLast? = some last ∧
      Text.isBlank last = false := fun cs => ⟨'>', List.getLast?_concat, rfl⟩
  have hhole : ∃ last, (placeholderText marker first).getLast? = some last ∧
      Text.isBlank last = false :=
    ⟨marker, by rw [placeholderText, List.getLast?_concat],
      Markup.Lexer.isBlank_of_isMarker hmarker⟩
  have hnumbered : ∀ tag, ∃ last, (numberedTag tag first).getLast? = some last ∧
      Text.isBlank last = false := fun tag =>
    ⟨'>', by simp [numberedTag, List.getLast?_cons, List.getLast?_append], rfl⟩
  cases hpart with
  | text chars => exact absurd rfl (htext chars)
  | @mustache _ _ _ tag _ =>
    cases tag with
    | expression m => exact hhole
    | partialCall call => exact hhole
    | comment value =>
      refine ⟨'>', ?_, rfl⟩
      have hclose : "-->".toList = ['-', '-', '>'] := by decide
      rw [Part.markup, Tag.markup, hclose, List.getLast?_append]
      rfl
    | openBlock head => exact hnumbered _
    | elseBranch chain =>
      cases chain with
      | none => exact hgreater _
      | some head => exact hnumbered _
    | closeBlock name => exact hgreater _
  | comment form value =>
    obtain ⟨cs, hcs⟩ : ∃ cs, form.closing = cs ++ ['>'] := by
      cases form
      · exact ⟨['-', '-'], rfl⟩
      all_goals exact ⟨[], rfl⟩
    rw [Part.markup, hcs, ← List.append_assoc, ← List.append_assoc]
    exact hgreater _
  | doctype chars => exact ⟨'>', by simp [Part.markup, List.getLast?_cons], rfl⟩
  | @opening tag _ _ =>
    obtain ⟨cs, hcs⟩ := tag.exists_markup_eq_concat marker first
    rw [Part.markup, hcs]
    exact hgreater cs
  | closing name blanks => exact ⟨'>', by simp [Part.markup, List.getLast?_cons], rfl⟩

theorem startsAfter_of_apart (hmarker : IsMarker marker) {segment next : Segment} {part : Part}
    (hsegment : segment.IsWritten) (hpart : segment.Becomes part) (happart : segment.Apart next)
    (first : Nat) : StartsAfter (markup ++ part.markup marker first) next := by
  cases next with
  | mustache before source after =>
    intro hstrip c hc
    by_cases htext : ∃ chars, segment = .text chars
    · obtain ⟨chars, rfl⟩ := htext
      cases hpart
      have hne : (unescaped chars).getLast? = chars.getLast? := getLast?_unescaped chars
      rw [Part.markup, List.getLast?_append, hne] at hc
      cases hlast : chars.getLast? with
      | none => exact absurd (List.getLast?_eq_none_iff.1 hlast) hsegment.1
      | some last =>
        rw [hlast] at hc
        cases hc
        exact happart.2 hstrip c hlast
    · obtain ⟨last, hlast, hblank⟩ := isBlank_getLast?_markup hmarker hpart
        (fun chars heq => htext ⟨chars, heq⟩) first
      rw [List.getLast?_append, hlast] at hc
      cases hc
      exact hblank
  | _ => trivial

theorem before_nil (segment : Segment) : segment.Before [] := by
  cases segment with
  | text chars => exact fun h => nomatch h
  | mustache before source after => exact fun _ _ h => nomatch h
  | _ => trivial

theorem startsAfter_mark (hmark : markup = [] ∨ markup = ['\ufeff']) (segment : Segment) :
    StartsAfter markup segment := by
  cases segment with
  | mustache before source after =>
    intro _ c hc
    rcases hmark with rfl | rfl
    · cases hc
    · cases hc
      decide
  | _ => trivial

/-- A run that succeeds reads a document and writes its markup. -/
theorem Ends.document (hmarker : IsMarker marker) {raw : Option String} {document : List Segment}
    (hdocument : IsDocument raw document)
    (hlast : ∀ segment ∈ document.getLast?, segment.Before rest)
    (hstart : ∀ segment ∈ document.head?, StartsAfter markup segment)
    (h : Ends marker st (document.flatMap Segment.source ++ rest) final)
    (hst : Holds st slots markup blocks none) :
    ∃ st' parts blocks', Ends marker st' rest final ∧
      List.Forall₂ Segment.Becomes document parts ∧
      Holds st' (slots ++ parts.flatMap Part.slots)
        (markup ++ Part.markupOfAll marker slots.length parts) blocks' none := by
  induction document generalizing raw st slots markup blocks with
  | nil => exact ⟨st, [], blocks, h, .nil, by simpa [Part.markupOfAll] using hst⟩
  | cons segment document ih =>
    have hwritten := hdocument.head.1
    have hbefore : segment.Before (document.flatMap Segment.source ++ rest) := by
      cases document with
      | nil => exact hlast segment rfl
      | cons next document =>
        have hsource := source_ne_nil hdocument.tail.head.1
        rw [List.flatMap_cons, List.append_assoc]
        exact before_append (hdocument.next next rfl).1 hsource _
    rw [List.flatMap_cons, List.append_assoc] at h
    obtain ⟨middle, part, opened, hmiddle, hpart, hholds⟩ :=
      h.segment hwritten hbefore (hstart segment rfl) hst
    obtain ⟨st', parts, blocks', hends, hparts, hst'⟩ := ih hdocument.tail
      (fun other hother => hlast other (getLast?_of_tail hother))
      (fun next hmem =>
        startsAfter_of_apart hmarker hwritten hpart (hdocument.next next hmem) _)
      hmiddle hholds
    refine ⟨st', part :: parts, blocks', hends, .cons hpart hparts, ?_⟩
    rw [List.flatMap_cons, Part.markupOfAll]
    simpa using hst'

end

end Lifting

end MustacheJsx
