import MustacheJsx.Proofs.Extraction.Steps
import MustacheJsx.Proofs.Lowering.Basic

/-!
# Lifting takes names as they come

The case of a name decides what lifting writes, but not what it reads. Two runs over a document and
over the same document with small names are in the same place after each segment and have stored the
same tags (`Lifting.Alike`), so that both fail or both succeed: `Lifted.agree_ofSource`.
-/

namespace MustacheJsx

/-- A tag does not depend on where it stands, for that is only the place of a fault. -/
theorem Tag.agree_read (content : List Char) (trusting : Bool) (offset offset' next : Nat) :
    Agree Eq (Tag.read content trusting offset next).1 (Tag.read content trusting offset' next).1 ∧
      (Tag.read content trusting offset' next).2 = (Tag.read content trusting offset next).2 := by
  rw [Tag.read.eq_def, Tag.read.eq_def]
  split
  · exact ⟨.ok rfl, rfl⟩
  · dsimp only
    cases (if trusting = true then readMustache true (Text.trim content)
      else readTrimmed (Text.trim content)).run next with
    | mk result last =>
      cases result with
      | ok tag => exact ⟨.ok rfl, rfl⟩
      | error stop => exact ⟨.error _ _, rfl⟩

namespace Lifting

/-! ### States that are alike -/

/-- Two states that have read the same tags and are at the same place in a tag, or in none. What
they have written may differ. -/
structure Alike (place : Option ValuePosition) (st st' : Lifting) : Prop where
  placeholders : st'.placeholders = st.placeholders
  unquoted : st'.unquoted = st.unquoted
  blocks : st'.blocks = st.blocks
  next : st'.next = st.next
  tag : st.tag.map OpenTag.position = place
  tag' : st'.tag.map OpenTag.position = place

namespace Alike

variable {place : Option ValuePosition} {position : ValuePosition} {st st' : Lifting}

theorem write (h : Alike place st st') (cs cs' : List Char) :
    Alike place (st.write cs) (st'.write cs') :=
  ⟨h.placeholders, h.unquoted, h.blocks, h.next, h.tag, h.tag'⟩

theorem setNext (h : Alike place st st') (next : Nat) :
    Alike place { st with next } { st' with next } :=
  ⟨h.placeholders, h.unquoted, h.blocks, rfl, h.tag, h.tag'⟩

theorem setMarkup (h : Alike place st st') (markup markup' : List Char) :
    Alike place { st with markup } { st' with markup := markup' } :=
  ⟨h.placeholders, h.unquoted, h.blocks, h.next, h.tag, h.tag'⟩

theorem setBlocks (h : Alike place st st') (blocks : List String) :
    Alike place { st with blocks } { st' with blocks } :=
  ⟨h.placeholders, h.unquoted, rfl, h.next, h.tag, h.tag'⟩

theorem setTag (h : Alike place st st') {tag tag' : OpenTag} (hposition : tag.position = position)
    (hposition' : tag'.position = position) :
    Alike (some position) { st with tag := some tag } { st' with tag := some tag' } :=
  ⟨h.placeholders, h.unquoted, h.blocks, h.next, congrArg some hposition, congrArg some hposition'⟩

theorem leaveTag (h : Alike place st st') :
    Alike none { st with tag := none } { st' with tag := none } :=
  ⟨h.placeholders, h.unquoted, h.blocks, h.next, rfl, rfl⟩

theorem store (h : Alike place st st') (placeholder : Placeholder) :
    Alike place (st.store placeholder).1 (st'.store placeholder).1 ∧
      (st'.store placeholder).2 = (st.store placeholder).2 :=
  ⟨⟨congrArg (placeholder :: ·) h.placeholders, h.unquoted, h.blocks, h.next, h.tag, h.tag'⟩,
    congrArg List.length h.placeholders⟩

theorem writeHole (h : Alike place st st') (marker : Char) (placeholder : Placeholder) :
    Alike place (st.writeHole marker placeholder) (st'.writeHole marker placeholder) :=
  (h.store placeholder).1.write _ _

theorem outside (h : Alike none st st') : st.tag = none ∧ st'.tag = none :=
  ⟨Option.map_eq_none_iff.1 h.tag, Option.map_eq_none_iff.1 h.tag'⟩

theorem inside (h : Alike (some position) st st') :
    ∃ tag tag', st.tag = some tag ∧ st'.tag = some tag' ∧ tag.position = position ∧
      tag'.position = position := by
  obtain ⟨tag, htag, hposition⟩ := Option.map_eq_some_iff.1 h.tag
  obtain ⟨tag', htag', hposition'⟩ := Option.map_eq_some_iff.1 h.tag'
  exact ⟨tag, tag', htag, htag', hposition, hposition'⟩

end Alike

/-! ### Tags that are stored -/

variable {st st' : Lifting}

theorem agree_writeInText (marker : Char) (h : Alike none st st') (tag : Tag) :
    Agree (Alike none) (st.writeInText marker tag) (st'.writeInText marker tag) := by
  cases tag with
  | expression m => exact .ok (h.writeHole marker _)
  | partialCall call => exact .ok (h.writeHole marker _)
  | comment value => exact .ok ((h.store (.comment value)).1.write _ _)
  | openBlock head =>
    have hblocks := h.blocks
    refine .ok ?_
    have hstored := ((h.store (.block head)).1.write
      (numberedTag blockTag (st.store (.block head)).2)
      (numberedTag blockTag (st'.store (.block head)).2)).setBlocks (head.name :: st.blocks)
    rw [← hblocks] at hstored ⊢
    exact hstored
  | elseBranch chain =>
    rw [writeInText.eq_def, writeInText.eq_def]
    dsimp only
    rw [h.blocks]
    split
    · exact .error _ _
    · cases chain with
      | some head => exact .ok ((h.store (.elseIf head)).1.write _ _)
      | none => exact .ok (h.write _ _)
  | closeBlock name =>
    rw [writeInText.eq_def, writeInText.eq_def]
    dsimp only
    rw [h.blocks]
    split
    · exact .error _ _
    · split
      · exact .ok ((h.write _ _).setBlocks _)
      · exact .error _ _

def afterMustache : ValuePosition → ValuePosition
  | .afterEquals => .none
  | position => position

theorem agree_writeInTag (marker : Char) {position : ValuePosition}
    (h : Alike (some position) st st')
    {tag tag' : OpenTag} (htag : tag.position = position) (htag' : tag'.position = position)
    {t : Tag} (ht : ∀ value, t ≠ .comment value) :
    Agree (Alike (some (afterMustache position))) (st.writeInTag marker tag t)
      (st'.writeInTag marker tag' t) := by
  cases t with
  | comment value => exact absurd rfl (ht value)
  | expression m =>
    rw [writeInTag, writeInTag, htag, htag']
    cases position with
    | none => exact .error _ _
    | unquoted | quoted quote => exact .ok (h.writeHole marker _)
    | afterEquals =>
      obtain ⟨hstored, hindex⟩ := h.store (.expression m)
      dsimp only
      rw [hindex]
      have hwritten := hstored.write
        ('"' :: placeholderText marker (st.store (.expression m)).2 ++ ['"'])
        ('"' :: placeholderText marker (st.store (.expression m)).2 ++ ['"'])
      exact .ok ⟨hwritten.placeholders, congrArg ((st.store (.expression m)).2 :: ·)
        hwritten.unquoted, hwritten.blocks, hwritten.next, rfl, rfl⟩
  | _ => exact .error _ _

/-! ### Runs that go on alike -/

/-- From alike states two runs agree on what is left. -/
def Continues (marker : Char) (place : Option ValuePosition) (cs cs' : List Char) : Prop :=
  ∀ st st' offset offset', Alike place st st' →
    Agree (Alike none) (run marker offset 0 st cs) (run marker offset' 0 st' cs')

variable {marker : Char} {place : Option ValuePosition} {position : ValuePosition} {c c' : Char}
  {cs cs' rest rest' : List Char}

theorem Continues.nil : Continues marker none [] [] := fun _ _ _ _ h => .ok h

/-- What two steps lead to. -/
def Leads (marker : Char) (cs cs' : List Char) (found found' : Lifting × Nat) : Prop :=
  ∃ place, Alike place found.1 found'.1 ∧
    Continues marker place (cs.drop (found.2 - 1)) (cs'.drop (found'.2 - 1))

theorem Continues.of_step
    (h : ∀ st st' offset offset', Alike place st st' → Agree (Leads marker cs cs')
      (step marker st c cs offset) (step marker st' c' cs' offset')) :
    Continues marker place (c :: cs) (c' :: cs') := by
  intro st st' offset offset' hst
  have hstep := h st st' offset offset' hst
  rw [run, run]
  generalize step marker st c cs offset = found at hstep ⊢
  generalize step marker st' c' cs' offset' = found' at hstep ⊢
  cases hstep with
  | error e e' => exact .error e e'
  | @ok found found' hfound =>
    obtain ⟨next, hnext, hcontinues⟩ := hfound
    obtain ⟨later, hdrop⟩ := exists_run_drop cs (offset + c.utf8Size) (found.2 - 1)
    obtain ⟨later', hdrop'⟩ := exists_run_drop cs' (offset' + c'.utf8Size) (found'.2 - 1)
    dsimp only
    rw [hdrop, hdrop']
    exact hcontinues _ _ later later' hnext

theorem Continues.of_stepPlain (hplain : ¬ BeginsTag (c :: cs)) (hplain' : ¬ BeginsTag (c' :: cs'))
    (h : ∀ st st', Alike place st st' →
      Leads marker cs cs' (st.stepPlain c cs) (st'.stepPlain c' cs')) :
    Continues marker place (c :: cs) (c' :: cs') := by
  refine .of_step fun st st' offset offset' hst => ?_
  rw [step_of_not_beginsTag hplain, step_of_not_beginsTag hplain']
  exact .ok (h st st' hst)

/-! ### Text -/

/-- A stretch of text that is written as it is. -/
theorem Continues.written (stretch written : List Char)
    (hplain : ¬ BeginsTag (c :: (stretch ++ rest)) ∧ ¬ BeginsTag (c :: (stretch ++ rest')))
    (hstep : ∀ st : Lifting,
      st.stepText c (stretch ++ rest) = (st.write written, stretch.length + 1) ∧
        st.stepText c (stretch ++ rest') = (st.write written, stretch.length + 1))
    (h : Continues marker none rest rest') :
    Continues marker none (c :: (stretch ++ rest)) (c :: (stretch ++ rest')) := by
  refine .of_stepPlain hplain.1 hplain.2 fun st st' hst => ?_
  rw [stepPlain, stepPlain, hst.outside.1, hst.outside.2]
  dsimp only
  rw [(hstep st).1, (hstep st').2]
  refine ⟨none, hst.write written written, ?_⟩
  rwa [Nat.add_sub_cancel, List.drop_left, List.drop_left]

theorem Continues.escape (h : Continues marker none rest rest') :
    Continues marker none ('\\' :: '{' :: '{' :: rest) ('\\' :: '{' :: '{' :: rest') :=
  .of_step fun _ _ _ _ hst => .ok ⟨none, hst.write ['{', '{'] ['{', '{'], h⟩

theorem Continues.text {chars : List Char} (hopens : opensNone chars = true)
    (hbegins : beginsNone chars = true)
    (hbefore : (Segment.text chars).Before rest ∧ (Segment.text chars).Before rest')
    (h : Continues marker none rest rest') :
    Continues marker none (chars ++ rest) (chars ++ rest') := by
  fun_induction opensNone chars with
  | case1 cs ih =>
    exact .escape (ih hopens (beginsNone_tail (beginsNone_tail (beginsNone_tail hbegins)))
      ⟨before_tail (before_tail (before_tail hbefore.1)),
        before_tail (before_tail (before_tail hbefore.2))⟩)
  | case2 cs => cases hopens
  | case3 c cs hescape hbraces ih =>
    have hlater := ih hopens (beginsNone_tail hbegins)
      ⟨before_tail hbefore.1, before_tail hbefore.2⟩
    have hplain : ∀ {rest}, (Segment.text (c :: cs)).Before rest →
        ¬ BeginsTag (c :: (cs ++ rest)) :=
      fun hrest => not_beginsTag_of_opensNone hescape hbraces hrest
    refine Continues.written [] [c] ⟨hplain hbefore.1, hplain hbefore.2⟩ (fun st => ?_) hlater
    by_cases hc : c = '<'
    · subst hc
      have hstays := staysText_of_beginsNone hbegins
      exact ⟨stepText_textLess hstays rest st, stepText_textLess hstays rest' st⟩
    · exact ⟨stepText_plain hc st _, stepText_plain hc st _⟩
  | case4 => exact h

theorem Continues.verbatim {chars : List Char} (hchars : ∀ c ∈ chars, c ≠ '<' ∧ c ≠ '{')
    (hlast : ∀ c ∈ chars.getLast?, c ≠ '\\') (h : Continues marker none rest rest') :
    Continues marker none (chars ++ rest) (chars ++ rest') := by
  have hopens := (unescaped_of_not_mem fun hmem => (hchars '{' hmem).2 rfl).2
  have hbefore : ∀ rest, (Segment.text chars).Before rest := fun _ _ c hc =>
    ⟨(hchars c (List.mem_of_getLast? hc)).2, hlast c hc⟩
  exact .text hopens (beginsNone_of_not_mem fun hmem => (hchars '<' hmem).1 rfl)
    ⟨hbefore rest, hbefore rest'⟩ h

theorem Continues.bracketed {chars : List Char} (hchars : IsBracketed chars)
    (h : Continues marker none rest rest') :
    Continues marker none ('<' :: (chars ++ ['>']) ++ rest) ('<' :: (chars ++ ['>']) ++ rest') := by
  have hall : ∀ c ∈ chars ++ ['>'], c ≠ '<' ∧ c ≠ '{' :=
    List.forall_mem_append.2 ⟨hchars.chars, List.forall_mem_singleton.2 (by decide)⟩
  have hlast : ∀ c ∈ (chars ++ ['>']).getLast?, c ≠ '\\' := by
    intro c hc
    rw [List.getLast?_concat] at hc
    cases hc
    decide
  have hless : ∀ rest (st : Lifting),
      st.stepText '<' (chars ++ ['>'] ++ rest) = (st.write ['<'], 1) := by
    intro rest st
    have hcomment := afterLead?_bracketed hchars.dashes rest
    obtain ⟨c, hc, hletter⟩ := hchars.head
    obtain ⟨cs, rfl⟩ := List.head?_eq_some_iff.1 hc
    rw [List.append_assoc]
    exact stepText_lessThan hletter hcomment st
  exact .written [] ['<'] ⟨not_beginsTag_of_ne (by decide) (by decide),
    not_beginsTag_of_ne (by decide) (by decide)⟩ (fun st => ⟨hless rest st, hless rest' st⟩)
    (h.verbatim hall hlast)

theorem Continues.comment {form : CommentForm} {value : List Char} (hvalue : form.Admits value)
    (h : Continues marker none rest rest') :
    Continues marker none ((Segment.comment form value).source ++ rest)
      ((Segment.comment form value).source ++ rest') := by
  by_cases hform : form = .dashes
  · subst hform
    exact .written ('!' :: '-' :: '-' :: (value ++ ['-', '-', '>'])) _
      ⟨not_beginsTag_of_ne (by decide) (by decide), not_beginsTag_of_ne (by decide) (by decide)⟩
      (fun st => ⟨stepText_dashed hvalue rest st, stepText_dashed hvalue rest' st⟩) h
  · obtain ⟨chars, hsource, hbracketed⟩ := exists_isBracketed_comment hform hvalue
    rw [hsource]
    exact h.bracketed hbracketed

/-! ### Mustaches -/

def restAfter (span : Span) (cs : List Char) : List Char :=
  if span.stripRight then Text.trimStart (span.rest ++ cs) else span.rest ++ cs

theorem stepMustache_text {source : List Char} {span : Span} (hspan : Span.read source = .ok span)
    (htag : st.tag = none) (cs : List Char) (offset : Nat) :
    ∃ markup, stepMustache marker st (source ++ cs) offset =
      (Tag.read span.content span.trusting (offset + span.lead) st.next).1 >>= fun tag =>
        (writeInText marker { st with
            next := (Tag.read span.content span.trusting (offset + span.lead) st.next).2
            markup } tag).mapError (fun fault => .parse fault offset) >>= fun written =>
          .ok (written, (source ++ cs).length - (restAfter span cs).length) := by
  refine ⟨if span.stripLeft then st.markup.dropWhile Text.isBlank else st.markup, ?_⟩
  rw [stepMustache, Span.read_append hspan cs, restAfter, htag]
  simp only [Option.isNone_none, Bool.and_true]
  rfl

theorem stepMustache_tag {source : List Char} {span : Span} (hspan : Span.read source = .ok span)
    {tag : OpenTag} (htag : st.tag = some tag) (cs : List Char) (offset : Nat) :
    stepMustache marker st (source ++ cs) offset =
      (Tag.read span.content span.trusting (offset + span.lead) st.next).1 >>= fun t =>
        (writeInTag marker { st with
            next := (Tag.read span.content span.trusting (offset + span.lead) st.next).2 }
          tag t).mapError (fun fault => .parse fault offset) >>= fun written =>
          .ok (written, (source ++ cs).length - (span.rest ++ cs).length) := by
  rw [stepMustache, Span.read_append hspan cs, htag]
  simp only [Option.isNone_some, Bool.and_false]
  rfl

theorem drop_consumed (c : Char) (xs rest : List Char) :
    (xs ++ rest).drop ((c :: (xs ++ rest)).length - rest.length - 1) = rest := by
  have hcount : (c :: (xs ++ rest)).length - rest.length - 1 = xs.length := by
    simp only [List.length_append, List.length_cons]
    omega
  rw [hcount, List.drop_left]

theorem Continues.mustache {source after : List Char} (hsource : IsWholeMustache source)
    (hafter : IsDropped (stripsRight source) after)
    (hstrips : stripsRight source = true →
      (∀ c ∈ rest.head?, Text.isBlank c = false) ∧ ∀ c ∈ rest'.head?, Text.isBlank c = false)
    (h : Continues marker none rest rest') :
    Continues marker none (source ++ (after ++ rest)) (source ++ (after ++ rest')) := by
  obtain ⟨⟨tail, rfl⟩, span, hspan, hend⟩ := hsource
  rw [stripsRight, hspan] at hafter hstrips
  have hleft : ∀ {cs : List Char}, (span.stripRight = true → ∀ c ∈ cs.head?,
      Text.isBlank c = false) → restAfter span (after ++ cs) = cs := by
    intro cs hcs
    rw [restAfter, hend, List.nil_append]
    split
    · next hstrip => exact dropWhile_append_of_forall hafter.1 (hcs hstrip)
    · next hstrip => rw [hafter.2 (Bool.eq_false_iff.2 hstrip), List.nil_append]
  show Continues marker none ('{' :: ('{' :: tail ++ (after ++ rest)))
    ('{' :: ('{' :: tail ++ (after ++ rest')))
  refine .of_step fun st st' offset offset' hst => ?_
  show Agree _ (stepMustache marker st (['{', '{'] ++ tail ++ (after ++ rest)) offset)
    (stepMustache marker st' (['{', '{'] ++ tail ++ (after ++ rest')) offset')
  obtain ⟨markup, hstep⟩ := stepMustache_text hspan hst.outside.1 (after ++ rest) offset
  obtain ⟨markup', hstep'⟩ := stepMustache_text hspan hst.outside.2 (after ++ rest') offset'
  obtain ⟨htag, hnext⟩ := Tag.agree_read span.content span.trusting (offset + span.lead)
    (offset' + span.lead) st.next
  rw [hstep, hstep', hst.next, hnext, hleft fun hstrip => (hstrips hstrip).1,
    hleft fun hstrip => (hstrips hstrip).2]
  refine htag.bind fun t t' heq => ?_
  subst heq
  have hcleared := (hst.setNext
    (Tag.read span.content span.trusting (offset + span.lead) st.next).2).setMarkup markup markup'
  have hwritten := agree_writeInText marker hcleared t
  have hdrop : ∀ cs, ('{' :: tail ++ (after ++ cs)).drop
      ((['{', '{'] ++ tail ++ (after ++ cs)).length - cs.length - 1) = cs := by
    intro cs
    have hconsumed := drop_consumed '{' ('{' :: tail ++ after) cs
    rwa [List.append_assoc] at hconsumed
  refine (hwritten.mapError _ _).bind fun found found' hfound => .ok ⟨none, hfound, ?_⟩
  dsimp only
  rw [hdrop, hdrop]
  exact h

/-- A mustache in a tag is a value, since nothing else may stand there. -/
theorem Continues.mustacheInTag {source : List Char} (hsource : IsMustache source)
    (h : Continues marker (some (afterMustache position)) rest rest') :
    Continues marker (some position) (source ++ rest) (source ++ rest') := by
  obtain ⟨⟨tail, rfl⟩, span, hspan, hend, hcontent⟩ := hsource
  show Continues marker (some position) ('{' :: ('{' :: tail ++ rest))
    ('{' :: ('{' :: tail ++ rest'))
  refine .of_step fun st st' offset offset' hst => ?_
  show Agree _ (stepMustache marker st (['{', '{'] ++ tail ++ rest) offset)
    (stepMustache marker st' (['{', '{'] ++ tail ++ rest') offset')
  obtain ⟨tag, tag', hopened, hopened', hposition, hposition'⟩ := hst.inside
  rw [stepMustache_tag hspan hopened, stepMustache_tag hspan hopened']
  obtain ⟨htag, hnext⟩ := Tag.agree_read span.content span.trusting (offset + span.lead)
    (offset' + span.lead) st.next
  rw [hst.next, hnext, hend]
  cases hread : Tag.read span.content span.trusting (offset + span.lead) st.next with
  | mk result last =>
    rw [hread] at htag
    generalize (Tag.read span.content span.trusting (offset' + span.lead) st.next).1 = result'
      at htag ⊢
    cases htag with
    | error e e' => exact .error e e'
    | @ok t t' heq =>
      subst heq
      have hwritten := agree_writeInTag marker (hst.setNext last) hposition hposition'
        (Tag.ne_comment_of_read hcontent hread)
      have hdrop : ∀ cs, ('{' :: tail ++ cs).drop
          ((['{', '{'] ++ tail ++ cs).length - ([] ++ cs).length - 1) = cs :=
        drop_consumed '{' ('{' :: tail)
      refine (hwritten.mapError _ _).bind fun found found' hfound => .ok ⟨_, hfound, ?_⟩
      dsimp only
      rw [hdrop, hdrop]
      exact h

/-! ### Places in a tag -/

end Lifting

namespace ValuePosition

/-- Where in an attribute characters outside quotes lead from `position`. -/
def afterAll (position : ValuePosition) (chars : List Char) : ValuePosition :=
  chars.foldl (fun position c => position.after c) position

theorem position_foldl_after (tag : OpenTag) (chars : List Char) :
    (chars.foldl OpenTag.after tag).position = tag.position.afterAll chars := by
  induction chars generalizing tag with
  | nil => rfl
  | cons c chars ih =>
    rw [List.foldl_cons, ih, Lifting.position_after]
    rfl

theorem after_of_isNamePart {c : Char} (h : IsNamePart c) (position : ValuePosition) :
    position.after c = if position = .afterEquals then .unquoted else position := by
  cases position <;> simp [ValuePosition.after, h.double, h.single, h.equals, h.blank]

theorem after_lowerAscii (position : ValuePosition) (c : Char) :
    position.after (Text.lowerAscii c) = position.after c := by
  cases hupper : Text.isAsciiUpper c with
  | false => rw [Markup.Lexer.lowerAscii_of_not_upper hupper]
  | true =>
    have hletters : ∀ c ∈ asciiCapitals,
        isTagNameChar c = true ∧ isTagNameChar (Text.lowerAscii c) = true := by decide
    obtain ⟨hc, hlower⟩ := hletters c (mem_asciiCapitals hupper)
    rw [after_of_isNamePart (isNamePart_of_isTagNameChar hc),
      after_of_isNamePart (isNamePart_of_isTagNameChar hlower)]

end ValuePosition

namespace Lifting

variable {marker : Char} {place : Option ValuePosition} {position : ValuePosition}
  {rest rest' : List Char}

theorem Continues.tagChar {c c' : Char} {cs cs' : List Char} {next : ValuePosition}
    (hplain : ¬ BeginsTag (c :: cs) ∧ ¬ BeginsTag (c' :: cs'))
    (hstep : ∀ (st : Lifting) (tag : OpenTag), tag.position = position →
      ∃ tag', tag'.position = next ∧
        st.stepTag tag c cs = ({ st.write [c] with tag := some tag' }, 1))
    (hstep' : ∀ (st : Lifting) (tag : OpenTag), tag.position = position →
      ∃ tag', tag'.position = next ∧
        st.stepTag tag c' cs' = ({ st.write [c'] with tag := some tag' }, 1))
    (h : Continues marker (some next) cs cs') :
    Continues marker (some position) (c :: cs) (c' :: cs') := by
  refine .of_stepPlain hplain.1 hplain.2 fun st st' hst => ?_
  obtain ⟨tag, tag', hopened, hopened', hposition, hposition'⟩ := hst.inside
  obtain ⟨after, hafter, hfound⟩ := hstep st tag hposition
  obtain ⟨after', hafter', hfound'⟩ := hstep' st' tag' hposition'
  rw [stepPlain, stepPlain, hopened, hopened']
  dsimp only
  rw [hfound, hfound']
  exact ⟨some next, (hst.write [c] [c']).setTag hafter hafter', h⟩

/-- A stretch outside quotes in which the case of letters may differ. -/
theorem Continues.outside {change : Char → Char}
    (hchange : ∀ (position : ValuePosition) c, position.after (change c) = position.after c)
    {chars : List Char} (hchars : Outside chars rest) (hchars' : Outside (chars.map change) rest')
    (hquoted : ∀ q, position ≠ .quoted q)
    (h : Continues marker (some (position.afterAll chars)) rest rest') :
    Continues marker (some position) (chars ++ rest) (chars.map change ++ rest') := by
  -- Each of the two runs by itself is a run outside quotes.
  have hstep : ∀ {position : ValuePosition} {c : Char} {chars rest : List Char},
      Outside (c :: chars) rest → (∀ q, position ≠ .quoted q) → ∀ (st : Lifting) (tag : OpenTag),
        tag.position = position → ∃ tag', tag'.position = position.after c ∧
          st.stepTag tag c (chars ++ rest) = ({ st.write [c] with tag := some tag' }, 1) := by
    rintro _ c chars rest hchars hquoted st tag rfl
    refine ⟨tag.after c, position_after tag c, stepTag_outside st hquoted
      (hchars.allowed c List.mem_cons_self).1 ?_⟩
    rintro rfl hhead
    cases chars with
    | nil => exact hchars.slash hhead rfl
    | cons d chars =>
      cases hhead
      exact (hchars.allowed '>' (by simp)).1 rfl
  induction chars generalizing position with
  | nil => exact h
  | cons c chars ih =>
    obtain ⟨-, hdouble, hsingle⟩ := hchars.allowed c List.mem_cons_self
    have hnext : ∀ q, position.after c ≠ .quoted q := by
      have hread := @position_after_ne ⟨[], position, [], []⟩ c hquoted hdouble hsingle
      rwa [position_after] at hread
    have hsecond := hstep hchars' hquoted
    rw [hchange] at hsecond
    exact .tagChar ⟨not_beginsTag hchars.braces hchars.follows,
      not_beginsTag hchars'.braces hchars'.follows⟩ (hstep hchars hquoted) hsecond
      (ih hchars.tail hchars'.tail hnext h)

theorem Continues.outsideSame {chars : List Char} (hchars : Outside chars rest)
    (hchars' : Outside chars rest') (hquoted : ∀ q, position ≠ .quoted q)
    (h : Continues marker (some (position.afterAll chars)) rest rest') :
    Continues marker (some position) (chars ++ rest) (chars ++ rest') := by
  have hunchanged : Outside (chars.map id) rest' := by rwa [List.map_id]
  have hall : Continues marker (some position) (chars ++ rest) (chars.map id ++ rest') :=
    .outside (fun _ _ => rfl) hchars hunchanged hquoted h
  rwa [List.map_id] at hall

theorem Continues.inside {q : Char} {chars : List Char} (hbraces : Unbraced chars)
    (hfollows : Follows chars rest ∧ Follows chars rest') (hchars : ∀ c ∈ chars, c ≠ q)
    (h : Continues marker (some (.quoted q)) rest rest') :
    Continues marker (some (.quoted q)) (chars ++ rest) (chars ++ rest') := by
  induction chars with
  | nil => exact h
  | cons c chars ih =>
    obtain ⟨hc, hlater⟩ := List.forall_mem_cons.1 hchars
    have hstep : ∀ (rest : List Char) (st : Lifting) (tag : OpenTag), tag.position = .quoted q →
        ∃ tag', tag'.position = .quoted q ∧
          st.stepTag tag c (chars ++ rest) = ({ st.write [c] with tag := some tag' }, 1) :=
      fun rest st tag htag => ⟨tag, htag, stepTag_inside st htag hc _⟩
    exact .tagChar ⟨not_beginsTag hbraces hfollows.1, not_beginsTag hbraces hfollows.2⟩
      (hstep rest) (hstep rest') (ih hbraces.tail ⟨hfollows.1.tail, hfollows.2.tail⟩ hlater)

theorem Continues.quote {q : Char} (hq : q = '"' ∨ q = '\'') {next : ValuePosition}
    (hplace : position = .afterEquals ∧ next = .quoted q ∨ position = .quoted q ∧ next = .none)
    (h : Continues marker (some next) rest rest') :
    Continues marker (some position) (q :: rest) (q :: rest') := by
  have hplain : ∀ cs, ¬ BeginsTag (q :: cs) := by
    intro cs
    refine not_beginsTag_of_ne ?_ ?_ <;> rcases hq with rfl | rfl <;> decide
  have hstep : ∀ (cs : List Char) (st : Lifting) (tag : OpenTag), tag.position = position →
      ∃ tag', tag'.position = next ∧
        st.stepTag tag q cs = ({ st.write [q] with tag := some tag' }, 1) := by
    intro cs st tag htag
    rcases hplace with ⟨rfl, rfl⟩ | ⟨rfl, rfl⟩
    · exact ⟨_, rfl, stepTag_openQuote st hq htag cs⟩
    · exact ⟨_, rfl, stepTag_closeQuote st htag cs⟩
  exact .tagChar ⟨hplain rest, hplain rest'⟩ (hstep rest) (hstep rest') h

/-! ### Values -/

theorem Continues.valueText {quote : Option Char} {chars : List Char} (hne : chars ≠ [])
    (hbraces : Unbraced chars) (hfollows : Follows chars rest ∧ Follows chars rest')
    (hchars : ∀ c ∈ chars, isValueChar quote c = true)
    (hequals : quote = none → chars.getLast? ≠ some '=')
    (hslash : quote = none → (rest.head? = some '>' → chars.getLast? ≠ some '/') ∧
      (rest'.head? = some '>' → chars.getLast? ≠ some '/'))
    (hposition : position = valuePosition quote ∨ quote = none ∧ position = .afterEquals)
    (h : Continues marker (some (valuePosition quote)) rest rest') :
    Continues marker (some position) (chars ++ rest) (chars ++ rest') := by
  cases quote with
  | some q =>
    rcases hposition with rfl | ⟨hquote, -⟩
    · exact h.inside hbraces hfollows fun c hc => by simpa [isValueChar] using hchars c hc
    · cases hquote
  | none =>
    have hplace : position = .unquoted ∨ position = .afterEquals :=
      hposition.imp_right And.right
    have hquoted : ∀ q, position ≠ .quoted q := by
      rcases hplace with rfl | rfl <;> rintro q ⟨⟩
    have hafter : position.afterAll chars = valuePosition none := by
      have hread := ValuePosition.position_foldl_after ⟨[], position, [], []⟩ chars
      rwa [foldl_after_unquoted hne hchars (hequals rfl) hplace, eq_comm] at hread
    have houtside : ∀ {rest}, Follows chars rest →
        (rest.head? = some '>' → chars.getLast? ≠ some '/') → Outside chars rest :=
      fun hrest hlast => outside_of_isValueChar hbraces hrest hchars hlast
    rw [← hafter] at h
    exact h.outsideSame (houtside hfollows.1 (hslash rfl).1) (houtside hfollows.2 (hslash rfl).2)
      hquoted

theorem Continues.parts {quote : Option Char} {parts : List ValuePart}
    (hparts : CanRead quote parts rest) (hparts' : CanRead quote parts rest')
    (hposition : position = valuePosition quote ∨
      quote = none ∧ position = .afterEquals ∧ ∃ chars, parts.head? = some (.text chars))
    (h : Continues marker (some (valuePosition quote)) rest rest') :
    Continues marker (some position) (parts.flatMap ValuePart.source ++ rest)
      (parts.flatMap ValuePart.source ++ rest') := by
  induction parts generalizing position with
  | nil =>
    rcases hposition with rfl | ⟨-, -, chars, hhead⟩
    · exact h
    · cases hhead
  | cons part parts ih =>
    have hlater := ih hparts.tail hparts'.tail (.inl rfl)
    rw [List.flatMap_cons, List.append_assoc, List.append_assoc]
    cases part with
    | text chars =>
      obtain ⟨hne, hbraces, hchars, hequals⟩ := hparts.texts chars List.mem_cons_self
      obtain ⟨hfollows, hslash⟩ := hparts.text
      obtain ⟨hfollows', hslash'⟩ := hparts'.text
      exact hlater.valueText hne hbraces ⟨hfollows, hfollows'⟩ hchars hequals
        (fun hquote => ⟨hslash hquote, hslash' hquote⟩)
        (hposition.imp_right fun hplace => ⟨hplace.1, hplace.2.1⟩)
    | mustache source =>
      rcases hposition with rfl | ⟨-, -, chars, hhead⟩
      · refine .mustacheInTag (hparts.mustaches source List.mem_cons_self) ?_
        have hstays : afterMustache (valuePosition quote) = valuePosition quote := by
          cases quote <;> rfl
        rwa [hstays]
      · cases hhead

/-- Places after which an attribute may stand, or the end of the tag. -/
def IsBetween (position : ValuePosition) : Prop := position = .none ∨ position = .unquoted

theorem IsBetween.ne_quoted (h : IsBetween position) (q : Char) : position ≠ .quoted q := by
  rcases h with rfl | rfl <;> nofun

/-- A value after its equals sign. -/
theorem Continues.value {value : SourceValue} (hvalue : value.IsWritten)
    (htracked : value.IsTracked) (hbrace : rest.head? ≠ some '{' ∧ rest'.head? ≠ some '{')
    (hslash : value.quote = none → value.lone? = none →
      ∀ chars, value.parts.getLast? = some (.text chars) →
        (rest.head? = some '>' → chars.getLast? ≠ some '/') ∧
          (rest'.head? = some '>' → chars.getLast? ≠ some '/'))
    (h : ∀ next, IsBetween next → Continues marker (some next) rest rest') :
    Continues marker (some .afterEquals)
      (value.quote.toList ++ (value.parts.flatMap ValuePart.source ++ value.quote.toList) ++ rest)
      (value.quote.toList ++ (value.parts.flatMap ValuePart.source ++ value.quote.toList) ++
        rest') := by
  cases hlone : value.lone? with
  | some source =>
    obtain ⟨hquote, hparts⟩ := SourceValue.lone?_eq_some hlone
    have hsource := hvalue.mustaches source (by simp [hparts])
    have hnone : Continues marker (some (afterMustache .afterEquals)) rest rest' :=
      h .none (.inl rfl)
    have hall := Continues.mustacheInTag hsource hnone
    simpa [hquote, hparts, ValuePart.source] using hall
  | none =>
    cases hquote : value.quote with
    | none =>
      have hlast := hslash hquote hlone
      obtain ⟨hcan, htext⟩ := canRead_unquoted hvalue htracked hquote hlone hbrace.1
        fun hhead chars hchars => (hlast chars hchars).1 hhead
      obtain ⟨hcan', -⟩ := canRead_unquoted hvalue htracked hquote hlone hbrace.2
        fun hhead chars hchars => (hlast chars hchars).2 hhead
      have hunquoted : Continues marker (some (valuePosition none)) rest rest' :=
        h .unquoted (.inr rfl)
      have hall := hunquoted.parts hcan hcan' (.inr ⟨rfl, rfl, htext⟩)
      simpa using hall
    | some q =>
      have hq : q = '"' ∨ q = '\'' := hvalue.quote q hquote
      have hend := Continues.quote hq (.inr ⟨rfl, rfl⟩) (h .none (.inl rfl))
      have hparts := Continues.parts (canRead_quoted hvalue hquote rest)
        (canRead_quoted hvalue hquote rest') (.inl rfl) hend
      have hall := Continues.quote hq (.inl ⟨rfl, rfl⟩) hparts
      simpa using hall

/-! ### Attributes -/

theorem foldl_after_attribute {entry : SourceAttribute} (hentry : entry.IsWritten)
    (hposition : IsBetween position) :
    position.afterAll (entry.blanks ++ entry.name) = .none := by
  have hbetween : Between ⟨[], position, [], []⟩ [] [] := ⟨rfl, rfl, hposition.imp_right (⟨·, rfl⟩)⟩
  have hparts : ∀ c ∈ entry.name, IsNamePart c :=
    fun c hc => isNamePart_of_isTagNameChar (hentry.name.2 c hc)
  have hread := ValuePosition.position_foldl_after ⟨[], position, [], []⟩
    (entry.blanks ++ entry.name)
  rwa [List.foldl_append, hbetween.foldl_blanks hentry.blanks.1 hentry.blanks.2,
    foldl_after_name hparts, eq_comm] at hread

theorem Continues.attribute {entry : SourceAttribute} (hentry : entry.IsWritten)
    (htracked : ∀ value ∈ entry.value, value.IsTracked)
    (hbrace : rest.head? ≠ some '{' ∧ rest'.head? ≠ some '{')
    (hslash : SlashApart entry rest ∧ SlashApart entry rest') (hposition : IsBetween position)
    (h : ∀ next, IsBetween next → Continues marker (some next) rest rest') :
    Continues marker (some position) (entry.source ++ rest) (entry.lowered.source ++ rest') := by
  -- The blanks before the name have no capitals either.
  have hsame : (entry.blanks ++ entry.name).map Text.lowerAscii =
      entry.blanks ++ entry.lowered.name := by
    have hblank : ∀ c, Text.isAsciiBlank c = true → Text.lowerAscii c = c := by
      intro c hc
      refine Markup.Lexer.lowerAscii_of_not_upper (Bool.eq_false_iff.2 fun hupper => ?_)
      have hnone : ∀ c ∈ asciiCapitals, Text.isAsciiBlank c = false := by decide
      exact Bool.false_ne_true ((hnone c (mem_asciiCapitals hupper)).symm.trans hc)
    rw [List.map_append, List.map_congr_left fun c hc => hblank c (hentry.blanks.2 c hc),
      List.map_id', SourceAttribute.lowered, loweredName]
  have hnamed : ∀ {next next'}, next.head? ≠ some '{' → next'.head? ≠ some '{' →
      Continues marker (some .none) next next' →
        Continues marker (some position) (entry.blanks ++ entry.name ++ next)
          (entry.blanks ++ entry.lowered.name ++ next') := by
    intro next next' hnext hnext' hlater
    rw [← hsame]
    refine .outside ValuePosition.after_lowerAscii (outside_name hentry hnext) ?_
      hposition.ne_quoted ?_
    · rw [hsame]
      exact outside_name hentry.lowered hnext'
    · rwa [foldl_after_attribute hentry hposition]
  have hfirst := head?_value_ne hentry hbrace.1
  have hfirst' := head?_value_ne hentry.lowered hbrace.2
  rw [SourceAttribute.source, SourceAttribute.source, List.append_assoc, List.append_assoc,
    List.append_assoc, List.append_assoc, ← List.append_assoc,
    ← List.append_assoc entry.lowered.blanks]
  refine hnamed hfirst hfirst' ?_
  show Continues marker (some .none) ((entry.value.map SourceValue.source).getD [] ++ rest)
    ((entry.value.map SourceValue.source).getD [] ++ rest')
  cases hvalue : entry.value with
  | none => exact h .none (.inl rfl)
  | some value =>
    have hwritten := hentry.value value hvalue
    have hequals : ValuePosition.none.afterAll (value.beforeEquals ++ '=' :: value.afterEquals) =
        .afterEquals := by
      have hread := ValuePosition.position_foldl_after ⟨[], .none, [], []⟩
        (value.beforeEquals ++ '=' :: value.afterEquals)
      rwa [foldl_after_equals hwritten.beforeEquals hwritten.afterEquals, eq_comm] at hread
    have hlater := Continues.value hwritten (htracked value hvalue) hbrace
      (fun hquote hlone chars hchars =>
        ⟨fun hhead => hslash.1 value hvalue hquote hlone hhead chars hchars,
          fun hhead => hslash.2 value hvalue hquote hlone hhead chars hchars⟩) h
    rw [← hequals] at hlater
    have hnone : ∀ q, ValuePosition.none ≠ .quoted q := by rintro q ⟨⟩
    have hall := hlater.outsideSame (outside_equals hwritten _) (outside_equals hwritten _) hnone
    simpa [SourceValue.source] using hall

theorem lowered_attributes_isWritten {attributes : List SourceAttribute}
    (h : ∀ entry ∈ attributes, entry.IsWritten) :
    ∀ entry ∈ attributes.map SourceAttribute.lowered, entry.IsWritten := by
  intro entry hentry
  obtain ⟨other, hother, rfl⟩ := List.mem_map.1 hentry
  exact (h other hother).lowered

theorem Continues.attributes {attributes : List SourceAttribute}
    (hattributes : ∀ entry ∈ attributes, entry.IsWritten)
    (htracked : ∀ entry ∈ attributes, ∀ value ∈ entry.value, value.IsTracked)
    (hbrace : rest.head? ≠ some '{' ∧ rest'.head? ≠ some '{')
    (hslash : ∀ entry ∈ attributes.getLast?, SlashApart entry rest ∧ SlashApart entry rest')
    (hposition : IsBetween position)
    (h : ∀ next, IsBetween next → Continues marker (some next) rest rest') :
    Continues marker (some position) (attributes.flatMap SourceAttribute.source ++ rest)
      ((attributes.map SourceAttribute.lowered).flatMap SourceAttribute.source ++ rest') := by
  induction attributes generalizing position with
  | nil => exact h position hposition
  | cons entry attributes ih =>
    obtain ⟨hwritten, hothers⟩ := List.forall_mem_cons.1 hattributes
    obtain ⟨hfirst, hlater⟩ := List.forall_mem_cons.1 htracked
    obtain ⟨hhead, hgreater⟩ := head?_attributes hothers hbrace.1
    obtain ⟨hhead', hgreater'⟩ :=
      head?_attributes (lowered_attributes_isWritten hothers) hbrace.2
    have hlast : SlashApart entry (attributes.flatMap SourceAttribute.source ++ rest) ∧
        SlashApart entry
          ((attributes.map SourceAttribute.lowered).flatMap SourceAttribute.source ++ rest') := by
      cases attributes with
      | nil => exact hslash entry rfl
      | cons other attributes =>
        exact ⟨fun _ _ _ _ hnext => absurd hnext (hgreater (List.cons_ne_nil _ _)),
          fun _ _ _ _ hnext => absurd hnext (hgreater' (List.cons_ne_nil _ _))⟩
    rw [List.map_cons, List.flatMap_cons, List.flatMap_cons, List.append_assoc, List.append_assoc]
    exact .attribute hwritten hfirst ⟨hhead, hhead'⟩ hlast hposition fun next hnext =>
      ih hothers hlater (fun e he => hslash e (getLast?_of_tail he)) hnext

/-! ### Tags -/

theorem Continues.close {selfClosing : Bool} (hposition : IsBetween position)
    (h : Continues marker none rest rest') :
    Continues marker (some position) (tagEnd selfClosing ++ rest)
      (tagEnd selfClosing ++ rest') := by
  obtain ⟨c, cs, hend, hc⟩ : ∃ c cs, tagEnd selfClosing = c :: cs ∧ c ≠ '{' ∧ c ≠ '\\' := by
    cases selfClosing with
    | true => exact ⟨'/', ['>'], rfl, by decide⟩
    | false => exact ⟨'>', [], rfl, by decide⟩
  have hplain : ∀ cs, ¬ BeginsTag (c :: cs) := fun cs => not_beginsTag_of_ne hc.1 hc.2
  have hcons : ∀ rest, tagEnd selfClosing ++ rest = c :: (cs ++ rest) := by
    intro rest
    rw [hend, List.cons_append]
  rw [hcons, hcons]
  refine .of_stepPlain (hplain _) (hplain _) fun st st' hst => ?_
  obtain ⟨tag, tag', hopened, hopened', hread, hread'⟩ := hst.inside
  have hquoted : ∀ {tag : OpenTag}, tag.position = position → ∀ q, tag.position ≠ .quoted q := by
    rintro tag rfl
    exact hposition.ne_quoted
  rw [stepPlain_tagEnd hopened (hquoted hread) (hcons rest),
    stepPlain_tagEnd hopened' (hquoted hread') (hcons rest')]
  refine ⟨none, (hst.write _ _).leaveTag, ?_⟩
  have hdrop : ∀ rest, (cs ++ rest).drop ((tagEnd selfClosing).length - 1) = rest := by
    intro rest
    rw [hend, List.length_cons, Nat.add_sub_cancel, List.drop_left]
  dsimp only
  rwa [hdrop, hdrop]

theorem Continues.openTag {c c' : Char} {letters letters' : List Char}
    (hletter : Text.isAsciiLetter c = true ∧ Text.isAsciiLetter c' = true)
    (hname : ∀ d ∈ c :: letters, IsNamePart d) (hname' : ∀ d ∈ c' :: letters', IsNamePart d)
    (htail : ∃ d, rest.head? = some d ∧ endsTagName d = true)
    (htail' : ∃ d, rest'.head? = some d ∧ endsTagName d = true)
    (h : Continues marker (some .none) rest rest') :
    Continues marker none ('<' :: (c :: letters ++ rest)) ('<' :: (c' :: letters' ++ rest')) := by
  refine .of_stepPlain (not_beginsTag_of_ne (by decide) (by decide))
    (not_beginsTag_of_ne (by decide) (by decide)) fun st st' hst => ?_
  rw [stepPlain_openTag hletter.1 hname htail hst.outside.1,
    stepPlain_openTag hletter.2 hname' htail' hst.outside.2]
  refine ⟨some .none, (hst.write _ _).setTag rfl rfl, ?_⟩
  rwa [Nat.add_sub_cancel, Nat.add_sub_cancel, List.drop_left, List.drop_left]

theorem Continues.tag {tag : SourceTag} (htag : tag.IsWritten) (htracked : tag.IsTracked)
    (h : Continues marker none rest rest') :
    Continues marker none (tag.source ++ rest) (tag.lowered.source ++ rest') := by
  have hparts : ∀ {tag : SourceTag}, tag.IsWritten → ∀ c ∈ tag.name, IsNamePart c :=
    fun htag c hc => isNamePart_of_isTagNameChar (htag.name.2 c hc)
  have hsource : ∀ {tag : SourceTag} (_ : tag.IsWritten) (rest : List Char), ∃ c letters,
      tag.name = c :: letters ∧ Text.isAsciiLetter c = true ∧
        tag.source ++ rest = '<' :: (c :: letters ++
          (tag.attributes.flatMap SourceAttribute.source ++
            (tag.blanks ++ (tagEnd tag.selfClosing ++ rest)))) := by
    intro tag htag rest
    obtain ⟨c, letters, hname⟩ := List.exists_cons_of_ne_nil htag.name.1
    refine ⟨c, letters, hname, htag.head c (by rw [hname]; rfl), ?_⟩
    rw [SourceTag.source, hname]
    simp
  obtain ⟨c, letters, hname, hletter, hcons⟩ := hsource htag rest
  obtain ⟨c', letters', hname', hletter', hcons'⟩ := hsource htag.lowered rest'
  obtain ⟨d, hd, hbrace, -⟩ := head?_tagEnd htag.blanks tag.selfClosing rest
  obtain ⟨d', hd', hbrace', -⟩ := head?_tagEnd htag.blanks tag.selfClosing rest'
  have hend : ∀ next, IsBetween next → Continues marker (some next)
      (tag.blanks ++ (tagEnd tag.selfClosing ++ rest))
      (tag.blanks ++ (tagEnd tag.selfClosing ++ rest')) := by
    intro next hnext
    have hbetween : IsBetween (next.afterAll tag.blanks) := by
      have hread := ValuePosition.position_foldl_after ⟨[], next, [], []⟩ tag.blanks
      have hplace : Between ⟨[], next, [], []⟩ [] [] := ⟨rfl, rfl, hnext.imp_right (⟨·, rfl⟩)⟩
      rw [← hread]
      exact (hplace.blanks htag.blanks).position.imp_right And.left
    exact (h.close hbetween).outsideSame (outside_blanks htag.blanks _)
      (outside_blanks htag.blanks _) hnext.ne_quoted
  rw [hcons, hcons']
  refine .openTag ⟨hletter, hletter'⟩ (hname ▸ hparts htag) (hname' ▸ hparts htag.lowered)
    (exists_head_attributes htag.attributes htag.blanks tag.selfClosing rest)
    (exists_head_attributes htag.lowered.attributes htag.blanks tag.selfClosing rest') ?_
  refine .attributes htag.attributes htracked.values ⟨?_, ?_⟩ (fun entry hentry => ⟨?_, ?_⟩)
    (.inl rfl) hend
  · rw [hd]
    simpa using hbrace
  · show (tag.blanks ++ (tagEnd tag.selfClosing ++ rest')).head? ≠ _
    rw [hd']
    simpa using hbrace'
  · exact slashApart_tagEnd htag htracked rest entry hentry
  · exact slashApart_tagEnd htag htracked rest' entry hentry

/-! ### Documents -/

theorem Continues.segment {segment : Segment} (hsegment : segment.IsWritten)
    (hbefore : segment.Before rest ∧ segment.Before rest') (h : Continues marker none rest rest') :
    Continues marker none (segment.source ++ rest) (segment.lowered.source ++ rest') := by
  cases segment with
  | text chars => exact h.text hsegment.2.1 hsegment.2.2 hbefore
  | mustache before source after =>
    obtain ⟨hsource, hdropped, hdropped'⟩ := hsegment
    have hmustache := h.mustache hsource hdropped' fun hstrips =>
      ⟨hbefore.1 hstrips, hbefore.2 hstrips⟩
    -- The blanks before the mustache are written before it drops them.
    have hblank : ∀ c ∈ before, c ≠ '<' ∧ c ≠ '{' ∧ c ≠ '\\' := by
      intro c hc
      have hblank := hdropped.1 c hc
      refine ⟨?_, ?_, ?_⟩ <;> rintro rfl <;> cases hblank
    have hall := hmustache.verbatim (fun c hc => ⟨(hblank c hc).1, (hblank c hc).2.1⟩)
      fun c hc => (hblank c (List.mem_of_getLast? hc)).2.2
    simpa [Segment.source, Segment.lowered] using hall
  | comment form value => exact h.comment hsegment
  | doctype chars => exact h.bracketed (isBracketed_doctype hsegment.1 hsegment.2)
  | opening tag => exact h.tag hsegment.1 hsegment.2
  | closing name blanks =>
    show Continues marker none ((Segment.closing name blanks).source ++ rest)
      ((Segment.closing name blanks).source ++ rest')
    rw [source_closing]
    exact h.bracketed (isBracketed_closing hsegment.1 hsegment.2)

theorem continues_document (marker : Char) {raw : Option String} {document : List Segment}
    (hdocument : IsDocument raw document) :
    Continues marker none (document.flatMap Segment.source)
      ((document.map Segment.lowered).flatMap Segment.source) := by
  have hbefore : ∀ {raw : Option String} {segment : Segment} {document : List Segment},
      IsDocument raw (segment :: document) → segment.Before (document.flatMap Segment.source) := by
    intro raw segment document h
    cases document with
    | nil => exact before_nil segment
    | cons next document =>
      rw [List.flatMap_cons]
      exact before_append (h.next next rfl).1 (source_ne_nil h.tail.head.1) _
  induction document generalizing raw with
  | nil => exact .nil
  | cons segment document ih =>
    rw [List.map_cons, List.flatMap_cons, List.flatMap_cons]
    have hlowered := hbefore hdocument.lowered
    refine .segment hdocument.head.1 ⟨hbefore hdocument, ?_⟩ (ih hdocument.tail)
    cases segment <;> exact hlowered

end Lifting

/-- Lifting a document and lifting it with small names both fail, or leave the same tags. -/
theorem Lifted.agree_ofSource {mark : List Char} (hmark : mark = [] ∨ mark = ['\ufeff'])
    {document : List Segment} (hdocument : IsDocument none document) :
    Agree (fun found found' : Lifted × Nat => ∃ markup, found' = ({ found.1 with markup }, found.2))
      (Lifted.ofSource (mark ++ document.flatMap Segment.source))
      (Lifted.ofSource (mark ++ (document.map Segment.lowered).flatMap Segment.source)) := by
  unfold Lifted.ofSource
  rw [freeMarker?_lowered]
  cases freeMarker? (mark ++ document.flatMap Segment.source) with
  | none => exact .error _ _
  | some marker =>
    have hcontinues : Lifting.Continues marker none (mark ++ document.flatMap Segment.source)
        (mark ++ (document.map Segment.lowered).flatMap Segment.source) := by
      have hrest := Lifting.continues_document marker hdocument
      rcases hmark with rfl | rfl
      · exact hrest
      · refine hrest.verbatim (List.forall_mem_singleton.2 ⟨by decide, by decide⟩) ?_
        rintro c ⟨⟩
        decide
    have hrun := hcontinues {} {} 0 0 ⟨rfl, rfl, rfl, rfl, rfl, rfl⟩
    dsimp only
    generalize Lifting.run marker 0 0 {} (mark ++ document.flatMap Segment.source) = found at hrun ⊢
    generalize Lifting.run marker 0 0 {}
      (mark ++ (document.map Segment.lowered).flatMap Segment.source) = found' at hrun ⊢
    cases hrun with
    | error e e' => exact .error e e'
    | @ok st st' hst =>
      dsimp only
      rw [hst.blocks]
      cases st.blocks with
      | cons name blocks => exact .error _ _
      | nil =>
        refine .ok ⟨st'.markup.reverse, ?_⟩
        rw [hst.placeholders, hst.unquoted, hst.next]

end MustacheJsx
