import MustacheJsx.Proofs.Extraction.Places
import MustacheJsx.Proofs.Lowering.Lifting

/-!
# What lifting reads before a place

Lifting goes from left to right. A text in front of a place is read in the same steps whatever
stands at the place, unless one of them goes on behind the text. So before two mustaches, in front
of one of which there are blanks, lifting comes to the same state but for these blanks, which it has
written last: `Lifting.approach`. Each step is shown to stay within the text (`Lifting.ReadsWithin`
for what is no mustache, `Lifting.Advances` for any), and the way is followed by induction on the
length of the text.
-/

namespace MustacheJsx

namespace Lifting

variable {marker : Char} {st st' next final : Lifting} {c : Char} {cs cs' rest rest' : List Char}

/-! ### Mustaches -/

def writeSpan (marker : Char) (st : Lifting) (span : Span) (offset : Nat) :
    Except CompileError Lifting := do
  let (tag, next) := Tag.read span.content span.trusting (offset + span.lead) st.next
  let tag ← tag
  let written := match st.tag with
    | none => writeInText marker { st with next } tag
    | some open_ => writeInTag marker { st with next } open_ tag
  written.mapError fun fault => .parse fault offset

def cleared (st : Lifting) (span : Span) : Lifting :=
  if span.stripLeft && st.tag.isNone then { st with markup := st.markup.dropWhile Text.isBlank }
  else st

def leftBy (st : Lifting) (span : Span) : List Char :=
  if span.stripRight && st.tag.isNone then Text.trimStart span.rest else span.rest

theorem cleared_of_isSome {open_ : OpenTag} (h : st.tag = some open_) (span : Span) :
    st.cleared span = st := by
  rw [cleared, h, Option.isNone_some, Bool.and_false]
  rfl

theorem leftBy_suffix (st : Lifting) (span : Span) : st.leftBy span <:+ span.rest := by
  rw [leftBy]
  split
  · exact List.dropWhile_suffix _
  · exact List.suffix_refl _

theorem stepMustache_eq {span : Span} (h : Span.read cs = .ok span) (offset : Nat) :
    stepMustache marker st cs offset =
      (writeSpan marker (st.cleared span) span offset).map fun written =>
        (written, cs.length - (st.leftBy span).length) := by
  have hspan : (Except.ok span).mapError (fun fault : SyntaxFault => .parse fault offset) =
      (.ok span : Except CompileError Span) := rfl
  have hwrite : ∀ (tag : Except CompileError Tag) (write : Tag → Except CompileError Lifting)
      (count : Nat), (tag >>= fun tag => write tag >>= fun written => .ok (written, count)) =
        (tag >>= write).map fun written => (written, count) := by
    intro tag write count
    cases tag with
    | error e => rfl
    | ok tag =>
      rw [ok_bind, ok_bind]
      cases write tag <;> rfl
  rw [stepMustache, h, hspan, ok_bind, writeSpan, leftBy, cleared]
  cases htag : st.tag with
  | some open_ =>
    simp only [Option.isNone_some, Bool.and_false, Bool.false_eq_true, if_false, htag]
    exact hwrite _ _ _
  | none =>
    simp only [Option.isNone_none, Bool.and_true]
    cases span.stripLeft with
    | false =>
      simp only [Bool.false_eq_true, if_false, htag]
      exact hwrite _ _ _
    | true => exact hwrite _ _ _

theorem writeSpan_agree {span span' : Span} (hcontent : span'.content = span.content)
    (htrusting : span'.trusting = span.trusting) (offset offset' : Nat) :
    Agree Eq (writeSpan marker st span offset) (writeSpan marker st span' offset') := by
  obtain ⟨htag, hnext⟩ := Tag.agree_read span.content span.trusting (offset + span.lead)
    (offset' + span'.lead) st.next
  rw [writeSpan, writeSpan, hcontent, htrusting]
  dsimp only
  rw [hnext]
  refine htag.bind fun tag tag' heq => ?_
  subst heq
  exact (Agree.refl _).mapError _ _

/-! ### Markup that ends with no blank -/

/-- The markup written so far does not end with a blank. -/
def EndsInked (st : Lifting) : Prop := ∀ c ∈ st.markup.head?, Text.isBlank c = false

theorem endsInked_write {written : List Char}
    (h : ∃ last, written.getLast? = some last ∧ Text.isBlank last = false) (st : Lifting) :
    EndsInked (st.write written) := by
  obtain ⟨last, hlast, hink⟩ := h
  intro c hc
  rw [write, List.head?_append, List.head?_reverse, hlast] at hc
  cases hc
  exact hink

theorem EndsInked.dropWhile (h : EndsInked st) {blanks : List Char}
    (hblanks : ∀ c ∈ blanks, Text.isBlank c = true) :
    (st.write blanks).markup.dropWhile Text.isBlank = st.markup :=
  dropWhile_append_of_forall (fun c hc => hblanks c (List.mem_reverse.1 hc)) h

theorem endsInked_writeInText (hmarker : Text.isBlank marker = false) {tag : Tag}
    (h : writeInText marker st tag = .ok next) : EndsInked next := by
  have hgreater : ∀ cs : List Char, ∃ last, (cs ++ ['>']).getLast? = some last ∧
      Text.isBlank last = false := fun cs => ⟨'>', List.getLast?_concat, rfl⟩
  have hhole : ∀ index, ∃ last, (placeholderText marker index).getLast? = some last ∧
      Text.isBlank last = false :=
    fun index => ⟨marker, by rw [placeholderText, List.getLast?_concat], hmarker⟩
  have hnumbered : ∀ tag index, ∃ last, (numberedTag tag index).getLast? = some last ∧
      Text.isBlank last = false := fun tag index =>
    ⟨'>', by simp [numberedTag, List.getLast?_cons, List.getLast?_append], rfl⟩
  rw [writeInText.eq_def] at h
  split at h
  · cases h
    exact endsInked_write (hhole _) _
  · cases h
    exact endsInked_write (hhole _) _
  · cases h
    have hclose : "-->".toList = ['-', '-'] ++ ['>'] := by decide
    refine endsInked_write ?_ _
    rw [hclose, ← List.append_assoc]
    exact hgreater _
  · cases h
    exact endsInked_write (hnumbered _ _) _
  · split at h
    · cases h
    · split at h <;> cases h
      · exact endsInked_write (hnumbered _ _) _
      · exact endsInked_write (hgreater _) _
  · split at h
    · cases h
    · split at h <;> cases h
      exact endsInked_write (hgreater _) _

theorem endsInked_writeSpan (hmarker : Text.isBlank marker = false) (htag : st.tag = none)
    {span : Span} {offset : Nat} (h : writeSpan marker st span offset = .ok next) :
    next.tag = none ∧ EndsInked next := by
  rw [writeSpan] at h
  obtain ⟨tag, -, h⟩ := bind_eq_ok h
  have hwritten := mapError_eq_ok h
  rw [htag] at hwritten
  dsimp only at hwritten
  exact ⟨tag_of_writeInText hwritten, endsInked_writeInText hmarker hwritten⟩

theorem isSome_tag_of_writeSpan {open_ : OpenTag} (htag : st.tag = some open_) {span : Span}
    {offset : Nat} (h : writeSpan marker st span offset = .ok next) : next.tag ≠ none := by
  rw [writeSpan] at h
  obtain ⟨tag, -, h⟩ := bind_eq_ok h
  have hwritten := mapError_eq_ok h
  rw [htag] at hwritten
  dsimp only at hwritten
  obtain ⟨later, hlater, -⟩ := position_of_writeInTag rfl hwritten
  rw [hlater]
  exact Option.some_ne_none later

/-! ### Outcomes without offsets -/

theorem stepMustache_agree (st : Lifting) (cs : List Char) (offset offset' : Nat) :
    Agree Eq (stepMustache marker st cs offset) (stepMustache marker st cs offset') := by
  cases hspan : Span.read cs with
  | error fault =>
    rw [stepMustache, stepMustache, hspan]
    exact .error _ _
  | ok span =>
    rw [stepMustache_eq hspan, stepMustache_eq hspan]
    exact (writeSpan_agree rfl rfl offset offset').map fun _ _ h => h ▸ rfl

theorem step_agree (st : Lifting) (c : Char) (cs : List Char) (offset offset' : Nat) :
    Agree Eq (step marker st c cs offset) (step marker st c cs offset') := by
  rw [step.eq_def, step.eq_def]
  split
  · exact .refl _
  · exact stepMustache_agree st _ offset offset'
  · exact .refl _

theorem run_agree (st : Lifting) (cs : List Char) (skip offset offset' : Nat) :
    Agree Eq (run marker offset skip st cs) (run marker offset' skip st cs) := by
  induction cs generalizing st skip offset offset' with
  | nil => exact .refl _
  | cons c cs ih =>
    cases skip with
    | succ skip => exact ih st skip _ _
    | zero =>
      have hstep := @step_agree marker st c cs offset offset'
      rw [run, run]
      generalize step marker st c cs offset = found at hstep ⊢
      generalize step marker st c cs offset' = found' at hstep ⊢
      cases hstep with
      | error e e' => exact .error e e'
      | ok heq =>
        subst heq
        exact ih _ _ _ _

/-- Two runs fail, or both come to the same state. -/
def Agrees (marker : Char) (st : Lifting) (cs : List Char) (st' : Lifting) (cs' : List Char) :
    Prop :=
  ∀ offset offset', Agree Eq (run marker offset 0 st cs) (run marker offset' 0 st' cs')

theorem Agrees.refl (st : Lifting) (cs : List Char) : Agrees marker st cs st cs :=
  run_agree st cs 0

theorem Agrees.symm (h : Agrees marker st cs st' cs') : Agrees marker st' cs' st cs :=
  fun offset offset' => (h offset' offset).symm

theorem Agrees.trans (h : Agrees marker st cs st' cs') (h' : Agrees marker st' cs' final rest) :
    Agrees marker st cs final rest :=
  fun offset offset' => (h offset 0).trans (h' 0 offset')

/-! ### Coming to a place -/

/-- From the state `st` before `cs` the reader comes to the state `final` before `rest`. -/
inductive Comes (marker : Char) : Lifting → List Char → Lifting → List Char → Prop where
  | here (st : Lifting) (cs : List Char) : Comes marker st cs st cs
  | step {st next final : Lifting} {c : Char} {cs rest : List Char} {count : Nat}
      (hstep : step marker st c cs 0 = .ok (next, count))
      (hlater : Comes marker next (cs.drop (count - 1)) final rest) :
      Comes marker st (c :: cs) final rest

theorem Comes.trans (h : Comes marker st cs st' cs') (h' : Comes marker st' cs' final rest) :
    Comes marker st cs final rest := by
  induction h with
  | here => exact h'
  | step hstep _ ih => exact .step hstep (ih h')

theorem Comes.length_le (h : Comes marker st cs final rest) : rest.length ≤ cs.length := by
  induction h with
  | here => exact Nat.le_refl _
  | step _ _ ih =>
    rw [List.length_drop] at ih
    rw [List.length_cons]
    omega

theorem Comes.agrees (h : Comes marker st cs final rest) : Agrees marker st cs final rest := by
  induction h with
  | here => exact .refl _ _
  | @step st next final c cs rest count hstep _ ih =>
    intro offset offset'
    have hagree := @step_agree marker st c cs offset 0
    obtain ⟨later, hdrop⟩ := exists_run_drop cs (offset + c.utf8Size) (count - 1)
    rw [hstep] at hagree
    rw [run]
    generalize Lifting.step marker st c cs offset = found at hagree ⊢
    cases hagree with
    | ok heq =>
      subst heq
      dsimp only
      rw [hdrop]
      exact ih later offset'

/-! ### Places in text -/

/-- Whether the reader is in text when it comes to the place where `left` characters are left. If it
refuses a mustache in front of that place, this is not told, and counts as text. -/
def standsInText (marker : Char) (left skip : Nat) (st : Lifting) : List Char → Bool
  | [] => false
  | c :: cs =>
    match skip with
    | skip + 1 => standsInText marker left skip st cs
    | 0 =>
      if (c :: cs).length = left then st.tag.isNone
      else
        match step marker st c cs 0 with
        | .ok (next, count) => standsInText marker left (count - 1) next cs
        | .error _ =>
          (Span.read (c :: cs)).toOption.any fun span => decide (left ≤ span.rest.length)

theorem standsInText_drop (left skip : Nat) (st : Lifting) (cs : List Char) :
    standsInText marker left skip st cs = standsInText marker left 0 st (cs.drop skip) := by
  induction cs generalizing skip with
  | nil => rw [List.drop_nil, standsInText, standsInText]
  | cons c cs ih =>
    cases skip with
    | zero => rfl
    | succ skip => exact ih skip

theorem le_of_standsInText {left skip : Nat} (h : standsInText marker left skip st cs = true) :
    left ≤ cs.length := by
  induction cs generalizing st skip with
  | nil => cases h
  | cons c cs ih =>
    cases skip with
    | succ skip => exact Nat.le_succ_of_le (ih h)
    | zero =>
      rw [standsInText] at h
      split at h
      · next hhere => exact Nat.le_of_eq hhere.symm
      · split at h
        · exact Nat.le_succ_of_le (ih h)
        · cases hspan : Span.read (c :: cs) with
          | error fault =>
            rw [hspan] at h
            cases h
          | ok span =>
            rw [hspan] at h
            have hle : left ≤ span.rest.length := of_decide_eq_true h
            obtain ⟨text, htext, -⟩ := Span.exists_text hspan
            rw [htext, List.length_append, List.length_cons]
            omega

theorem Comes.standsInText_eq (h : Comes marker st cs final rest) {left : Nat}
    (hleft : left ≤ rest.length) :
    standsInText marker left 0 st cs = standsInText marker left 0 final rest := by
  induction h with
  | here => rfl
  | @step st next final c cs rest count hstep hlater ih =>
    have hle := hlater.length_le
    rw [List.length_drop] at hle
    rw [standsInText, if_neg (by rw [List.length_cons]; omega), hstep]
    dsimp only
    rw [standsInText_drop]
    exact ih hleft

/-! ### Texts before a border -/

/-- A text begins with a blank or a brace, so nothing but a mustache goes on in it. -/
def IsBorder (cs : List Char) : Prop := ∃ c ∈ cs.head?, Text.isBlank c = true ∨ c = '{'

/-- A text that ends with a character that is no blank and takes no part in a mustache. -/
def EndsFirm (text : List Char) : Prop :=
  ∀ c ∈ text.getLast?, Text.isBlank c = false ∧ c ≠ '{' ∧ c ≠ '\\'

theorem EndsFirm.of_suffix {text more : List Char} (h : EndsFirm text) (hmore : more <:+ text) :
    EndsFirm more := by
  obtain ⟨before, rfl⟩ := hmore
  intro c hc
  exact h c (by rw [List.getLast?_append, hc]; rfl)

theorem isBorder_append {blanks place : List Char} (hblanks : ∀ c ∈ blanks, Text.isBlank c = true)
    (hplace : place.head? = some '{') : IsBorder (blanks ++ place) := by
  cases blanks with
  | nil => exact ⟨'{', hplace, .inr rfl⟩
  | cons c blanks => exact ⟨c, rfl, .inl (hblanks c List.mem_cons_self)⟩

theorem isPrefix_of_border {lead text ys : List Char}
    (hlead : ∀ c ∈ lead, Text.isBlank c = false ∧ c ≠ '{') (hys : IsBorder ys)
    (h : lead <+: text ++ ys) : lead <+: text := by
  induction text generalizing lead with
  | nil =>
    cases lead with
    | nil => exact List.nil_prefix
    | cons c lead =>
      obtain ⟨rest, hrest⟩ := h
      obtain ⟨hc, hbrace⟩ := hlead c List.mem_cons_self
      obtain ⟨d, hd, hborder⟩ := hys
      rw [List.nil_append] at hrest
      rw [← hrest] at hd
      cases hd
      rcases hborder with hblank | heq
      · rw [hc] at hblank
        cases hblank
      · exact absurd heq hbrace
  | cons d text ih =>
    cases lead with
    | nil => exact List.nil_prefix
    | cons c lead =>
      obtain ⟨rfl, hrest⟩ := List.cons_prefix_cons.1 h
      exact List.cons_prefix_cons.2
        ⟨rfl, ih (fun e he => hlead e (List.mem_cons_of_mem _ he)) hrest⟩

theorem beginsTag_of_border {text ys : List Char} (hfirm : EndsFirm (c :: text))
    (h : BeginsTag (c :: (text ++ ys))) : BeginsTag (c :: text) := by
  have hlast : ∀ {d : Char}, (c :: text).getLast? = some d → d ≠ '{' ∧ d ≠ '\\' :=
    fun hd => (hfirm _ hd).2
  rcases h with h | h
  · obtain ⟨rfl, hbrace⟩ := List.cons_prefix_cons.1 h
    cases text with
    | nil => exact absurd rfl (hlast rfl).1
    | cons d text =>
      obtain ⟨rfl, -⟩ := List.cons_prefix_cons.1 hbrace
      exact .inl ⟨text, rfl⟩
  · obtain ⟨rfl, hbraces⟩ := List.cons_prefix_cons.1 h
    cases text with
    | nil => exact absurd rfl (hlast rfl).2
    | cons d text =>
      obtain ⟨rfl, hbrace⟩ := List.cons_prefix_cons.1 hbraces
      cases text with
      | nil => exact absurd rfl (hlast rfl).1
      | cons e text =>
        obtain ⟨rfl, -⟩ := List.cons_prefix_cons.1 hbrace
        exact .inr ⟨text, rfl⟩

/-- What ends with ink before a place ends before the blanks in front of the place. -/
theorem exists_before_blanks {text front blanks place : List Char} {d : Char}
    (h : text ++ d :: rest = front ++ (blanks ++ place)) (hd : Text.isBlank d = false)
    (hblanks : ∀ c ∈ blanks, Text.isBlank c = true) (hlength : place.length ≤ rest.length) :
    ∃ more, rest = more ++ (blanks ++ place) ∧ front = text ++ d :: more := by
  have hblank : ∀ {c : Char} {cs : List Char}, (∀ b ∈ c :: cs, Text.isBlank b = true) → d ≠ c := by
    rintro c cs hall rfl
    rw [hall d List.mem_cons_self] at hd
    cases hd
  have hshort := congrArg List.length h
  simp only [List.length_append, List.length_cons] at hshort
  induction text generalizing front blanks with
  | nil =>
    cases front with
    | nil =>
      cases blanks with
      | nil =>
        simp only [List.length_nil] at hshort
        omega
      | cons c blanks => exact absurd (List.cons.inj h).1 (hblank hblanks)
    | cons c front =>
      obtain ⟨rfl, hrest⟩ := List.cons.inj h
      exact ⟨front, hrest, rfl⟩
  | cons y text ih =>
    simp only [List.length_cons] at hshort
    cases front with
    | nil =>
      cases blanks with
      | nil =>
        simp only [List.length_nil] at hshort
        omega
      -- The blanks in front of the place would reach up to the ink.
      | cons c blanks =>
        simp only [List.length_cons, List.length_nil] at hshort
        obtain ⟨more, -, hnil⟩ := @ih [] blanks (List.cons.inj h).2
          (fun b hb => hblanks b (List.mem_cons_of_mem c hb))
          (by simp only [List.length_nil]; omega)
        exact absurd hnil.symm (by simp)
    | cons c front =>
      simp only [List.length_cons] at hshort
      obtain ⟨rfl, hrest⟩ := List.cons.inj h
      obtain ⟨more, hmore, rfl⟩ := ih hrest hblanks (by omega)
      exact ⟨more, hmore, rfl⟩

/-! ### One step before a border -/

/-- A step reads a part of a text, whatever border follows the text. -/
structure ReadsWithin (st : Lifting) (c : Char) (text : List Char) (next : Lifting)
    (more : List Char) :
    Prop where
  suffix : more <:+ text
  inked : more = [] → next.tag = none → EndsInked next
  step : ∀ ys, IsBorder ys →
    ∃ count, st.stepPlain c (text ++ ys) = (next, count) ∧
      (text ++ ys).drop (count - 1) = more ++ ys

theorem ReadsWithin.one {text : List Char} (hinked : text = [] → next.tag = none → EndsInked next)
    (hstep : ∀ ys, IsBorder ys → st.stepPlain c (text ++ ys) = (next, 1)) :
    ReadsWithin st c text next text :=
  ⟨List.suffix_refl text, hinked, fun ys hys => ⟨1, hstep ys hys, rfl⟩⟩

theorem readsWithin_stepTag {open_ : OpenTag} (htag : st.tag = some open_) (c : Char)
    (text : List Char) : ∃ next more, ReadsWithin st c text next more := by
  have hplain : ∀ cs, st.stepPlain c cs = st.stepTag open_ c cs := fun cs => by
    rw [stepPlain, htag]
  -- A character that does not end the tag.
  have hstays : ∀ later : OpenTag, (∀ ys, IsBorder ys →
      st.stepTag open_ c (text ++ ys) = ({ st.write [c] with tag := some later }, 1)) →
      ∃ next more, ReadsWithin st c text next more := fun later hstep =>
    ⟨_, _, .one (fun _ hnone => absurd hnone (Option.some_ne_none later)) fun ys hys => by
      rw [hplain, hstep ys hys]⟩
  by_cases hquoted : ∃ q, open_.position = .quoted q
  · obtain ⟨q, hq⟩ := hquoted
    exact hstays _ fun ys _ => stepTag_quoted st c (text ++ ys) hq
  · have hnot : ∀ q, open_.position ≠ .quoted q := fun q hq => hquoted ⟨q, hq⟩
    by_cases hgreater : c = '>'
    · subst hgreater
      refine ⟨{ st.write (open_.spellings ++ ['>']) with tag := none }, text,
        .one (fun _ _ => ?_) fun ys _ => ?_⟩
      · exact endsInked_write ⟨'>', List.getLast?_concat, by decide⟩ st
      · rw [hplain]
        exact stepTag_greater st (text ++ ys) hnot
    · by_cases hslash : c = '/' ∧ text.head? = some '>'
      · obtain ⟨rfl, hhead⟩ := hslash
        obtain ⟨more, rfl⟩ := List.head?_eq_some_iff.1 hhead
        refine ⟨{ st.write (open_.spellings ++ ['/', '>']) with tag := none }, more,
          List.suffix_cons '>' more, fun _ _ => ?_, fun ys _ => ⟨2, ?_, rfl⟩⟩
        · exact endsInked_write ⟨'>', by rw [List.getLast?_append]; rfl, by decide⟩ st
        · rw [hplain]
          exact stepTag_slash st (more ++ ys) hnot
      · refine hstays _ fun ys hys => stepTag_outside st hnot hgreater fun hc hhead => ?_
        rw [List.head?_append] at hhead
        cases htext : text.head? with
        | some d =>
          rw [htext] at hhead
          exact hslash ⟨hc, htext.trans hhead⟩
        | none =>
          rw [htext, Option.none_or] at hhead
          obtain ⟨d, hd, hborder⟩ := hys
          rw [hhead] at hd
          cases hd
          revert hborder
          decide

def commentLead : List Char := "<!--".toList

def commentEnd : List Char := "-->".toList

theorem readsWithin_comment (htag : st.tag = none) {text before more : List Char}
    (hlead : commentLead <+: c :: text)
    (hcut : Text.cutAt? commentEnd (c :: text) = some (before, more)) :
    ReadsWithin st c text (st.write (before ++ commentEnd)) more := by
  have htext := Text.eq_append_of_cutAt? hcut
  have hsplit : ∀ ys, c :: (text ++ ys) = before ++ commentEnd ++ (more ++ ys) := by
    intro ys
    rw [← List.cons_append, htext, List.append_assoc _ more ys]
  refine ⟨?_, fun _ _ => ?_, fun ys _ => ⟨before.length + 3, ?_, ?_⟩⟩
  · cases before with
    | nil =>
      refine ⟨['-', '>'], ?_⟩
      exact (List.cons.inj htext).2.symm
    | cons d before =>
      refine ⟨before ++ commentEnd, ?_⟩
      exact (List.cons.inj htext).2.symm
  · exact endsInked_write ⟨'>', by rw [List.getLast?_append]; rfl, by decide⟩ st
  · obtain ⟨rest, hrest⟩ := hlead
    have hopens : Text.afterLead? "<!--".toList (c :: (text ++ ys)) = some (rest ++ ys) := by
      rw [Text.afterLead?_eq_some_iff, ← List.cons_append, ← hrest, List.append_assoc]
      rfl
    have hcut' : Text.cutAt? "-->".toList (c :: (text ++ ys)) = some (before, more ++ ys) := by
      rw [hsplit]
      exact Text.cutAt?_append (by decide) hcut (more ++ ys)
    rw [stepPlain, htag]
    dsimp only
    rw [stepText.eq_def, hopens]
    dsimp only
    rw [hcut']
    rfl
  · have hdrop : (c :: (text ++ ys)).drop (before.length + 3) = more ++ ys := by
      rw [hsplit]
      exact List.drop_left' (by rw [List.length_append]; rfl)
    exact hdrop

theorem takeWhile_name_of_border {text ys : List Char} (hys : IsBorder ys) :
    (text ++ ys).takeWhile (fun c => !endsTagName c) = text.takeWhile fun c => !endsTagName c := by
  obtain ⟨y, hy, hborder⟩ := hys
  obtain ⟨zs, rfl⟩ := List.head?_eq_some_iff.1 hy
  have hends : endsTagName y = true := by
    rcases hborder with hblank | rfl
    · simp [endsTagName, hblank]
    · rfl
  have hnone : (y :: zs).takeWhile (fun c => !endsTagName c) = [] :=
    List.takeWhile_cons_of_neg (by simp [hends])
  rw [List.takeWhile_append, hnone, List.append_nil]
  split
  · next hall => exact ((List.takeWhile_prefix _).eq_of_length hall).symm
  · rfl

theorem readsWithin_openTag (htag : st.tag = none) {text : List Char}
    (hletter : ∃ d ∈ text.head?, Text.isAsciiLetter d = true) :
    ∃ next more, ReadsWithin st '<' text next more := by
  obtain ⟨d, hd, hletter⟩ := hletter
  obtain ⟨tail, rfl⟩ := List.head?_eq_some_iff.1 hd
  refine ⟨(st.openTag (d :: tail)).1, (d :: tail).drop ((st.openTag (d :: tail)).2 - 1),
    List.drop_suffix _ _, fun _ hnone => ?_,
    fun ys hys => ⟨(st.openTag (d :: tail)).2, ?_, ?_⟩⟩
  · rw [openTag] at hnone
    cases hnone
  · have hcomment : Text.afterLead? "<!--".toList ('<' :: d :: (tail ++ ys)) = none := by
      refine Option.eq_none_iff_forall_ne_some.2 fun rest hrest => ?_
      have hd := Text.afterLead?_eq_some_iff.1 hrest
      rw [(List.cons.inj (List.cons.inj hd).2).1] at hletter
      exact absurd hletter (by decide)
    have hopen : st.stepText '<' (d :: (tail ++ ys)) = st.openTag (d :: (tail ++ ys)) := by
      rw [stepText.eq_def, hcomment]
      exact if_pos hletter
    have hname := @takeWhile_name_of_border (d :: tail) ys hys
    rw [stepPlain, htag, List.cons_append]
    dsimp only
    rw [hopen]
    rw [List.cons_append] at hname
    rw [openTag, openTag, hname]
  · refine List.drop_append_of_le_length ?_
    exact (List.takeWhile_prefix _).length_le

theorem readsWithin_char (htag : st.tag = none) {text : List Char} (hfirm : EndsFirm (c :: text))
    (hcomment : ¬ commentLead <+: c :: text)
    (hletter : c = '<' → ∀ d ∈ text.head?, Text.isAsciiLetter d = false) :
    ReadsWithin st c text (st.write [c]) text := by
  refine .one ?_ fun ys hys => ?_
  · rintro rfl -
    exact endsInked_write ⟨c, rfl, (hfirm c rfl).1⟩ st
  · rw [stepPlain, htag]
    dsimp only
    by_cases hless : c = '<'
    · subst hless
      have hnone : Text.afterLead? "<!--".toList ('<' :: (text ++ ys)) = none := by
        refine Option.eq_none_iff_forall_ne_some.2 fun rest hrest => hcomment ?_
        have hwhole : commentLead <+: '<' :: text ++ ys :=
          ⟨rest, (Text.afterLead?_eq_some_iff.1 hrest).symm⟩
        exact isPrefix_of_border (by decide) hys hwhole
      obtain ⟨d, ds, hds, hd⟩ : ∃ d ds, text ++ ys = d :: ds ∧ Text.isAsciiLetter d = false := by
        cases text with
        | cons d text => exact ⟨d, text ++ ys, rfl, hletter rfl d rfl⟩
        | nil =>
          obtain ⟨y, hy, hborder⟩ := hys
          obtain ⟨zs, rfl⟩ := List.head?_eq_some_iff.1 hy
          refine ⟨y, zs, rfl, Bool.eq_false_iff.2 fun hletter => ?_⟩
          have hrange := toNat_of_isAsciiLetter hletter
          rcases hborder with hblank | rfl
          · rw [isBlank_eq_false (by omega)] at hblank
            cases hblank
          · exact absurd hletter (by decide)
      rw [hds] at hnone ⊢
      exact stepText_lessThan hd hnone st
    · exact stepText_plain hless st _

theorem readsWithin_stepPlain (st : Lifting) {text : List Char} (hfirm : EndsFirm (c :: text)) :
    (∃ next more, ReadsWithin st c text next more) ∨
      st.tag = none ∧ commentLead <+: c :: text ∧ Text.cutAt? commentEnd (c :: text) = none := by
  cases htag : st.tag with
  | some open_ => exact .inl (readsWithin_stepTag htag c text)
  | none =>
    by_cases hcomment : commentLead <+: c :: text
    · cases hcut : Text.cutAt? commentEnd (c :: text) with
      | none => exact .inr ⟨rfl, hcomment, rfl⟩
      | some cut => exact .inl ⟨_, _, readsWithin_comment htag hcomment hcut⟩
    · by_cases hopens : c = '<' ∧ ∃ d ∈ text.head?, Text.isAsciiLetter d = true
      · obtain ⟨rfl, hletter⟩ := hopens
        exact .inl (readsWithin_openTag htag hletter)
      · refine .inl ⟨_, _, readsWithin_char htag hfirm hcomment fun hless d hd => ?_⟩
        exact Bool.eq_false_iff.2 fun hletter => hopens ⟨hless, d, hd, hletter⟩

/-! ### Coming to a mustache behind blanks -/

section Behind

variable {text blanks place place' : List Char}

theorem comes_of_readsWithin {more ys : List Char} (hplain : ¬ BeginsTag (c :: (text ++ ys)))
    (h : ReadsWithin st c text next more) (hys : IsBorder ys) :
    Comes marker st (c :: text ++ ys) next (more ++ ys) := by
  obtain ⟨count, hstep, hdrop⟩ := h.step ys hys
  have hok : step marker st c (text ++ ys) 0 = .ok (next, count) := by
    rw [step_of_not_beginsTag hplain, hstep]
  have hcomes := Comes.step hok (.here _ _)
  rwa [hdrop] at hcomes

/-- A step is taken on the way to a place that stands in text. -/
theorem exists_step_of_standsInText {left : Nat} (hleft : left ≤ cs.length)
    (h : standsInText marker left 0 st (c :: cs) = true) :
    (∃ next count, step marker st c cs 0 = .ok (next, count) ∧
        left ≤ (cs.drop (count - 1)).length) ∨
      ∃ e span, step marker st c cs 0 = .error e ∧ Span.read (c :: cs) = .ok span ∧
        left ≤ span.rest.length := by
  rw [standsInText, if_neg (by rw [List.length_cons]; omega)] at h
  split at h
  · next next count hstep =>
    rw [standsInText_drop] at h
    exact .inl ⟨next, count, hstep, le_of_standsInText h⟩
  · next e hstep =>
    cases hspan : Span.read (c :: cs) with
    | error fault =>
      rw [hspan] at h
      cases h
    | ok span =>
      rw [hspan] at h
      exact .inr ⟨e, span, hstep, rfl, of_decide_eq_true h⟩

theorem agrees_of_error {c' : Char} {e e' : CompileError} (h : step marker st c cs 0 = .error e)
    (h' : step marker st' c' cs' 0 = .error e') : Agrees marker st (c :: cs) st' (c' :: cs') := by
  intro offset offset'
  have hstep := @step_agree marker st c cs 0 offset
  have hstep' := @step_agree marker st' c' cs' 0 offset'
  rw [h] at hstep
  rw [h'] at hstep'
  rw [run, run]
  generalize step marker st c cs offset = found at hstep ⊢
  generalize step marker st' c' cs' offset' = found' at hstep' ⊢
  cases hstep
  cases hstep'
  exact .error _ _

/-- A mustache in front of a place in text ends before the blanks in front of that place. -/
theorem exists_span_of_standsInText (hblanks : ∀ c ∈ blanks, Text.isBlank c = true)
    (h : standsInText marker place.length 0 st ('{' :: '{' :: text ++ (blanks ++ place)) = true) :
    ∃ (span : Span) (behind : List Char), behind <:+ '{' :: text ∧
      ∀ ys, Span.read ('{' :: '{' :: text ++ ys) = .ok { span with rest := behind ++ ys } := by
  obtain ⟨span, hspan, hlength⟩ : ∃ span,
      Span.read ('{' :: '{' :: text ++ (blanks ++ place)) = .ok span ∧
        place.length ≤ span.rest.length := by
    have hleft : place.length ≤ ('{' :: (text ++ (blanks ++ place))).length := by
      simp only [List.length_cons, List.length_append]
      omega
    rcases exists_step_of_standsInText hleft h with
      ⟨next, count, hstep, hle⟩ | ⟨e, span, -, hspan, hle⟩
    · change stepMustache marker st ('{' :: '{' :: (text ++ (blanks ++ place))) 0 = _ at hstep
      obtain ⟨span, -, -, hspan, -, -, -⟩ := stepMustache_cases hstep
      rw [stepMustache_eq hspan] at hstep
      obtain ⟨written, -, hsame⟩ := exists_of_map_eq_ok hstep
      obtain ⟨-, rfl⟩ := Prod.mk.inj hsame
      have hkept := (leftBy_suffix st span).length_le
      refine ⟨span, hspan, ?_⟩
      simp only [List.length_drop, List.length_cons] at hle
      omega
    · exact ⟨span, hspan, hle⟩
  obtain ⟨inside, htext, hexchange⟩ := Span.exists_text hspan
  obtain ⟨behind, hrest, hfront⟩ := exists_before_blanks htext.symm (by decide) hblanks hlength
  refine ⟨span, behind, ?_, fun ys => ?_⟩
  · cases inside with
    | nil => exact absurd (List.cons.inj hfront).1 (by decide)
    | cons d inside => exact ⟨inside ++ ['}'], by rw [(List.cons.inj hfront).2]; simp⟩
  · have hread := hexchange (behind ++ ys)
    rwa [hfront, List.append_assoc, List.cons_append]

/-- Before two places, in front of one of which there are blanks, the reader reads the same part of
a text and is in the same state after it. -/
def Advances (marker : Char) (st : Lifting) (c : Char) (text blanks place place' : List Char) :
    Prop :=
  ∃ next more blanks', more <:+ text ∧ (∀ c ∈ blanks', Text.isBlank c = true) ∧
    (more = [] → next.tag = none → EndsInked next) ∧
    Comes marker st (c :: text ++ (blanks ++ place)) next (more ++ (blanks' ++ place)) ∧
    Comes marker st (c :: text ++ place') next (more ++ place')

theorem refused_of_read {span : Span} {e : CompileError}
    (hread : Span.read ('{' :: '{' :: cs) = .ok span)
    (hwritten : writeSpan marker (st.cleared span) span 0 = .error e) :
    step marker st '{' ('{' :: cs) 0 = .error e := by
  have hmustache := @stepMustache_eq marker st _ span hread 0
  rwa [hwritten] at hmustache

theorem comes_of_read {span : Span} (hread : Span.read ('{' :: '{' :: cs) = .ok span)
    (hwritten : writeSpan marker (st.cleared span) span 0 = .ok next) :
    Comes marker st ('{' :: '{' :: cs) next (st.leftBy span) := by
  have hstep : step marker st '{' ('{' :: cs) 0 =
      .ok (next, ('{' :: '{' :: cs).length - (st.leftBy span).length) := by
    have hmustache := @stepMustache_eq marker st _ span hread 0
    rwa [hwritten] at hmustache
  obtain ⟨text, htext, -⟩ := Span.exists_text hread
  cases text with
  | nil => exact absurd (List.cons.inj htext).1 (by decide)
  | cons d text =>
    have hrest : span.rest <:+ '{' :: cs :=
      ⟨text ++ ['}'], by rw [(List.cons.inj htext).2]; simp⟩
    obtain ⟨before, hbefore⟩ := (leftBy_suffix st span).trans hrest
    have hdrop := drop_consumed '{' before (st.leftBy span)
    rw [hbefore] at hdrop
    have hcomes := Comes.step hstep (.here _ _)
    rwa [hdrop] at hcomes

/-- What a `~` at the end of a mustache drops belongs to the text, or is all the blanks behind
it. -/
theorem exists_trimStart_append (hblanks : ∀ c ∈ blanks, Text.isBlank c = true)
    (hplace : place.head? = some '{') {behind : List Char} (hfirm : EndsFirm behind) :
    ∃ blanks', (∀ c ∈ blanks', Text.isBlank c = true) ∧
      Text.trimStart (behind ++ (blanks ++ place)) =
        Text.trimStart behind ++ (blanks' ++ place) := by
  have hhead : ∀ c ∈ place.head?, Text.isBlank c = false := by
    rw [hplace]
    rintro c ⟨⟩
    decide
  cases hlast : behind.getLast? with
  | none =>
    obtain rfl := List.getLast?_eq_none_iff.1 hlast
    exact ⟨[], List.forall_mem_nil _, dropWhile_append_of_forall hblanks hhead⟩
  | some last =>
    refine ⟨blanks, hblanks, ?_⟩
    have hnone : ¬ (behind.dropWhile Text.isBlank).isEmpty = true := by
      rw [List.isEmpty_iff, List.dropWhile_eq_nil_iff]
      intro hall
      have hink := (hfirm last hlast).1
      rw [hall last (List.mem_of_getLast? hlast)] at hink
      cases hink
    rw [Text.trimStart, List.dropWhile_append, if_neg hnone]
    rfl

theorem advances_mustache (hmarker : Text.isBlank marker = false)
    (hfirm : EndsFirm ('{' :: '{' :: text)) (hblanks : ∀ c ∈ blanks, Text.isBlank c = true)
    (hplace : place.head? = some '{') (hplace' : place'.head? = some '{')
    (h : standsInText marker place.length 0 st ('{' :: '{' :: text ++ (blanks ++ place)) = true) :
    Agrees marker st ('{' :: '{' :: text ++ (blanks ++ place)) st ('{' :: '{' :: text ++ place') ∨
      Advances marker st '{' ('{' :: text) blanks place place' := by
  obtain ⟨span, behind, hbehind, hread⟩ := exists_span_of_standsInText hblanks h
  cases hwritten : writeSpan marker (st.cleared span) span 0 with
  | error e =>
    have hrefused : ∀ ys, step marker st '{' ('{' :: text ++ ys) 0 = .error e := fun ys =>
      refused_of_read (hread ys) hwritten
    exact .inl (agrees_of_error (hrefused _) (hrefused _))
  | ok next =>
    have hcomes : ∀ ys, Comes marker st ('{' :: '{' :: text ++ ys) next
        (st.leftBy { span with rest := behind ++ ys }) :=
    fun ys => comes_of_read (hread ys) hwritten
    have hinked : next.tag = none → EndsInked next := by
      intro hnone
      cases htag : st.tag with
      | none =>
        have hcleared : (st.cleared span).tag = none := by
          rw [cleared]
          split <;> exact htag
        exact (endsInked_writeSpan hmarker hcleared hwritten).2
      | some open_ =>
        rw [cleared_of_isSome htag] at hwritten
        exact absurd hnone (isSome_tag_of_writeSpan htag hwritten)
    refine .inr ?_
    cases hright : span.stripRight && st.tag.isNone with
    | false =>
      have hall : ∀ ys, st.leftBy { span with rest := behind ++ ys } = behind ++ ys := fun ys => by
        rw [leftBy, hright]
        rfl
      refine ⟨next, behind, blanks, hbehind, hblanks, fun _ => hinked, ?_, ?_⟩
      · rw [← hall]
        exact hcomes _
      · rw [← hall]
        exact hcomes _
    | true =>
      have htrimmed : ∀ ys, st.leftBy { span with rest := behind ++ ys } =
          Text.trimStart (behind ++ ys) := fun ys => by
        rw [leftBy, hright]
        rfl
      obtain ⟨blanks', hblanks', htrim⟩ := exists_trimStart_append hblanks hplace
        (hfirm.of_suffix (hbehind.trans (List.suffix_cons _ _)))
      have hink : ∀ c ∈ place'.head?, Text.isBlank c = false := by
        rw [hplace']
        rintro c ⟨⟩
        decide
      refine ⟨next, Text.trimStart behind, blanks', (List.dropWhile_suffix _).trans hbehind,
        hblanks', fun _ => hinked, ?_, ?_⟩
      · rw [← htrim, ← htrimmed]
        exact hcomes _
      · rw [← Text.trimStart_append hink, ← htrimmed]
        exact hcomes _

/-- A comment of the markup in front of a place in text ends before the blanks in front of that
place. -/
theorem cutAt?_of_standsInText (htag : st.tag = none)
    (hblanks : ∀ c ∈ blanks, Text.isBlank c = true) (hplace : place.head? = some '{')
    (hplain : ¬ BeginsTag (c :: (text ++ (blanks ++ place)))) (hlead : commentLead <+: c :: text)
    (h : standsInText marker place.length 0 st (c :: text ++ (blanks ++ place)) = true) :
    Text.cutAt? commentEnd (c :: text) ≠ none := by
  obtain ⟨inner, hinner⟩ := hlead
  have hopens : Text.afterLead? "<!--".toList (c :: (text ++ (blanks ++ place))) =
      some (inner ++ (blanks ++ place)) := by
    rw [Text.afterLead?_eq_some_iff, ← List.cons_append, ← hinner, List.append_assoc]
    rfl
  have hread : step marker st c (text ++ (blanks ++ place)) 0 =
      .ok (st.stepText c (text ++ (blanks ++ place))) := by
    rw [step_of_not_beginsTag hplain, stepPlain, htag]
  have hleft : place.length ≤ (text ++ (blanks ++ place)).length := by
    simp only [List.length_append]
    omega
  rw [List.cons_append] at h
  rw [stepText.eq_def, hopens] at hread
  dsimp only at hread
  rcases exists_step_of_standsInText hleft h with ⟨next, count, hstep, hle⟩ | ⟨e, _, herror, -, -⟩
  · rw [hread] at hstep
    rw [List.length_drop] at hle
    cases hcut : Text.cutAt? "-->".toList (c :: (text ++ (blanks ++ place))) with
    | none =>
      rw [hcut] at hstep
      cases hstep
      obtain ⟨place, rfl⟩ := List.head?_eq_some_iff.1 hplace
      rw [List.length_cons] at hle
      omega
    | some cut =>
      obtain ⟨before, rest⟩ := cut
      rw [hcut] at hstep
      cases hstep
      have hwhole := Text.eq_append_of_cutAt? hcut
      have hgreater : ∀ more, before ++ commentEnd ++ more = before ++ ['-', '-'] ++ '>' :: more :=
        fun more => by simp [commentEnd]
      rw [← commentEnd, hgreater, ← List.cons_append] at hwhole
      have hlength := congrArg List.length hwhole
      simp only [List.length_append, List.length_cons, List.length_nil] at hlength hle
      obtain ⟨more, -, hfront⟩ := exists_before_blanks hwhole.symm (by decide) hblanks (by omega)
      rw [hfront, ← hgreater, commentEnd, Text.cutAt?_append (by decide) hcut more]
      exact Option.some_ne_none _
  · rw [hread] at herror
    cases herror

theorem advances_step (hmarker : Text.isBlank marker = false) (hfirm : EndsFirm (c :: text))
    (hblanks : ∀ c ∈ blanks, Text.isBlank c = true) (hplace : place.head? = some '{')
    (hplace' : place'.head? = some '{')
    (h : standsInText marker place.length 0 st (c :: text ++ (blanks ++ place)) = true) :
    Agrees marker st (c :: text ++ (blanks ++ place)) st (c :: text ++ place') ∨
      Advances marker st c text blanks place place' := by
  by_cases hbegins : BeginsTag (c :: text)
  · rcases hbegins with ⟨tail, htail⟩ | ⟨tail, htail⟩
    · cases htail
      exact advances_mustache hmarker hfirm hblanks hplace hplace' h
    · cases htail
      refine .inr ⟨st.write ['{', '{'], tail, blanks, ?_, hblanks, fun _ _ => ?_, ?_, ?_⟩
      · exact ⟨['{', '{'], rfl⟩
      · exact endsInked_write ⟨'{', rfl, by decide⟩ st
      · exact .step rfl (.here _ _)
      · exact .step rfl (.here _ _)
  · have hplain : ∀ ys, ¬ BeginsTag (c :: (text ++ ys)) := fun ys hbegins' =>
      hbegins (beginsTag_of_border hfirm hbegins')
    have hborder := isBorder_append hblanks hplace
    have hborder' : IsBorder place' := ⟨'{', hplace', .inr rfl⟩
    rcases readsWithin_stepPlain st hfirm with ⟨next, more, hreads⟩ | ⟨htag, hlead, hcut⟩
    · exact .inr ⟨next, more, blanks, hreads.suffix, hblanks, hreads.inked,
        comes_of_readsWithin (hplain _) hreads hborder,
        comes_of_readsWithin (hplain _) hreads hborder'⟩
    · exact absurd hcut (cutAt?_of_standsInText htag hblanks hplace (hplain _) hlead h)

/-! ### The whole way -/

theorem not_beginsTag_of_isBlank (hblank : Text.isBlank c = true) (cs : List Char) :
    ¬ BeginsTag (c :: cs) := by
  rintro (h | h)
  · rw [← (List.cons_prefix_cons.1 h).1] at hblank
    exact absurd hblank (by decide)
  · rw [← (List.cons_prefix_cons.1 h).1] at hblank
    exact absurd hblank (by decide)

theorem comes_blanks (htag : st.tag = none) (hblanks : ∀ c ∈ blanks, Text.isBlank c = true) :
    Comes marker st (blanks ++ place) (st.write blanks) place := by
  induction blanks generalizing st with
  | nil => exact .here st place
  | cons c blanks ih =>
    have hblank := hblanks c List.mem_cons_self
    have hless : c ≠ '<' := by
      rintro rfl
      exact absurd hblank (by decide)
    have hstep : step marker st c (blanks ++ place) 0 = .ok (st.write [c], 1) := by
      rw [step_of_not_beginsTag (not_beginsTag_of_isBlank hblank _), stepPlain, htag]
      exact congrArg Except.ok (stepText_plain hless st _)
    have hlater := @ih (st.write [c]) htag fun b hb => hblanks b (List.mem_cons_of_mem c hb)
    rw [write_write] at hlater
    exact .step hstep hlater

theorem tag_of_standsInText (hblanks : ∀ c ∈ blanks, Text.isBlank c = true)
    (hplace : place ≠ [])
    (h : standsInText marker place.length 0 st (blanks ++ place) = true) : st.tag = none := by
  induction blanks generalizing st with
  | nil =>
    cases place with
    | nil => exact absurd rfl hplace
    | cons d place =>
      rw [List.nil_append, standsInText, if_pos rfl] at h
      exact Option.isNone_iff_eq_none.1 h
  | cons c blanks ih =>
    have hblank := hblanks c List.mem_cons_self
    cases htag : st.tag with
    | none => rfl
    | some open_ =>
      obtain ⟨later, hlater, hstep⟩ : ∃ next : Lifting, next.tag ≠ none ∧
          st.stepTag open_ c (blanks ++ place) = (next, 1) := by
        by_cases hquoted : ∃ q, open_.position = .quoted q
        · obtain ⟨q, hq⟩ := hquoted
          exact ⟨_, Option.some_ne_none _, stepTag_quoted st c _ hq⟩
        · refine ⟨_, Option.some_ne_none _, stepTag_outside st (fun q hq => hquoted ⟨q, hq⟩) ?_ ?_⟩
          · rintro rfl
            exact absurd hblank (by decide)
          · rintro rfl
            exact absurd hblank (by decide)
      rw [List.cons_append, standsInText, if_neg (by simp; omega),
        step_of_not_beginsTag (not_beginsTag_of_isBlank hblank _), stepPlain, htag] at h
      dsimp only at h
      rw [hstep] at h
      exact absurd (ih (fun b hb => hblanks b (List.mem_cons_of_mem c hb)) h) hlater

/-- A text that ends firmly is read alike before a place and before blanks and a place: the reader
comes to both places in text, and the blanks are the last that it has written. -/
theorem approach (hmarker : Text.isBlank marker = false) (hfirm : EndsFirm text)
    (hinked : text = [] → st.tag = none → EndsInked st)
    (hblanks : ∀ c ∈ blanks, Text.isBlank c = true) (hplace : place.head? = some '{')
    (hplace' : place'.head? = some '{')
    (h : standsInText marker place.length 0 st (text ++ (blanks ++ place)) = true) :
    Agrees marker st (text ++ (blanks ++ place)) st (text ++ place') ∨
      ∃ next blanks', next.tag = none ∧ EndsInked next ∧
        (∀ c ∈ blanks', Text.isBlank c = true) ∧
        Comes marker st (text ++ (blanks ++ place)) (next.write blanks') place ∧
        Comes marker st (text ++ place') next place' := by
  induction hn : text.length using Nat.strong_induction_on generalizing text st blanks with
  | h n ih =>
    cases text with
    | nil =>
      have hne : place ≠ [] := by
        rintro rfl
        cases hplace
      have htag := tag_of_standsInText hblanks hne h
      exact .inr ⟨st, blanks, htag, hinked rfl htag, hblanks, comes_blanks htag hblanks, .here _ _⟩
    | cons c text =>
      rcases advances_step hmarker hfirm hblanks hplace hplace' h with
        hagrees | ⟨next, more, blanks', hmore, hblanks', hinked', hcomes, hcomes'⟩
      · exact .inl hagrees
      · have hlength : more.length < n := by
          rw [← hn]
          exact Nat.lt_succ_of_le hmore.length_le
        have hstands :
            standsInText marker place.length 0 next (more ++ (blanks' ++ place)) = true := by
          rw [← hcomes.standsInText_eq (by simp only [List.length_append]; omega)]
          exact h
        rcases ih more.length hlength (hfirm.of_suffix (hmore.trans (List.suffix_cons c text)))
            hinked' hblanks' hstands rfl with
          hagrees | ⟨final, blanks'', htag, hlast, hblanks'', hlater, hlater'⟩
        · exact .inl ((hcomes.agrees.trans hagrees).trans hcomes'.agrees.symm)
        · exact .inr ⟨final, blanks'', htag, hlast, hblanks'', hcomes.trans hlater,
            hcomes'.trans hlater'⟩

end Behind

end Lifting

end MustacheJsx
