import MustacheJsx.Mustache.Span
import MustacheJsx.Mustache.Tag
import MustacheJsx.Proofs.Printing.Expression

/-!
# Printed tags

A tag is printed between its braces. The closing braces of a string do not end it, and neither the
blanks nor the tildes at its ends are there to be dropped, so the span of a printed tag is what was
printed (`Span.read_printed`), and it is read as the tag up to numbers (`Tag.read_content`).
-/

namespace MustacheJsx

open Expression (printedParams printedHash printedCall paramsArePlain hashIsPlain unnumberedParams
  unnumberedHash isArgumentStart Follows)

/-! ### Printing -/

/-- The text of a comment: no two dashes stand in it, and it does not run into its delimiters. -/
def isPlainComment (value : String) : Bool :=
  !Text.contains ['-', '-'] value.toList && value.toList.head? != some '>' &&
    value.toList.head? != some '-' && value.toList.getLast? != some '-'

def argumentsArePlain (params : List Expression) (hash : Hash) : Bool :=
  paramsArePlain params && hashIsPlain hash

namespace Tag

/-- What is printed between the braces of a tag. -/
def content : Tag → List Char
  | .expression m => printedCall m.callee m.params m.hash
  | .comment value => '!' :: '-' :: '-' :: (value.toList ++ ['-', '-'])
  | .partialCall call => '>' :: ' ' :: (call.name.toList ++ (printedParams call.params ++
      printedHash call.hash))
  | .openBlock head => '#' :: printedCall (.path head.path) head.params head.hash
  | .elseBranch none => ['e', 'l', 's', 'e']
  | .elseBranch (some head) =>
    'e' :: 'l' :: 's' :: 'e' :: ' ' :: printedCall (.path head.path) head.params head.hash
  | .closeBlock name => '/' :: name.toList

def isTrusting : Tag → Bool
  | .expression m => m.trusting
  | _ => false

def braces (tag : Tag) : Nat := if tag.isTrusting then 3 else 2

def printed (tag : Tag) : List Char :=
  List.replicate tag.braces '{' ++ (tag.content ++ List.replicate tag.braces '}')

/-- A tag of plain expressions with a plain name. An `else if` is no plain tag: it is printed as a
block inside an `else`. -/
def isPlain : Tag → Bool
  | .expression m => m.callee.isPlain && argumentsArePlain m.params m.hash
  | .comment value => isPlainComment value
  | .partialCall call =>
    Text.isIdentifier call.name.toList && argumentsArePlain call.params call.hash
  | .openBlock head =>
    head.path.isPlain && Text.isIdentifier head.name.toList &&
      argumentsArePlain head.params head.hash
  | .elseBranch chain => chain.isNone
  | .closeBlock name => Text.isIdentifier name.toList

end Tag

def Mustache.unnumbered (m : Mustache) : Mustache :=
  { m with
    callee := m.callee.unnumbered
    params := unnumberedParams m.params
    hash := unnumberedHash m.hash }

def BlockHead.unnumbered (head : BlockHead) : BlockHead :=
  { path := { head.path with id := 0 }
    params := unnumberedParams head.params
    hash := unnumberedHash head.hash }

def PartialCall.unnumbered (call : PartialCall) : PartialCall :=
  { call with
    params := unnumberedParams call.params
    hash := unnumberedHash call.hash }

def Tag.unnumbered : Tag → Tag
  | .expression m => .expression m.unnumbered
  | .comment value => .comment value
  | .partialCall call => .partialCall call.unnumbered
  | .openBlock head => .openBlock head.unnumbered
  | .elseBranch chain => .elseBranch (chain.map BlockHead.unnumbered)
  | .closeBlock name => .closeBlock name

/-! ### Texts of comments -/

/-- What is left of the text of a comment: no two dashes stand in it, and none at its end. -/
structure Undashed (cs : List Char) : Prop where
  single : Text.contains ['-', '-'] cs = false
  last : cs.getLast? ≠ some '-'

theorem undashed_of_isPlainComment {value : String} (h : isPlainComment value = true) :
    Undashed value.toList := by
  simp only [isPlainComment, Bool.and_eq_true, Bool.not_eq_true', bne_iff_ne] at h
  exact ⟨h.1.1.1, h.2⟩

theorem Undashed.tail {c : Char} {cs : List Char} (h : Undashed (c :: cs)) : Undashed cs := by
  obtain ⟨hsingle, hlast⟩ := h
  constructor
  · rw [Text.contains, Text.cutAt?] at hsingle
    rw [Text.contains]
    split at hsingle
    · cases hsingle
    · cases hcut : Text.cutAt? ['-', '-'] cs with
      | none => rfl
      | some cut =>
        rw [hcut] at hsingle
        cases hsingle
  · cases cs with
    | nil => simp
    | cons d cs =>
      rw [List.getLast?_cons_cons] at hlast
      exact hlast

theorem Undashed.after_dash {cs : List Char} (h : Undashed ('-' :: cs)) :
    ∃ d ds, cs = d :: ds ∧ d ≠ '-' := by
  cases cs with
  | nil => exact absurd rfl h.last
  | cons d ds =>
    refine ⟨d, ds, rfl, ?_⟩
    rintro rfl
    have hsingle := h.single
    simp [Text.contains, Text.cutAt?, Text.afterLead?] at hsingle

theorem afterLead?_dashes {c : Char} {cs rest mark : List Char} (h : Undashed (c :: cs)) :
    Text.afterLead? ('-' :: '-' :: mark) (c :: (cs ++ rest)) = none := by
  by_cases hc : c = '-'
  · subst hc
    obtain ⟨d, ds, rfl, hd⟩ := h.after_dash
    simp [Text.afterLead?, Ne.symm hd]
  · simp [Text.afterLead?, Ne.symm hc]

theorem cutAtDashes?_comment {value : List Char} (h : Undashed value) (rest : List Char) :
    Span.cutAtDashes? (value ++ '-' :: '-' :: '}' :: '}' :: rest) =
      some (value, false, rest) := by
  induction value with
  | nil => simp [Span.cutAtDashes?, Text.afterLead?]
  | cons c value ih =>
    rw [List.cons_append, Span.cutAtDashes?, afterLead?_dashes h, afterLead?_dashes h,
      ih h.tail]
    rfl

theorem commentText_dashes (value : List Char) :
    Tag.commentText ('-' :: '-' :: (value ++ ['-', '-'])) = value := by
  rw [Tag.commentText, List.reverse_append]
  simp

/-! ### Closing braces -/

/-- In `cs` nothing ends a mustache: it holds no closing brace outside of its strings. -/
def Unclosed (cs : List Char) : Prop :=
  ∀ close rest, Span.cutAtClose? ('}' :: close) .outside (cs ++ rest) =
    (Span.cutAtClose? ('}' :: close) .outside rest).map fun cut => (cs ++ cut.1, cut.2)

theorem unclosed_nil : Unclosed [] := by
  intro close rest
  simp

theorem Unclosed.append {cs ds : List Char} (hc : Unclosed cs) (hd : Unclosed ds) :
    Unclosed (cs ++ ds) := by
  intro close rest
  rw [List.append_assoc, hc close, hd close, Option.map_map]
  simp only [Function.comp_def, List.append_assoc]

theorem unclosed_singleton {c : Char} (hbrace : c ≠ '}') (hdouble : c ≠ '"') (hsingle : c ≠ '\'') :
    Unclosed [c] := by
  intro close rest
  have hafter : Text.afterLead? ('}' :: close) (c :: rest) = none := by
    simp [Text.afterLead?, Ne.symm hbrace]
  rw [List.singleton_append, Span.cutAtClose?, if_pos rfl, hafter]
  simp [Span.Quoting.after, hdouble, hsingle]

theorem Unclosed.cons {c : Char} {cs : List Char} (hc : Unclosed [c]) (hcs : Unclosed cs) :
    Unclosed (c :: cs) :=
  hc.append hcs

theorem unclosed_of_forall {cs : List Char}
    (h : ∀ c ∈ cs, c ≠ '}' ∧ c ≠ '"' ∧ c ≠ '\'') : Unclosed cs := by
  induction cs with
  | nil => exact unclosed_nil
  | cons c cs ih =>
    obtain ⟨hbrace, hdouble, hsingle⟩ := h c List.mem_cons_self
    exact (unclosed_singleton hbrace hdouble hsingle).cons
      (ih fun d hd => h d (List.mem_cons_of_mem _ hd))

theorem unclosed_token {cs : List Char} (h : ∀ c ∈ cs, isTokenChar c = true) : Unclosed cs := by
  refine unclosed_of_forall fun c hc => ?_
  have htoken := h c hc
  exact ⟨ne_of_isTokenChar htoken (by decide), ne_of_isTokenChar htoken (by decide),
    ne_of_isTokenChar htoken (by decide)⟩

theorem unclosed_key {key : String} (h : Expression.isPlainKey key = true) :
    Unclosed key.toList := by
  refine unclosed_of_forall fun c hc => ?_
  have hkey := (Expression.key_chars h).2 c hc
  refine ⟨?_, ?_, ?_⟩
  · rintro rfl
    cases hkey
  · rintro rfl
    cases hkey
  · rintro rfl
    cases hkey

theorem cutAtClose?_escaped (close value rest : List Char) :
    Span.cutAtClose? close (.inside '"') (escaped value ++ '"' :: rest) =
      (Span.cutAtClose? close .outside rest).map
        fun cut => (escaped value ++ '"' :: cut.1, cut.2) := by
  induction value with
  | nil => simp [escaped, Span.cutAtClose?, Span.Quoting.after]
  | cons c value ih =>
    rw [escaped]
    split
    · simp [Span.cutAtClose?, Span.Quoting.after, ih, Function.comp_def]
    · next h =>
      simp only [not_or] at h
      simp [Span.cutAtClose?, Span.Quoting.after, h.1, h.2, ih, Function.comp_def]

theorem unclosed_string (value : List Char) : Unclosed ('"' :: (escaped value ++ ['"'])) := by
  intro close rest
  have hafter :
      Text.afterLead? ('}' :: close) ('"' :: (escaped value ++ ['"'] ++ rest)) = none := by
    simp [Text.afterLead?]
  rw [List.cons_append, Span.cutAtClose?, if_pos rfl, hafter, List.append_assoc,
    List.singleton_append]
  simp [Span.Quoting.after, cutAtClose?_escaped, Function.comp_def]

theorem unclosed_literal {value : Literal} (h : (Expression.literal value).isPlain = true) :
    Unclosed value.printed := by
  rcases Expression.literal_cases h with ⟨chars, rfl⟩ | ⟨hword, -, -⟩
  · exact unclosed_string chars.toList
  · exact unclosed_token hword.isTokenChar

mutual

theorem unclosed_printed (e : Expression) (h : e.isPlain = true) : Unclosed e.printed := by
  match e with
  | .path p => exact unclosed_token (Path.isTokenChar_of_mem_printed h)
  | .literal value => exact unclosed_literal h
  | .call callee params hash =>
    simp only [Expression.isPlain, Bool.and_eq_true] at h
    have hopen : Unclosed ['('] := unclosed_singleton (by decide) (by decide) (by decide)
    have hclose : Unclosed [')'] := unclosed_singleton (by decide) (by decide) (by decide)
    have harguments := (unclosed_printedParams params h.1.2).append
      ((unclosed_printedHash hash h.2).append hclose)
    exact hopen.cons ((unclosed_printed callee h.1.1).append harguments)

theorem unclosed_printedParams (params : List Expression) (h : paramsArePlain params = true) :
    Unclosed (printedParams params) := by
  match params with
  | [] => exact unclosed_nil
  | param :: params =>
    simp only [paramsArePlain, Bool.and_eq_true] at h
    have hspace : Unclosed [' '] := unclosed_singleton (by decide) (by decide) (by decide)
    exact hspace.cons ((unclosed_printed param h.1).append (unclosed_printedParams params h.2))

theorem unclosed_printedHash (hash : Hash) (h : hashIsPlain hash = true) :
    Unclosed (printedHash hash) := by
  match hash with
  | [] => exact unclosed_nil
  | (key, value) :: hash =>
    simp only [hashIsPlain, Bool.and_eq_true] at h
    have hspace : Unclosed [' '] := unclosed_singleton (by decide) (by decide) (by decide)
    have hequals : Unclosed ['='] := unclosed_singleton (by decide) (by decide) (by decide)
    exact hspace.cons ((unclosed_key h.1.1).append (hequals.cons
      ((unclosed_printed value h.1.2).append (unclosed_printedHash hash h.2))))

end

theorem cutAtClose?_unclosed {cs : List Char} (h : Unclosed cs) (close rest : List Char) :
    Span.cutAtClose? ('}' :: close) .outside (cs ++ ('}' :: close ++ rest)) =
      some (cs, rest) := by
  have hafter : Text.afterLead? ('}' :: close) ('}' :: close ++ rest) = some rest :=
    Text.afterLead?_eq_some_iff.2 rfl
  have hclose : Span.cutAtClose? ('}' :: close) .outside ('}' :: close ++ rest) =
      some ([], rest) := by
    rw [List.cons_append] at hafter ⊢
    rw [Span.cutAtClose?, if_pos rfl, hafter]
  rw [h close, hclose]
  simp

/-! ### Both ends of a tag -/

def isArgumentEnd (c : Char) : Bool := isTokenChar c || c == '"' || c == ')'

/-- The last character is that of an argument. -/
def EndsInArgument (cs : List Char) : Prop := ∃ ds c, cs = ds ++ [c] ∧ isArgumentEnd c = true

theorem EndsInArgument.append {cs : List Char} (h : EndsInArgument cs) (ds : List Char) :
    EndsInArgument (ds ++ cs) :=
  Expression.EndsIn.append h ds

theorem EndsInArgument.cons {cs : List Char} (h : EndsInArgument cs) (d : Char) :
    EndsInArgument (d :: cs) :=
  h.append [d]

theorem endsInArgument_token {cs : List Char} (hne : cs ≠ [])
    (h : ∀ c ∈ cs, isTokenChar c = true) : EndsInArgument cs :=
  Expression.endsIn_of_forall hne fun c hc => by simp [isArgumentEnd, h c hc]

theorem plainSpelling_ends : Expression.plainSpelling.Ends isArgumentEnd where
  path p h := endsInArgument_token (Path.printed_ne_nil h) (Path.isTokenChar_of_mem_printed h)
  token c hc := by simp [isArgumentEnd, hc]
  quote := by decide
  close := by decide

theorem endsInArgument_printed {e : Expression} (h : e.isPlain = true) :
    EndsInArgument e.printed := by
  rw [← Expression.allows_plainSpelling] at h
  rw [← Expression.written_plainSpelling]
  exact Spelling.endsIn_written plainSpelling_ends h

theorem endsInArgument_append_arguments {cs : List Char} (hcs : EndsInArgument cs)
    {params : List Expression} {hash : Hash} (h : argumentsArePlain params hash = true) :
    EndsInArgument (cs ++ (printedParams params ++ printedHash hash)) := by
  simp only [argumentsArePlain, Bool.and_eq_true] at h
  rw [← Expression.allowsParams_plainSpelling, ← Expression.allowsHash_plainSpelling] at h
  rw [← Expression.writtenParams_plainSpelling, ← Expression.writtenHash_plainSpelling]
  exact Spelling.endsIn_append_arguments plainSpelling_ends hcs h.1 h.2

theorem endsInArgument_identifier {cs : List Char} (h : Text.isIdentifier cs = true) :
    EndsInArgument cs := by
  have hword := isWord_of_isIdentifier h
  refine endsInArgument_token hword.ne_nil fun c hc => ?_
  simp [isTokenChar, hword.chars c hc]

namespace Tag

def isComment : Tag → Bool
  | .comment _ => true
  | _ => false

/-- A tag that is no comment begins with an argument or with the sign of its kind. -/
def isContentStart (c : Char) : Bool :=
  isArgumentStart c || c == '#' || c == '/' || c == '>'

theorem exists_content_eq_cons {tag : Tag} (h : tag.isPlain = true)
    (hcomment : tag.isComment = false) :
    ∃ c cs, tag.content = c :: cs ∧ isContentStart c = true := by
  cases tag with
  | expression m =>
    simp only [isPlain, Bool.and_eq_true] at h
    obtain ⟨c, cs, hc, hstart⟩ := Expression.exists_printed_eq_cons h.1
    refine ⟨c, cs ++ (printedParams m.params ++ printedHash m.hash), ?_, ?_⟩
    · rw [content, printedCall, hc, List.cons_append]
    · simp [isContentStart, hstart]
  | comment value => cases hcomment
  | partialCall call => exact ⟨_, _, rfl, by decide⟩
  | openBlock head => exact ⟨_, _, rfl, by decide⟩
  | elseBranch chain =>
    cases chain with
    | none => exact ⟨_, _, rfl, by decide⟩
    | some head => exact ⟨_, _, rfl, by decide⟩
  | closeBlock name => exact ⟨_, _, rfl, by decide⟩

theorem endsInArgument_content {tag : Tag} (h : tag.isPlain = true)
    (hcomment : tag.isComment = false) : EndsInArgument tag.content := by
  cases tag with
  | expression m =>
    simp only [isPlain, Bool.and_eq_true] at h
    exact endsInArgument_append_arguments (endsInArgument_printed h.1) h.2
  | comment value => cases hcomment
  | partialCall call =>
    simp only [isPlain, Bool.and_eq_true] at h
    exact ((endsInArgument_append_arguments (endsInArgument_identifier h.1) h.2).cons ' ').cons '>'
  | openBlock head =>
    simp only [isPlain, Bool.and_eq_true] at h
    have hpath : EndsInArgument (Expression.path head.path).printed := endsInArgument_printed h.1.1
    exact (endsInArgument_append_arguments hpath h.2).cons '#'
  | elseBranch chain =>
    cases chain with
    | none => exact ⟨['e', 'l', 's'], 'e', rfl, by decide⟩
    | some head => cases h
  | closeBlock name => exact (endsInArgument_identifier h).cons '/'

theorem unclosed_arguments {params : List Expression} {hash : Hash}
    (h : argumentsArePlain params hash = true) :
    Unclosed (printedParams params ++ printedHash hash) := by
  simp only [argumentsArePlain, Bool.and_eq_true] at h
  exact (unclosed_printedParams params h.1).append (unclosed_printedHash hash h.2)

theorem unclosed_identifier {cs : List Char} (h : Text.isIdentifier cs = true) : Unclosed cs := by
  exact unclosed_token (isWord_of_isIdentifier h).isTokenChar

theorem unclosed_content {tag : Tag} (h : tag.isPlain = true) (hcomment : tag.isComment = false) :
    Unclosed tag.content := by
  cases tag with
  | expression m =>
    simp only [isPlain, Bool.and_eq_true] at h
    exact (unclosed_printed m.callee h.1).append (unclosed_arguments h.2)
  | comment value => cases hcomment
  | partialCall call =>
    simp only [isPlain, Bool.and_eq_true] at h
    have hsign : Unclosed ['>', ' '] := unclosed_of_forall (by simp)
    exact hsign.append ((unclosed_identifier h.1).append (unclosed_arguments h.2))
  | openBlock head =>
    simp only [isPlain, Bool.and_eq_true] at h
    have hsign : Unclosed ['#'] := unclosed_of_forall (by simp)
    have hpath := unclosed_printed (.path head.path) h.1.1
    exact hsign.append (hpath.append (unclosed_arguments h.2))
  | elseBranch chain =>
    cases chain with
    | none => exact unclosed_of_forall (by simp [content])
    | some head => cases h
  | closeBlock name =>
    have hsign : Unclosed ['/'] := unclosed_of_forall (by simp)
    exact hsign.append (unclosed_identifier h)

theorem ne_of_isContentStart {c d : Char} (hc : isContentStart c = true)
    (hd : isContentStart d = false) : c ≠ d := by
  intro h
  rw [h, hd] at hc
  cases hc

theorem isBlank_of_isContentStart {c : Char} (h : isContentStart c = true) :
    Text.isBlank c = false := by
  simp only [isContentStart, Bool.or_eq_true, beq_iff_eq] at h
  rcases h with ((h | rfl) | rfl) | rfl
  · exact Expression.isBlank_of_isArgumentStart h
  · decide
  · decide
  · decide

theorem isBlank_of_isArgumentEnd {c : Char} (h : isArgumentEnd c = true) :
    Text.isBlank c = false := by
  simp only [isArgumentEnd, Bool.or_eq_true, beq_iff_eq] at h
  rcases h with (h | rfl) | rfl
  · exact isBlank_eq_false (toNat_of_isTokenChar h)
  · decide
  · decide

theorem trim_of_endsIn {c : Char} {cs : List Char} (hstart : Text.isBlank c = false)
    (hend : Expression.EndsIn (fun c => !Text.isBlank c) (c :: cs)) :
    Text.trim (c :: cs) = c :: cs := by
  obtain ⟨ds, d, hd, hlast⟩ := hend
  rw [Bool.not_eq_true'] at hlast
  rw [Text.trim, Text.trimStart_cons_of_not_blank cs hstart, Text.trimEnd, hd]
  simp [hlast]

theorem trim_eq {c : Char} {cs : List Char} (hstart : Text.isBlank c = false)
    (hend : EndsInArgument (c :: cs)) : Text.trim (c :: cs) = c :: cs := by
  obtain ⟨ds, d, hd, hlast⟩ := hend
  exact trim_of_endsIn hstart ⟨ds, d, hd, by simp [isBlank_of_isArgumentEnd hlast]⟩

/-! ### Spans -/

theorem trailingTilde_eq {cs : List Char} (h : EndsInArgument cs) :
    Span.trailingTilde cs = (false, cs) := by
  obtain ⟨ds, d, rfl, hlast⟩ := h
  rw [Span.trailingTilde, List.reverse_append]
  split
  · next heq =>
    simp only [List.reverse_singleton, List.singleton_append, List.cons.injEq] at heq
    rw [heq.1] at hlast
    cases hlast
  · rfl

theorem leadingTilde_eq {c : Char} (cs : List Char) (h : c ≠ '~') :
    Span.leadingTilde (c :: cs) = (false, c :: cs) := by
  unfold Span.leadingTilde
  split
  · next heq =>
    cases heq
    exact absurd rfl h
  · rfl

theorem startsWith_braces {c : Char} (cs : List Char) (h : c ≠ '{') (trusting : Bool) :
    Text.startsWith ['{', '{', '{']
      (List.replicate (if trusting then 3 else 2) '{' ++ c :: cs) = trusting := by
  cases trusting with
  | true => simp [Text.startsWith, Text.afterLead?, List.replicate]
  | false => simp [Text.startsWith, Text.afterLead?, List.replicate, Ne.symm h]

theorem read_printed_comment {value : String} (h : isPlainComment value = true)
    (rest : List Char) :
    Span.read ((Tag.comment value).printed ++ rest) =
      .ok { content := (Tag.comment value).content, trusting := false, stripLeft := false
            stripRight := false, lead := 2, rest } := by
  have hcut := cutAtDashes?_comment (undashed_of_isPlainComment h) rest
  have hprinted : (Tag.comment value).printed ++ rest =
      '{' :: '{' :: '!' :: '-' :: '-' :: (value.toList ++ '-' :: '-' :: '}' :: '}' :: rest) := by
    simp [printed, content, braces, isTrusting, List.replicate]
  rw [hprinted, Span.read]
  simp [Text.startsWith, Text.afterLead?, Span.leadingTilde, hcut, content]

end Tag

theorem Span.read_printed {tag : Tag} (h : tag.isPlain = true) (rest : List Char) :
    Span.read (tag.printed ++ rest) =
      .ok { content := tag.content, trusting := tag.isTrusting, stripLeft := false
            stripRight := false, lead := tag.braces, rest } := by
  cases hcomment : tag.isComment with
  | true =>
    cases tag with
    | comment value => exact Tag.read_printed_comment h rest
    | _ => cases hcomment
  | false =>
    obtain ⟨c, cs, hc, hstart⟩ := Tag.exists_content_eq_cons h hcomment
    have hend := Tag.endsInArgument_content h hcomment
    have hunclosed := Tag.unclosed_content h hcomment
    have hbraces : tag.braces = if tag.isTrusting = true then 3 else 2 := rfl
    have hprinted : tag.printed ++ rest = List.replicate tag.braces '{' ++
        c :: (cs ++ (List.replicate tag.braces '}' ++ rest)) := by
      simp [Tag.printed, hc]
    have htrusting := Tag.startsWith_braces (cs ++ (List.replicate tag.braces '}' ++ rest))
      (Tag.ne_of_isContentStart hstart (by decide)) tag.isTrusting
    have hdrop : (List.replicate tag.braces '{' ++
        c :: (cs ++ (List.replicate tag.braces '}' ++ rest))).drop tag.braces =
        c :: (cs ++ (List.replicate tag.braces '}' ++ rest)) :=
      List.drop_left' List.length_replicate
    have hcomment' : Text.afterLead? ['!', '-', '-']
        (c :: (cs ++ (List.replicate tag.braces '}' ++ rest))) = none := by
      have hne : '!' ≠ c := Ne.symm (Tag.ne_of_isContentStart hstart (by decide))
      simp [Text.afterLead?, hne]
    have hclose : List.replicate tag.braces '}' = '}' :: List.replicate (tag.braces - 1) '}' := by
      rw [hbraces]
      cases tag.isTrusting with
      | true => rfl
      | false => rfl
    have hcut := cutAtClose?_unclosed hunclosed (List.replicate (tag.braces - 1) '}') rest
    rw [← hclose, hc, List.cons_append] at hcut
    rw [hc] at hend
    rw [hprinted, Span.read]
    dsimp only
    rw [← hbraces] at htrusting
    rw [htrusting, ← hbraces, hdrop,
      Tag.leadingTilde_eq _ (Tag.ne_of_isContentStart hstart (by decide))]
    dsimp only
    rw [hcomment', hcut]
    dsimp only
    rw [Tag.trailingTilde_eq hend, hc]
    rfl

namespace Tag

/-! ### Reading what is printed -/

/-- A tag that is no comment and has no blanks around it is read by its first characters. -/
theorem read_of_trim {c : Char} {cs : List Char} {trusting : Bool} {next last : Nat} {found : Tag}
    (hmark : c ≠ '!') (htrim : Text.trim (c :: cs) = c :: cs)
    (h : (if trusting then readMustache true (c :: cs) else readTrimmed (c :: cs)).run next =
      (.ok found, last)) (offset : Nat) :
    read (c :: cs) trusting offset next = (.ok found, last) := by
  rw [read]
  · rw [htrim]
    dsimp only
    rw [h]
  · rintro rest heq
    cases heq
    exact hmark rfl

theorem read_of_run {c : Char} {cs : List Char} {trusting : Bool} {next last : Nat} {found : Tag}
    (hstart : isContentStart c = true) (hend : EndsInArgument (c :: cs))
    (h : (if trusting then readMustache true (c :: cs) else readTrimmed (c :: cs)).run next =
      (.ok found, last)) (offset : Nat) :
    read (c :: cs) trusting offset next = (.ok found, last) :=
  read_of_trim (ne_of_isContentStart hstart (by decide))
    (trim_eq (isBlank_of_isContentStart hstart) hend) h offset

theorem readMustache_printed {m : Mustache} (h : (expression m).isPlain = true) (next : Nat) :
    ∃ found last, (readMustache m.trusting (content (.expression m))).run next =
      (.ok found, last) ∧ found.unnumbered = unnumbered (.expression m) := by
  simp only [isPlain, argumentsArePlain, Bool.and_eq_true] at h
  obtain ⟨callee, params, hash, last, hread, hcallee, hparams, hhash⟩ :=
    Expression.readCall_printed h.1 h.2.1 h.2.2 next
  refine ⟨.expression { callee, params, hash, trusting := m.trusting }, last, ?_, ?_⟩
  · rw [readMustache, content, run_bind_of_run_eq_ok hread]
    rfl
  · simp only [unnumbered, Mustache.unnumbered, hcallee, hparams, hhash]

theorem readBlockHead_printed {head : BlockHead} (h : (openBlock head).isPlain = true)
    (next : Nat) :
    ∃ found last,
      (readBlockHead (printedCall (.path head.path) head.params head.hash)).run next =
        (.ok found, last) ∧ found.unnumbered = head.unnumbered := by
  simp only [isPlain, argumentsArePlain, Bool.and_eq_true] at h
  have hpath : (Expression.path head.path).isPlain = true := h.1.1
  obtain ⟨callee, params, hash, last, hread, hcallee, hparams, hhash⟩ :=
    Expression.readCall_printed hpath h.2.1 h.2.2 next
  cases callee with
  | path p =>
    simp only [Expression.unnumbered, Expression.path.injEq] at hcallee
    refine ⟨{ path := p, params, hash }, last, ?_, ?_⟩
    · rw [readBlockHead, run_bind_of_run_eq_ok hread]
      rfl
    · simp only [BlockHead.unnumbered, hcallee, hparams, hhash]
  | literal value => cases hcallee
  | call callee params hash => cases hcallee

theorem readPartial_printed {call : PartialCall} (h : (partialCall call).isPlain = true)
    (next : Nat) :
    ∃ found last, (readPartial (' ' :: (call.name.toList ++ (printedParams call.params ++
        printedHash call.hash)))).run next = (.ok found, last) ∧
      found.unnumbered = unnumbered (.partialCall call) := by
  simp only [isPlain, argumentsArePlain, Bool.and_eq_true] at h
  obtain ⟨hname, hparams, hhash⟩ := h
  have hword := isWord_of_isIdentifier hname
  have hend : Expression.Closes [] := Or.inl rfl
  have hfollows := Expression.follows_printedParams hparams
    (Expression.follows_printedHash hhash hend)
  rw [List.append_nil] at hfollows
  have htake := Expression.takeToken_append_of_follows hword.isTokenChar hfollows
  have hofList : String.ofList call.name.toList = call.name := String.ofList_toList
  have hreadName : (readPartialName (' ' :: (call.name.toList ++ (printedParams call.params ++
      printedHash call.hash)))).run next =
      (.ok (call.name, printedParams call.params ++ printedHash call.hash), next) := by
    cases hchars : call.name.toList with
    | nil => exact absurd hchars hword.ne_nil
    | cons c cs =>
      have hc := hword.chars c (by simp [hchars])
      rw [hchars, List.cons_append] at htake
      have hrange := toNat_of_isNameChar hc
      rw [readPartialName, List.cons_append,
        Text.trimStart_space_cons _ (isBlank_eq_false (by omega))]
      split
      · next heq =>
        cases heq
        cases hc
      · next heq =>
        cases heq
        cases hc
      · next heq =>
        cases heq
        cases hc
      · rw [htake, ← hchars]
        dsimp only
        rw [hofList]
        rfl
  obtain ⟨params, hash, last, hread, hparams', hhash'⟩ := Expression.readArguments_printed hparams
    hhash (Expression.fuelFor (printedParams call.params ++ printedHash call.hash))
    (by simp [Expression.fuelFor]) next
  have hempty : call.name.isEmpty = false := by
    have hne := hword.ne_nil
    simpa [String.isEmpty_iff] using hne
  refine ⟨.partialCall { name := call.name, params, hash }, last, ?_, ?_⟩
  · rw [readPartial, run_bind_of_run_eq_ok hreadName]
    dsimp only
    rw [hempty]
    simp only [Bool.false_eq_true, if_false]
    rw [run_bind_of_run_eq_ok hread]
    rfl
  · simp only [unnumbered, PartialCall.unnumbered, hparams', hhash']

theorem takeWhile_printedCall_ne {callee : Expression} {params : List Expression} {hash : Hash}
    (hcallee : callee.isPlain = true) (harguments : argumentsArePlain params hash = true) :
    (printedCall callee params hash).takeWhile isNameChar ≠ ['e', 'l', 's', 'e'] := by
  simp only [argumentsArePlain, Bool.and_eq_true] at harguments
  have hend : Expression.Closes [] := Or.inl rfl
  have hfollows := Expression.follows_printedParams harguments.1
    (Expression.follows_printedHash harguments.2 hend)
  rw [List.append_nil] at hfollows
  have hends : EndsWord (printedParams params ++ printedHash hash) := by
    intro c hc
    generalize printedParams params ++ printedHash hash = arguments at hfollows hc
    cases hfollows with
    | nothing => cases hc
    | close cs =>
      cases hc
      decide
    | argument d cs =>
      cases hc
      decide
  have of_head : ∀ (c : Char) (cs : List Char), isNameChar c = false → callee.printed = c :: cs →
      (printedCall callee params hash).takeWhile isNameChar ≠ ['e', 'l', 's', 'e'] := by
    intro c cs hc hprinted
    rw [printedCall, hprinted, List.cons_append, List.takeWhile_cons_of_neg (by simp [hc])]
    simp
  have of_word : ∀ (word rest : List Char), (∀ c ∈ word, isNameChar c = true) → EndsWord rest →
      callee.printed = word ++ rest → word ≠ ['e', 'l', 's', 'e'] →
      (printedCall callee params hash).takeWhile isNameChar ≠ ['e', 'l', 's', 'e'] := by
    intro word rest hword hrest hprinted hne
    have hends' : EndsWord (rest ++ (printedParams params ++ printedHash hash)) := by
      cases rest with
      | nil => exact hends
      | cons c cs => exact hrest
    rw [printedCall, hprinted, List.append_assoc, takeWhile_word hword hends']
    exact hne
  have hnil : EndsWord [] := by simp [EndsWord]
  cases callee with
  | path p =>
    rcases Path.printed_cases hcallee with ⟨rest, hp⟩ | ⟨rest, hp⟩ |
      ⟨word, rest, hp, hw, hrest, hne⟩
    · exact of_head '@' rest (by decide) hp
    · exact of_head '.' rest (by decide) hp
    · exact of_word word rest hw.chars hrest hp (hne "else" (by decide))
  | literal value =>
    rcases Expression.literal_cases hcallee with ⟨chars, rfl⟩ | ⟨hword, -, hne⟩
    · exact of_head '"' _ (by decide) rfl
    · exact of_word value.printed [] hword.chars hnil (List.append_nil _).symm hne
  | call callee params hash => exact of_head '(' _ (by decide) rfl

/-- What begins with no mark of a tag and not with the word `else` is read as a value. -/
theorem readTrimmed_of_value {c : Char} {cs : List Char}
    (hmark : ∀ mark ∈ ['#', '/', '>', '^', '&'], c ≠ mark)
    (hne : (c :: cs).takeWhile isNameChar ≠ ['e', 'l', 's', 'e']) :
    readTrimmed (c :: cs) = readMustache false (c :: cs) := by
  have helse : c :: cs ≠ "else".toList := by
    intro heq
    rw [heq] at hne
    exact hne (by decide)
  have hlead : Text.afterLead? "else ".toList (c :: cs) = none := by
    cases hafter : Text.afterLead? "else ".toList (c :: cs) with
    | none => rfl
    | some rest =>
      have heq := Text.afterLead?_eq_some_iff.1 hafter
      have hspace : isNameChar ' ' = false := by decide
      have hword : IsWord ['e', 'l', 's', 'e'] := isWord_of_isIdentifier (by decide)
      have hend : EndsWord (' ' :: rest) := by simp [EndsWord, hspace]
      have htake := takeWhile_word hword.chars hend
      rw [heq] at hne
      exact absurd htake hne
  rw [readTrimmed.eq_def]
  split
  · next heq => cases heq
  · next heq =>
    cases heq
    exact absurd rfl (hmark '#' (by decide))
  · next heq =>
    cases heq
    exact absurd rfl (hmark '/' (by decide))
  · next heq =>
    cases heq
    exact absurd rfl (hmark '>' (by decide))
  · next heq =>
    cases heq
    exact absurd rfl (hmark '^' (by decide))
  · next heq =>
    cases heq
    exact absurd rfl (hmark '&' (by decide))
  · rw [if_neg helse, hlead]

/-- What is printed of a value is read as a value. -/
theorem readTrimmed_expression {m : Mustache} (h : (expression m).isPlain = true) :
    readTrimmed (content (.expression m)) = readMustache false (content (.expression m)) := by
  simp only [isPlain, Bool.and_eq_true] at h
  obtain ⟨c, cs, hprinted, hc⟩ := Expression.exists_printed_eq_cons h.1
  have hne := takeWhile_printedCall_ne h.1 h.2
  have hnone : ∀ mark ∈ ['#', '/', '>', '^', '&'], isArgumentStart mark = false := by decide
  rw [content]
  rw [printedCall, hprinted, List.cons_append] at hne ⊢
  exact readTrimmed_of_value
    (fun mark hmark => Expression.ne_of_isArgumentStart hc (hnone mark hmark)) hne

theorem readTrimmed_openBlock {head : BlockHead} (h : (openBlock head).isPlain = true)
    (next : Nat) :
    ∃ found last, (readTrimmed (content (.openBlock head))).run next =
      (.ok (.openBlock found), last) ∧ found.unnumbered = head.unnumbered := by
  obtain ⟨found, last, hread, hfound⟩ := readBlockHead_printed h next
  refine ⟨found, last, ?_, hfound⟩
  simp only [isPlain, Bool.and_eq_true] at h
  obtain ⟨c, cs, hprinted, hc⟩ := Expression.exists_printed_eq_cons
    (e := .path head.path) h.1.1
  rw [content]
  rw [printedCall, hprinted, List.cons_append] at hread ⊢
  rw [readTrimmed]
  · rw [run_bind_of_run_eq_ok hread]
    rfl
  · intro rest heq
    cases heq
    cases hc
  · intro rest heq
    cases heq
    cases hc

theorem readTrimmed_closeBlock {name : String} (h : Text.isIdentifier name.toList = true)
    (next : Nat) :
    (readTrimmed (content (.closeBlock name))).run next = (.ok (.closeBlock name), next) := by
  have hword := isWord_of_isIdentifier h
  have hofList : String.ofList name.toList = name := String.ofList_toList
  have htrim : Text.trim name.toList = name.toList := by
    cases hchars : name.toList with
    | nil => exact absurd hchars hword.ne_nil
    | cons c cs =>
      have hrange := toNat_of_isNameChar (hword.chars c (by simp [hchars]))
      refine trim_eq (isBlank_eq_false (by omega)) ?_
      rw [← hchars]
      exact endsInArgument_identifier h
  have hempty : name.toList.isEmpty = false := List.isEmpty_eq_false_iff.2 hword.ne_nil
  rw [content, readTrimmed, htrim, hofList, hempty]
  rfl

/-- What is printed of a plain tag is read as the tag, up to numbers. -/
theorem read_content {tag : Tag} (h : tag.isPlain = true) (next : Nat) :
    ∃ found last,
      (∀ offset, read tag.content tag.isTrusting offset next = (.ok found, last)) ∧
      found.unnumbered = tag.unnumbered := by
  cases hcomment : tag.isComment with
  | true =>
    cases tag with
    | comment value =>
      have htext : commentText ('-' :: '-' :: (value.toList ++ ['-', '-'])) = value.toList :=
        commentText_dashes value.toList
      have hofList : String.ofList value.toList = value := String.ofList_toList
      refine ⟨.comment value, next, fun offset => ?_, rfl⟩
      rw [content, read_comment, htext, hofList]
    | _ => cases hcomment
  | false =>
    obtain ⟨c, cs, hc, hstart⟩ := exists_content_eq_cons h hcomment
    have hend := endsInArgument_content h hcomment
    have of_run : ∀ found last, (if tag.isTrusting then readMustache true tag.content
        else readTrimmed tag.content).run next = (.ok found, last) →
        ∀ offset, read tag.content tag.isTrusting offset next = (.ok found, last) := by
      intro found last hrun offset
      rw [hc] at hrun hend ⊢
      exact read_of_run hstart hend hrun offset
    cases tag with
    | expression m =>
      obtain ⟨found, last, hread, hfound⟩ := readMustache_printed h next
      refine ⟨found, last, of_run found last ?_, hfound⟩
      rw [isTrusting]
      cases htrusting : m.trusting with
      | true =>
        rw [htrusting] at hread
        exact hread
      | false =>
        rw [htrusting, ← readTrimmed_expression h] at hread
        exact hread
    | comment value => cases hcomment
    | partialCall call =>
      obtain ⟨found, last, hread, hfound⟩ := readPartial_printed h next
      exact ⟨found, last, of_run found last hread, hfound⟩
    | openBlock head =>
      obtain ⟨found, last, hread, hfound⟩ := readTrimmed_openBlock h next
      exact ⟨.openBlock found, last, of_run _ last hread, congrArg Tag.openBlock hfound⟩
    | elseBranch chain =>
      cases chain with
      | none => exact ⟨.elseBranch none, next, of_run _ next rfl, rfl⟩
      | some head => cases h
    | closeBlock name =>
      exact ⟨.closeBlock name, next, of_run _ next (readTrimmed_closeBlock h next), rfl⟩

end Tag

end MustacheJsx
