import MustacheJsx.Proofs.Opening.Basic
import MustacheJsx.Proofs.Opening.Growth
import MustacheJsx.Proofs.Opening.Span

/-!
# Lifting the mustaches out of an opening tag

A run that succeeds goes through an opening tag part by part. What it writes for the tag is
`SourceTag.markup`: the holes of its mustaches stand where the mustaches stood, a mustache that is a
whole value without quotes gets quotes, and the spellings of names with capitals are added.
-/

namespace MustacheJsx

/-! ### What is written for an opening tag -/

/-- The pieces of the parts of a value whose first mustache has the index `first`. -/
def ValuePart.pieces (first : Nat) : List ValuePart → List Piece
  | [] => []
  | .text chars :: parts => .text chars :: pieces first parts
  | .mustache _ :: parts => .hole (some first) :: pieces (first + 1) parts

namespace SourceValue

def mark (value : SourceValue) : Option Char :=
  if value.lone?.isSome then some '"' else value.quote

theorem mark_eq_none {value : SourceValue} (h : value.mark = none) :
    value.quote = none ∧ value.lone? = none := by
  rw [mark] at h
  split at h
  · cases h
  · next hlone => exact ⟨h, Option.not_isSome_iff_eq_none.1 hlone⟩

theorem IsWritten.mark {value : SourceValue} (hvalue : value.IsWritten) {q : Char}
    (h : value.mark = some q) : q = '"' ∨ q = '\'' := by
  rw [SourceValue.mark] at h
  split at h
  · cases h
    exact .inl rfl
  · exact hvalue.quote q h

/-- The mustaches of a value, and whether they are the whole of it and have no quotes. -/
def mustaches (value : SourceValue) : List (List Char × Bool) :=
  (value.parts.filterMap ValuePart.mustache?).map fun source => (source, value.lone?.isSome)

def markup (marker : Char) (first : Nat) (value : SourceValue) : List Char :=
  value.mark.toList ++ ((ValuePart.pieces first value.parts).flatMap (Piece.rendered marker) ++
    value.mark.toList)

end SourceValue

namespace SourceAttribute

def mustaches (entry : SourceAttribute) : List (List Char × Bool) :=
  (entry.value.map SourceValue.mustaches).getD []

def markup (marker : Char) (first : Nat) (entry : SourceAttribute) : List Char :=
  entry.blanks ++ (entry.name ++ match entry.value with
    | some value => value.beforeEquals ++ '=' :: (value.afterEquals ++ value.markup marker first)
    | none => [])

/-- Attributes as markup holds them; their first mustache has the index `first`. -/
def markupOfAll (marker : Char) (first : Nat) : List SourceAttribute → List Char
  | [] => []
  | entry :: attributes =>
    entry.markup marker first ++ markupOfAll marker (first + entry.mustaches.length) attributes

end SourceAttribute

def spellingMarkup (name : String) (spelling : List Char) : List Char :=
  ' ' :: name.toList ++ ['=', '"'] ++ spelling ++ ['"']

def spellingsMarkup (cased : List (List Char)) : List Char :=
  if cased.isEmpty then [] else spellingMarkup attributeSpellings (Text.joinWith ' ' cased)

def casedNames (attributes : List SourceAttribute) : List (List Char) :=
  (attributes.map SourceAttribute.name).filter fun name => name.any Text.isAsciiUpper

namespace SourceTag

def mustaches (tag : SourceTag) : List (List Char × Bool) :=
  tag.attributes.flatMap SourceAttribute.mustaches

def nameSpelling (tag : SourceTag) : List Char :=
  if tag.name.any Text.isAsciiUpper then spellingMarkup tagSpelling tag.name else []

def attributeSpelling (tag : SourceTag) : List Char := spellingsMarkup (casedNames tag.attributes)

def markup (marker : Char) (first : Nat) (tag : SourceTag) : List Char :=
  '<' :: (tag.name ++ (tag.nameSpelling ++
    (SourceAttribute.markupOfAll marker first tag.attributes ++
      (tag.blanks ++ (tag.attributeSpelling ++ tagEnd tag.selfClosing)))))

end SourceTag

/-- A mustache takes the slot that it is read as. -/
def TakesSlot (written : List Char × Bool) (slot : Slot) : Prop :=
  slot.2 = written.2 ∧ ∃ m, slot.1 = .expression m ∧ IsReadAs written.1 m

namespace Lifting

/-! ### Runs that succeed -/

/-- Reading `cs` from here on ends in `final`. -/
def Ends (marker : Char) (st : Lifting) (cs : List Char) (final : Lifting) : Prop :=
  ∃ offset, run marker offset 0 st cs = .ok final

variable {marker : Char} {st final : Lifting}

theorem exists_run_drop (cs : List Char) (offset skip : Nat) :
    ∃ offset', ∀ st, run marker offset skip st cs = run marker offset' 0 st (cs.drop skip) := by
  induction cs generalizing offset skip with
  | nil => exact ⟨offset, fun st => by rw [List.drop_nil, run, run]⟩
  | cons c cs ih =>
    cases skip with
    | zero => exact ⟨offset, fun st => rfl⟩
    | succ skip => exact ih (offset + c.utf8Size) skip

theorem Ends.step {c : Char} {cs : List Char} (h : Ends marker st (c :: cs) final) :
    ∃ offset st' count, Lifting.step marker st c cs offset = .ok (st', count) ∧
      Ends marker st' (cs.drop (count - 1)) final := by
  obtain ⟨offset, h⟩ := h
  rw [run] at h
  split at h
  · next st' count hstep =>
    obtain ⟨offset', hdrop⟩ := exists_run_drop cs (offset + c.utf8Size) (count - 1)
    rw [hdrop] at h
    exact ⟨offset, st', count, hstep, offset', h⟩
  · cases h

theorem Ends.plain {c : Char} {cs : List Char} (h : Ends marker st (c :: cs) final)
    (hplain : ¬ BeginsTag (c :: cs)) :
    Ends marker (st.stepPlain c cs).1 (cs.drop ((st.stepPlain c cs).2 - 1)) final := by
  obtain ⟨offset, st', count, hstep, h⟩ := h.step
  rw [step_of_not_beginsTag hplain] at hstep
  obtain hstep := Except.ok.inj hstep
  rw [hstep]
  exact h

/-- A text before `rest` that takes no part in a mustache of `rest`. -/
def Follows (chars rest : List Char) : Prop :=
  rest.head? = some '{' → ∀ c ∈ chars.getLast?, c ≠ '{' ∧ c ≠ '\\'

theorem getLast?_of_tail {α : Type} {x last : α} {xs : List α} (h : xs.getLast? = some last) :
    (x :: xs).getLast? = some last := by
  rw [List.getLast?_cons, h]
  rfl

theorem Follows.tail {c : Char} {chars rest : List Char} (h : Follows (c :: chars) rest) :
    Follows chars rest :=
  fun hrest d hd => h hrest d (getLast?_of_tail hd)

theorem not_beginsTag {c : Char} {chars rest : List Char} (hbraces : Unbraced (c :: chars))
    (hfollows : Follows (c :: chars) rest) : ¬ BeginsTag (c :: (chars ++ rest)) := by
  rintro (⟨tail, heq⟩ | ⟨tail, heq⟩)
  · cases chars with
    | nil =>
      cases heq
      exact (hfollows rfl '{' rfl).1 rfl
    | cons d chars =>
      cases heq
      exact hbraces ⟨[], chars, rfl⟩
  · cases chars with
    | nil =>
      cases heq
      exact (hfollows rfl '\\' rfl).2 rfl
    | cons d chars =>
      cases chars with
      | nil =>
        cases heq
        exact (hfollows rfl '{' rfl).1 rfl
      | cons e chars =>
        cases heq
        exact hbraces ⟨['\\'], chars, rfl⟩

theorem not_beginsTag_of_ne {c : Char} {cs : List Char} (hbrace : c ≠ '{') (hbackslash : c ≠ '\\') :
    ¬ BeginsTag (c :: cs) := by
  rintro (⟨tail, heq⟩ | ⟨tail, heq⟩)
  · exact hbrace (List.cons.inj heq).1.symm
  · exact hbackslash (List.cons.inj heq).1.symm

/-! ### Characters of a tag -/

variable {slots : List Slot} {markup : List Char} {blocks : List String} {open_ : OpenTag}

theorem Ends.write {c : Char} {cs : List Char} {tag : OpenTag}
    (h : Ends marker st (c :: cs) final) (hplain : ¬ BeginsTag (c :: cs))
    (hst : Holds st slots markup blocks (some open_))
    (hstep : st.stepTag open_ c cs = ({ st.write [c] with tag := some tag }, 1)) :
    ∃ st', Ends marker st' cs final ∧ Holds st' slots (markup ++ [c]) blocks (some tag) := by
  have hends := h.plain hplain
  rw [stepPlain, hst.tag] at hends
  dsimp only at hends
  rw [hstep] at hends
  exact ⟨_, hends, (hst.write [c]).setTag (some tag)⟩

/-- Characters outside quotes that do not end the tag. -/
structure Outside (chars rest : List Char) : Prop where
  allowed : ∀ c ∈ chars, c ≠ '>' ∧ c ≠ '"' ∧ c ≠ '\''
  braces : Unbraced chars
  follows : Follows chars rest
  slash : rest.head? = some '>' → chars.getLast? ≠ some '/'

theorem Outside.tail {c : Char} {chars rest : List Char} (h : Outside (c :: chars) rest) :
    Outside chars rest :=
  ⟨fun d hd => h.allowed d (List.mem_cons_of_mem c hd), h.braces.tail, h.follows.tail,
    fun hrest hlast => h.slash hrest (getLast?_of_tail hlast)⟩

theorem stepTag_outside {c : Char} {cs : List Char} (st : Lifting)
    (hquoted : ∀ q, open_.position ≠ .quoted q) (hgreater : c ≠ '>')
    (hslash : c = '/' → cs.head? ≠ some '>') :
    st.stepTag open_ c cs = ({ st.write [c] with tag := some (open_.after c) }, 1) := by
  rw [stepTag.eq_def]
  split
  · next q hq => exact absurd hq (hquoted q)
  · split
    · exact absurd rfl (hslash rfl)
    · exact absurd rfl hgreater
    · rfl

theorem position_after_ne {c : Char} (hquoted : ∀ q, open_.position ≠ .quoted q)
    (hdouble : c ≠ '"') (hsingle : c ≠ '\'') (q : Char) : (open_.after c).position ≠ .quoted q := by
  rw [OpenTag.after.eq_def, if_neg (by simp [hdouble, hsingle])]
  split
  · nofun
  · split
    · split
      · nofun
      · next hnone =>
        show open_.position ≠ _
        exact hquoted q
      · exact hquoted q
    · split
      · next h =>
        show open_.position ≠ _
        exact hquoted q
      · split
        · nofun
        · exact hquoted q
        · exact hquoted q

theorem Ends.outside {chars rest : List Char} (h : Ends marker st (chars ++ rest) final)
    (hchars : Outside chars rest) (hquoted : ∀ q, open_.position ≠ .quoted q)
    (hst : Holds st slots markup blocks (some open_)) :
    ∃ st', Ends marker st' rest final ∧
      Holds st' slots (markup ++ chars) blocks (some (chars.foldl OpenTag.after open_)) := by
  induction chars generalizing st markup open_ with
  | nil => exact ⟨st, h, by rwa [List.append_nil]⟩
  | cons c chars ih =>
    obtain ⟨hgreater, hdouble, hsingle⟩ := hchars.allowed c List.mem_cons_self
    have hslash : c = '/' → (chars ++ rest).head? ≠ some '>' := by
      rintro rfl hhead
      cases chars with
      | nil => exact hchars.slash hhead rfl
      | cons d chars =>
        cases hhead
        exact (hchars.allowed '>' (by simp)).1 rfl
    obtain ⟨middle, hmiddle, hholds⟩ := h.write (not_beginsTag hchars.braces hchars.follows) hst
      (stepTag_outside st hquoted hgreater hslash)
    obtain ⟨st', hends, hst'⟩ :=
      ih hmiddle hchars.tail (position_after_ne hquoted hdouble hsingle) hholds
    refine ⟨st', hends, ?_⟩
    rwa [List.append_assoc] at hst'

theorem stepTag_inside {quote c : Char} (st : Lifting) (hposition : open_.position = .quoted quote)
    (hc : c ≠ quote) (cs : List Char) :
    st.stepTag open_ c cs = ({ st.write [c] with tag := some open_ }, 1) := by
  rw [stepTag.eq_def]
  simp only [hposition, hc, if_false]
  rw [← hposition]

/-- The characters of a value in quotes. -/
theorem Ends.inside {quote : Char} {chars rest : List Char}
    (h : Ends marker st (chars ++ rest) final) (hbraces : Unbraced chars)
    (hfollows : Follows chars rest) (hchars : ∀ c ∈ chars, c ≠ quote)
    (hposition : open_.position = .quoted quote)
    (hst : Holds st slots markup blocks (some open_)) :
    ∃ st', Ends marker st' rest final ∧ Holds st' slots (markup ++ chars) blocks (some open_) := by
  induction chars generalizing st markup with
  | nil => exact ⟨st, h, by rwa [List.append_nil]⟩
  | cons c chars ih =>
    obtain ⟨middle, hmiddle, hholds⟩ := h.write (not_beginsTag hbraces hfollows) hst
      (stepTag_inside st hposition (hchars c List.mem_cons_self) _)
    obtain ⟨st', hends, hst'⟩ := ih hmiddle hbraces.tail hfollows.tail
      (fun d hd => hchars d (List.mem_cons_of_mem c hd)) hholds
    refine ⟨st', hends, ?_⟩
    rwa [List.append_assoc] at hst'

/-! ### Mustaches of a value -/

theorem Holds.storeUnquoted_quoted (marker : Char) (m : Mustache)
    (hst : Holds st slots markup blocks (some open_)) (hposition : open_.position = .afterEquals) :
    ∃ st', st.writeInTag marker open_ (.expression m) = .ok st' ∧
      Holds st' (slots ++ [(.expression m, true)])
        (markup ++ '"' :: (placeholderText marker slots.length ++ ['"'])) blocks
        (some { open_ with position := .none }) := by
  obtain ⟨hstore, -⟩ := hst.store (.expression m)
  have hholds := ((hst.storeUnquoted (.expression m)).write
    ('"' :: (placeholderText marker slots.length ++ ['"']))).setTag
      (some { open_ with position := .none })
  refine ⟨_, ?_, hholds⟩
  rw [Lifting.writeInTag, hposition, hstore]
  rfl

/-- A mustache in a tag is a value, since nothing else may stand there. -/
theorem Ends.mustache {source rest : List Char} (hsource : IsMustache source)
    (h : Ends marker st (source ++ rest) final) (hst : Holds st slots markup blocks (some open_)) :
    ∃ st' m next, Ends marker st' rest final ∧ IsReadAs source m ∧
      ({ st with next } : Lifting).writeInTag marker open_ (.expression m) = .ok st' := by
  obtain ⟨⟨tail, rfl⟩, span, hspan, hrest, hcontent⟩ := hsource
  obtain ⟨offset, st', count, hstep, hends⟩ := Ends.step (c := '{') h
  have hmustache : stepMustache marker st (['{', '{'] ++ tail ++ rest) offset = .ok (st', count) :=
    hstep
  obtain ⟨span', tag, next, hread, htag, -, hopened⟩ := stepMustache_cases hmustache
  rw [Span.read_append hspan rest] at hread
  cases hread
  obtain ⟨hwritten, rfl⟩ := hopened open_ hst.tag
  have hcount : (['{', '{'] ++ tail ++ rest).length - (span.rest ++ rest).length - 1 =
      ('{' :: tail).length := by
    rw [hrest]
    simp only [List.length_append, List.length_cons, List.length_nil]
    omega
  have hdrop : ('{' :: tail ++ rest).drop ('{' :: tail).length = rest := List.drop_left
  rw [hcount] at hends
  have hends : Ends marker st' rest final := by
    rw [← hdrop]
    exact hends
  cases tag with
  | expression m => exact ⟨st', m, next, hends, ⟨span, _, _, _, hspan, htag⟩, hwritten⟩
  | comment value => exact absurd rfl (Tag.ne_comment_of_read hcontent htag value)
  | _ => cases hwritten

/-- A mustache after the equals sign gets quotes. -/
theorem Ends.mustacheAlone {source rest : List Char} (hsource : IsMustache source)
    (h : Ends marker st (source ++ rest) final) (hposition : open_.position = .afterEquals)
    (hst : Holds st slots markup blocks (some open_)) :
    ∃ st' m, Ends marker st' rest final ∧ IsReadAs source m ∧
      Holds st' (slots ++ [(.expression m, true)])
        (markup ++ '"' :: (placeholderText marker slots.length ++ ['"'])) blocks
        (some { open_ with position := .none }) := by
  obtain ⟨st', m, next, hends, hm, hwritten⟩ := h.mustache hsource hst
  obtain ⟨written, hwrite, hholds⟩ :=
    (hst.setNext next).storeUnquoted_quoted marker m hposition
  rw [hwritten] at hwrite
  cases hwrite
  exact ⟨st', m, hends, hm, hholds⟩

/-- Any other mustache of a value leaves its hole. -/
theorem Ends.mustacheWithin {source rest : List Char} (hsource : IsMustache source)
    (h : Ends marker st (source ++ rest) final) (hequals : open_.position ≠ .afterEquals)
    (hnone : open_.position ≠ .none) (hst : Holds st slots markup blocks (some open_)) :
    ∃ st' m, Ends marker st' rest final ∧ IsReadAs source m ∧
      Holds st' (slots ++ [(.expression m, false)])
        (markup ++ placeholderText marker slots.length) blocks (some open_) := by
  obtain ⟨st', m, next, hends, hm, hwritten⟩ := h.mustache hsource hst
  refine ⟨st', m, hends, hm, ?_⟩
  rw [Lifting.writeInTag] at hwritten
  split at hwritten
  · next heq => exact absurd heq hequals
  · next heq => exact absurd heq hnone
  · cases hwritten
    exact (hst.setNext next).writeHole marker (.expression m)

/-! ### The place in a tag -/

section

variable {name key : List Char} {cased : List (List Char)}

theorem ne_of_isAsciiBlank {c d : Char} (h : Text.isAsciiBlank c = true)
    (hd : Text.isAsciiBlank d = false) : c ≠ d := by
  rintro rfl
  rw [h] at hd
  cases hd

/-- The names with capitals after one more name, in reverse order. -/
def addCased (name : List Char) (cased : List (List Char)) : List (List Char) :=
  if name.any Text.isAsciiUpper then name :: cased else cased

theorem endName_eq (open_ : OpenTag) :
    open_.endName = { open_ with key := [], cased := addCased open_.key.reverse open_.cased } := rfl

theorem endName_of_key_eq_nil (h : open_.key = []) : open_.endName = open_ := by
  cases open_
  cases h
  rfl

theorem after_blank {c : Char} (h : Text.isAsciiBlank c = true) (open_ : OpenTag) :
    open_.after c = match open_.position with
      | .unquoted => { open_ with position := .none }
      | .none => open_.endName
      | _ => open_ := by
  have hne : ∀ d, Text.isAsciiBlank d = false → c ≠ d := fun d => ne_of_isAsciiBlank h
  have hquotes : ¬((c = '"' ∨ c = '\'') ∧ open_.position = .afterEquals) := by
    simp [hne '"' (by decide), hne '\'' (by decide)]
  rw [OpenTag.after]
  refine (if_neg hquotes).trans ((if_neg (hne '=' (by decide))).trans
    ((if_pos (Text.isBlank_of_isAsciiBlank h)).trans ?_))
  cases open_.position <;> rfl

theorem foldl_after_blanks {blanks : List Char}
    (h : ∀ c ∈ blanks, Text.isAsciiBlank c = true) (hopen : open_.endName = open_)
    (hposition : open_.position ≠ .unquoted) : blanks.foldl OpenTag.after open_ = open_ := by
  induction blanks with
  | nil => rfl
  | cons c blanks ih =>
    have hafter : open_.after c = open_ := by
      rw [after_blank (h c List.mem_cons_self)]
      split
      · next heq => exact absurd heq hposition
      · exact hopen
      · rfl
    rw [List.foldl_cons, hafter]
    exact ih fun d hd => h d (List.mem_cons_of_mem c hd)

/-- The reader may go on with an attribute after blanks, or with the end of the tag. -/
structure Between (open_ : OpenTag) (name : List Char) (cased : List (List Char)) : Prop where
  name : open_.name = name
  cased : open_.endName.cased = cased
  position : open_.position = .none ∨ open_.position = .unquoted ∧ open_.key = []

theorem Between.foldl_blanks (h : Between open_ name cased) {blanks : List Char}
    (hne : blanks ≠ []) (hblanks : ∀ c ∈ blanks, Text.isAsciiBlank c = true) :
    blanks.foldl OpenTag.after open_ = ⟨name, .none, [], cased⟩ := by
  cases blanks with
  | nil => exact absurd rfl hne
  | cons c blanks =>
    have hafter : open_.after c = ⟨name, .none, [], cased⟩ := by
      obtain ⟨rfl, rfl, hposition⟩ := h
      rw [after_blank (hblanks c List.mem_cons_self)]
      rcases hposition with hposition | ⟨hposition, hkey⟩
      · rw [hposition, endName_eq, hposition]
      · rw [hposition, endName_of_key_eq_nil hkey, hkey]
    rw [List.foldl_cons, hafter]
    exact foldl_after_blanks (fun d hd => hblanks d (List.mem_cons_of_mem c hd)) rfl nofun

theorem foldl_after_name {chars : List Char} (h : ∀ c ∈ chars, IsNamePart c)
    (key : List Char) :
    chars.foldl OpenTag.after ⟨name, .none, key, cased⟩ =
      ⟨name, .none, chars.reverse ++ key, cased⟩ := by
  induction chars generalizing key with
  | nil => rfl
  | cons c chars ih =>
    have hc := h c List.mem_cons_self
    have hafter : (⟨name, .none, key, cased⟩ : OpenTag).after c =
        ⟨name, .none, c :: key, cased⟩ := by
      rw [OpenTag.after, if_neg (by simp), if_neg hc.equals, if_neg (by simp [hc.blank]),
        if_neg (by simp [hc.slash])]
    rw [List.foldl_cons, hafter, ih fun d hd => h d (List.mem_cons_of_mem c hd)]
    simp

/-- The equals sign after a name, with blanks around it. -/
theorem foldl_after_equals {before after : List Char}
    (hbefore : ∀ c ∈ before, Text.isAsciiBlank c = true)
    (hafter : ∀ c ∈ after, Text.isAsciiBlank c = true) :
    (before ++ '=' :: after).foldl OpenTag.after ⟨name, .none, key, cased⟩ =
      ⟨name, .afterEquals, [], addCased key.reverse cased⟩ := by
  have hblanks : (before.foldl OpenTag.after ⟨name, .none, key, cased⟩).endName =
      ⟨name, .none, [], addCased key.reverse cased⟩ := by
    cases hcases : before with
    | nil => rfl
    | cons c cs =>
      have hbetween : Between ⟨name, .none, key, cased⟩ name (addCased key.reverse cased) :=
        ⟨rfl, rfl, .inl rfl⟩
      rw [← hcases, hbetween.foldl_blanks (by simp [hcases]) hbefore]
      rfl
  have hequals : ∀ open_ : OpenTag, open_.after '=' =
      { open_.endName with position := .afterEquals } := fun _ => rfl
  rw [List.foldl_append, List.foldl_cons, hequals, hblanks]
  exact foldl_after_blanks hafter rfl nofun

/-- The text of a value without quotes; only an equals sign at its end is forgotten. -/
theorem foldl_after_unquoted {chars : List Char} {position : ValuePosition} (hne : chars ≠ [])
    (h : ∀ c ∈ chars, isValueChar none c = true) (hlast : chars.getLast? ≠ some '=')
    (hposition : position = .unquoted ∨ position = .afterEquals) :
    chars.foldl OpenTag.after ⟨name, position, [], cased⟩ = ⟨name, .unquoted, [], cased⟩ := by
  induction chars generalizing position with
  | nil => exact absurd rfl hne
  | cons c chars ih =>
    have hc := h c List.mem_cons_self
    simp only [isValueChar, Bool.and_eq_true, Bool.not_eq_true', List.contains_eq_mem,
      decide_eq_false_iff_not, List.mem_cons, not_or] at hc
    have hafter : (⟨name, position, [], cased⟩ : OpenTag).after c =
        ⟨name, if c = '=' then .afterEquals else .unquoted, [], cased⟩ := by
      rw [OpenTag.after, if_neg (by simp [hc.2.1, hc.2.2.1])]
      split
      · rfl
      · rw [if_neg (by simp [hc.1])]
        rcases hposition with rfl | rfl
        · rw [if_neg (by simp)]
        · rw [if_neg (by simp)]
    rw [List.foldl_cons, hafter]
    cases chars with
    | nil =>
      have hequals : c ≠ '=' := fun heq => hlast (by rw [heq]; rfl)
      rw [if_neg hequals]
      rfl
    | cons d chars =>
      refine ih (List.cons_ne_nil d chars) (fun e he => h e (List.mem_cons_of_mem c he))
        (fun hd => hlast (getLast?_of_tail hd)) ?_
      split
      · exact .inr rfl
      · exact .inl rfl

/-! ### Stretches outside quotes -/

theorem outside_of_forall {chars rest : List Char}
    (h : ∀ c ∈ chars, c ≠ '>' ∧ c ≠ '"' ∧ c ≠ '\'' ∧ c ≠ '{' ∧ c ≠ '/')
    (hrest : rest.head? ≠ some '{' ∨ '\\' ∉ chars) : Outside chars rest := by
  refine ⟨fun c hc => ⟨(h c hc).1, (h c hc).2.1, (h c hc).2.2.1⟩, fun hbraces => ?_,
    fun hhead c hc => ?_, fun _ hlast => ?_⟩
  · exact (h '{' (hbraces.subset List.mem_cons_self)).2.2.2.1 rfl
  · have hmem := List.mem_of_getLast? hc
    refine ⟨(h c hmem).2.2.2.1, ?_⟩
    rintro rfl
    exact hrest.elim (fun hne => hne hhead) (fun hnot => hnot hmem)
  · exact (h '/' (List.mem_of_getLast? hlast)).2.2.2.2 rfl

theorem ne_of_blank {c : Char} (h : Text.isAsciiBlank c = true) :
    c ≠ '>' ∧ c ≠ '"' ∧ c ≠ '\'' ∧ c ≠ '{' ∧ c ≠ '/' ∧ c ≠ '\\' := by
  have hne : ∀ d, Text.isAsciiBlank d = false → c ≠ d := fun d => ne_of_isAsciiBlank h
  refine ⟨hne _ ?_, hne _ ?_, hne _ ?_, hne _ ?_, hne _ ?_, hne _ ?_⟩ <;> decide

theorem outside_blanks {blanks : List Char} (h : ∀ c ∈ blanks, Text.isAsciiBlank c = true)
    (rest : List Char) : Outside blanks rest := by
  refine outside_of_forall (fun c hc => ?_) (.inr fun hmem => ?_)
  · have hne := ne_of_blank (h c hc)
    exact ⟨hne.1, hne.2.1, hne.2.2.1, hne.2.2.2.1, hne.2.2.2.2.1⟩
  · exact (ne_of_blank (h _ hmem)).2.2.2.2.2 rfl

theorem outside_name {entry : SourceAttribute} (hentry : entry.IsWritten) {rest : List Char}
    (hrest : rest.head? ≠ some '{') : Outside (entry.blanks ++ entry.name) rest := by
  refine outside_of_forall (List.forall_mem_append.2 ⟨fun c hc => ?_, fun c hc => ?_⟩) (.inl hrest)
  · have hne := ne_of_blank (hentry.blanks.2 c hc)
    exact ⟨hne.1, hne.2.1, hne.2.2.1, hne.2.2.2.1, hne.2.2.2.2.1⟩
  · have hpart := isNamePart_of_isTagNameChar (hentry.name.2 c hc)
    exact ⟨hpart.greater, hpart.double, hpart.single, hpart.brace, hpart.slash⟩

theorem outside_equals {value : SourceValue} (hvalue : value.IsWritten) (rest : List Char) :
    Outside (value.beforeEquals ++ '=' :: value.afterEquals) rest := by
  have hchars : ∀ c ∈ value.beforeEquals ++ '=' :: value.afterEquals,
      c ≠ '>' ∧ c ≠ '"' ∧ c ≠ '\'' ∧ c ≠ '{' ∧ c ≠ '/' ∧ c ≠ '\\' :=
    List.forall_mem_append.2 ⟨fun c hc => ne_of_blank (hvalue.beforeEquals c hc),
      List.forall_mem_cons.2 ⟨by decide, fun c hc => ne_of_blank (hvalue.afterEquals c hc)⟩⟩
  exact outside_of_forall
    (fun c hc => ⟨(hchars c hc).1, (hchars c hc).2.1, (hchars c hc).2.2.1, (hchars c hc).2.2.2.1,
      (hchars c hc).2.2.2.2.1⟩)
    (.inr fun hmem => (hchars _ hmem).2.2.2.2.2 rfl)

/-! ### Values -/

def valuePosition : Option Char → ValuePosition
  | some quote => .quoted quote
  | none => .unquoted

theorem outside_of_isValueChar {chars rest : List Char} (hbraces : Unbraced chars)
    (hfollows : Follows chars rest) (hchars : ∀ c ∈ chars, isValueChar none c = true)
    (hslash : rest.head? = some '>' → chars.getLast? ≠ some '/') : Outside chars rest := by
  refine ⟨fun c hc => ?_, hbraces, hfollows, hslash⟩
  have hchar := hchars c hc
  simp only [isValueChar, Bool.and_eq_true, Bool.not_eq_true', List.contains_eq_mem,
    decide_eq_false_iff_not, List.mem_cons, not_or] at hchar
  exact ⟨hchar.2.2.2.2.1, hchar.2.1, hchar.2.2.1⟩

theorem Ends.text {quote : Option Char} {position : ValuePosition} {chars rest : List Char}
    (h : Ends marker st (chars ++ rest) final) (hne : chars ≠ []) (hbraces : Unbraced chars)
    (hfollows : Follows chars rest) (hchars : ∀ c ∈ chars, isValueChar quote c = true)
    (hlast : quote = none → chars.getLast? ≠ some '=' ∧
      (rest.head? = some '>' → chars.getLast? ≠ some '/'))
    (hposition : position = valuePosition quote ∨ quote = none ∧ position = .afterEquals)
    (hst : Holds st slots markup blocks (some ⟨name, position, [], cased⟩)) :
    ∃ st', Ends marker st' rest final ∧
      Holds st' slots (markup ++ chars) blocks (some ⟨name, valuePosition quote, [], cased⟩) := by
  cases quote with
  | some q =>
    rcases hposition with rfl | ⟨hquote, -⟩
    · refine h.inside hbraces hfollows (fun c hc => ?_) rfl hst
      simpa [isValueChar] using hchars c hc
    · cases hquote
  | none =>
    obtain ⟨hequals, hslash⟩ := hlast rfl
    have hplace : position = .unquoted ∨ position = .afterEquals := by
      rcases hposition with rfl | ⟨-, rfl⟩
      · exact .inl rfl
      · exact .inr rfl
    have hquoted : ∀ q, position ≠ .quoted q := by
      rcases hplace with rfl | rfl <;> nofun
    obtain ⟨st', hends, hst'⟩ :=
      h.outside (outside_of_isValueChar hbraces hfollows hchars hslash) hquoted hst
    rw [foldl_after_unquoted hne hchars hequals hplace] at hst'
    exact ⟨st', hends, hst'⟩

/-- The texts of a value that the reader tells from what stands around them. -/
structure CanRead (quote : Option Char) (parts : List ValuePart) (rest : List Char) : Prop where
  texts : ∀ chars, .text chars ∈ parts → chars ≠ [] ∧ Unbraced chars ∧
    (∀ c ∈ chars, isValueChar quote c = true) ∧ (quote = none → chars.getLast? ≠ some '=')
  mustaches : ∀ source, .mustache source ∈ parts → IsMustache source
  apart : parts.IsChain ValuePart.Apart
  brace : rest.head? ≠ some '{'
  slash : quote = none → rest.head? = some '>' →
    ∀ chars, parts.getLast? = some (.text chars) → chars.getLast? ≠ some '/'

theorem CanRead.tail {quote : Option Char} {part : ValuePart} {parts : List ValuePart}
    {rest : List Char} (h : CanRead quote (part :: parts) rest) : CanRead quote parts rest :=
  ⟨fun chars hmem => h.texts chars (List.mem_cons_of_mem part hmem),
    fun source hmem => h.mustaches source (List.mem_cons_of_mem part hmem),
    (List.isChain_cons.1 h.apart).2, h.brace,
    fun hquote hrest chars hlast => h.slash hquote hrest chars (getLast?_of_tail hlast)⟩

/-- The text at the beginning of parts is told from what follows it. -/
theorem CanRead.text {quote : Option Char} {chars : List Char} {parts : List ValuePart}
    {rest : List Char} (h : CanRead quote (.text chars :: parts) rest) :
    Follows chars (parts.flatMap ValuePart.source ++ rest) ∧
      (quote = none → (parts.flatMap ValuePart.source ++ rest).head? = some '>' →
        chars.getLast? ≠ some '/') := by
  cases parts with
  | nil => exact ⟨fun hrest => absurd hrest h.brace, fun hquote hrest => h.slash hquote hrest _ rfl⟩
  | cons part parts =>
    have hapart := (List.isChain_cons.1 h.apart).1 part rfl
    cases part with
    | text other => exact hapart.elim
    | mustache source =>
      refine ⟨fun _ => hapart, fun _ hhead => ?_⟩
      obtain ⟨⟨tail, rfl⟩, -⟩ := h.mustaches source (by simp)
      cases hhead

theorem Ends.parts {quote : Option Char} {position : ValuePosition} {parts : List ValuePart}
    {rest : List Char} (h : Ends marker st (parts.flatMap ValuePart.source ++ rest) final)
    (hparts : CanRead quote parts rest)
    (hposition : position = valuePosition quote ∨
      quote = none ∧ position = .afterEquals ∧ ∃ chars, parts.head? = some (.text chars))
    (hst : Holds st slots markup blocks (some ⟨name, position, [], cased⟩)) :
    ∃ st' added, Ends marker st' rest final ∧
      List.Forall₂ TakesSlot ((parts.filterMap ValuePart.mustache?).map (·, false)) added ∧
      Holds st' (slots ++ added)
        (markup ++ (ValuePart.pieces slots.length parts).flatMap (Piece.rendered marker)) blocks
        (some ⟨name, valuePosition quote, [], cased⟩) := by
  induction parts generalizing st slots markup position with
  | nil =>
    have hplace : position = valuePosition quote := by
      rcases hposition with hposition | ⟨-, -, chars, hhead⟩
      · exact hposition
      · cases hhead
    refine ⟨st, [], h, .nil, ?_⟩
    rw [← hplace]
    simpa only [List.append_nil, ValuePart.pieces, List.flatMap_nil] using hst
  | cons part parts ih =>
    rw [List.flatMap_cons, List.append_assoc] at h
    cases part with
    | text chars =>
      obtain ⟨hne, hbraces, hchars, hequals⟩ := hparts.texts chars List.mem_cons_self
      obtain ⟨hfollows, hslash⟩ := hparts.text
      have hplace : position = valuePosition quote ∨ quote = none ∧ position = .afterEquals := by
        rcases hposition with hposition | ⟨hquote, hposition, -⟩
        · exact .inl hposition
        · exact .inr ⟨hquote, hposition⟩
      obtain ⟨middle, hmiddle, hholds⟩ := h.text hne hbraces hfollows hchars
        (fun hquote => ⟨hequals hquote, hslash hquote⟩) hplace hst
      obtain ⟨st', added, hends, hadded, hst'⟩ := ih hmiddle hparts.tail (.inl rfl) hholds
      refine ⟨st', added, hends, hadded, ?_⟩
      rw [List.append_assoc] at hst'
      exact hst'
    | mustache source =>
      have hplace : position = valuePosition quote := by
        rcases hposition with hposition | ⟨-, -, chars, hhead⟩
        · exact hposition
        · cases hhead
      have hwithin : valuePosition quote ≠ .afterEquals ∧ valuePosition quote ≠ .none := by
        cases quote <;> exact ⟨nofun, nofun⟩
      rw [hplace] at hst
      obtain ⟨middle, m, hmiddle, hm, hholds⟩ :=
        Ends.mustacheWithin (hparts.mustaches source List.mem_cons_self) h hwithin.1 hwithin.2 hst
      obtain ⟨st', added, hends, hadded, hst'⟩ := ih hmiddle hparts.tail (.inl rfl) hholds
      refine ⟨st', (.expression m, false) :: added, hends, ?_, ?_⟩
      · exact .cons ⟨rfl, m, rfl, hm⟩ hadded
      · rw [List.append_assoc, List.append_assoc, List.length_append] at hst'
        exact hst'

theorem stepTag_openQuote {q : Char} (st : Lifting) (hq : q = '"' ∨ q = '\'')
    (hposition : open_.position = .afterEquals) (cs : List Char) :
    st.stepTag open_ q cs =
      ({ st.write [q] with tag := some { open_ with position := .quoted q } }, 1) := by
  have hopens : open_.after q = { open_ with position := .quoted q } := if_pos ⟨hq, hposition⟩
  have hne : q ≠ '>' ∧ q ≠ '/' := by
    rcases hq with rfl | rfl <;> decide
  rw [← hopens]
  exact stepTag_outside st (fun _ hquoted => nomatch hposition.symm.trans hquoted) hne.1
    fun hslash => absurd hslash hne.2

theorem stepTag_closeQuote {q : Char} (st : Lifting) (hposition : open_.position = .quoted q)
    (cs : List Char) : st.stepTag open_ q cs =
      ({ st.write [q] with tag := some { open_ with position := .none } }, 1) := by
  rw [stepTag.eq_def]
  simp only [hposition, if_true]

theorem canRead_quoted {value : SourceValue} (hvalue : value.IsWritten)
    {q : Char} (hquote : value.quote = some q) (rest : List Char) :
    CanRead (some q) value.parts (q :: rest) := by
  have hq := hvalue.quote q hquote
  refine ⟨fun chars hmem => ?_, hvalue.mustaches, hvalue.apart, ?_, nofun⟩
  · obtain ⟨hne, hbraces, hchars⟩ := hvalue.texts chars hmem
    rw [hquote] at hchars
    exact ⟨hne, hbraces, hchars, nofun⟩
  · rcases hq with rfl | rfl <;> simp

theorem canRead_unquoted {value : SourceValue}
    (hvalue : value.IsWritten) (htracked : value.IsTracked) (hquote : value.quote = none)
    (hlone : value.lone? = none) {rest : List Char} (hbrace : rest.head? ≠ some '{')
    (hslash : rest.head? = some '>' →
      ∀ chars, value.parts.getLast? = some (.text chars) → chars.getLast? ≠ some '/') :
    CanRead none value.parts rest ∧ ∃ chars, value.parts.head? = some (.text chars) := by
  obtain ⟨hhead, hequals⟩ := htracked hquote hlone
  constructor
  · refine ⟨fun chars hmem => ?_, hvalue.mustaches, hvalue.apart, hbrace, fun _ => hslash⟩
    obtain ⟨hne, hbraces, hchars⟩ := hvalue.texts chars hmem
    rw [hquote] at hchars
    exact ⟨hne, hbraces, hchars, fun _ => hequals _ hmem⟩
  · cases hparts : value.parts with
    | nil => exact absurd hparts (hvalue.nonempty hquote)
    | cons part parts =>
      cases part with
      | text chars => exact ⟨chars, rfl⟩
      | mustache source =>
        have hfalse := hhead (.mustache source) (by rw [hparts]; rfl)
        cases hfalse

/-- A value after its equals sign. -/
theorem Ends.value {value : SourceValue} {rest : List Char}
    (h : Ends marker st (value.quote.toList ++ (value.parts.flatMap ValuePart.source ++
      value.quote.toList) ++ rest) final)
    (hvalue : value.IsWritten) (htracked : value.IsTracked) (hbrace : rest.head? ≠ some '{')
    (hslash : value.quote = none → value.lone? = none → rest.head? = some '>' →
      ∀ chars, value.parts.getLast? = some (.text chars) → chars.getLast? ≠ some '/')
    (hst : Holds st slots markup blocks (some ⟨name, .afterEquals, [], cased⟩)) :
    ∃ st' added position, Ends marker st' rest final ∧
      List.Forall₂ TakesSlot value.mustaches added ∧
      (position = .none ∨ position = .unquoted) ∧
      Holds st' (slots ++ added) (markup ++ value.markup marker slots.length) blocks
        (some ⟨name, position, [], cased⟩) := by
  cases hlone : value.lone? with
  | some source =>
    obtain ⟨hquote, hparts⟩ := SourceValue.lone?_eq_some hlone
    rw [hquote, hparts] at h
    have hsource := hvalue.mustaches source (by simp [hparts])
    have hends : Ends marker st (source ++ rest) final := by simpa [ValuePart.source] using h
    obtain ⟨st', m, hends, hm, hst'⟩ := Ends.mustacheAlone hsource hends rfl hst
    refine ⟨st', [(.expression m, true)], .none, hends, ?_, .inl rfl, ?_⟩
    · rw [SourceValue.mustaches, hparts, hlone]
      exact .cons ⟨rfl, m, rfl, hm⟩ .nil
    · rw [SourceValue.markup, SourceValue.mark, hparts, hlone]
      simpa [ValuePart.pieces, Piece.rendered] using hst'
  | none =>
    have hmark : value.mark = value.quote := by
      rw [SourceValue.mark, hlone]
      rfl
    have hmustaches : value.mustaches =
        (value.parts.filterMap ValuePart.mustache?).map (·, false) := by
      rw [SourceValue.mustaches, hlone]
      rfl
    rw [hmustaches, SourceValue.markup, hmark]
    cases hquote : value.quote with
    | none =>
      have hends : Ends marker st (value.parts.flatMap ValuePart.source ++ rest) final := by
        simpa [hquote] using h
      obtain ⟨hcan, htext⟩ :=
        canRead_unquoted hvalue htracked hquote hlone hbrace (hslash hquote hlone)
      obtain ⟨st', added, hends, hadded, hst'⟩ := hends.parts hcan (.inr ⟨rfl, rfl, htext⟩) hst
      refine ⟨st', added, .unquoted, hends, hadded, .inr rfl, ?_⟩
      simpa [valuePosition] using hst'
    | some q =>
      have hq : q = '"' ∨ q = '\'' := hvalue.quote q (by rw [hquote]; rfl)
      have hplain : ∀ cs, ¬ BeginsTag (q :: cs) := by
        intro cs
        refine not_beginsTag_of_ne ?_ ?_ <;> rcases hq with rfl | rfl <;> decide
      have hends : Ends marker st (q :: (value.parts.flatMap ValuePart.source ++ q :: rest))
          final := by
        simpa [hquote] using h
      obtain ⟨opened, hopened, hholds⟩ :=
        hends.write (hplain _) hst (stepTag_openQuote st hq rfl _)
      obtain ⟨inner, added, hinner, hadded, hholds⟩ :=
        hopened.parts (canRead_quoted hvalue hquote rest) (.inl rfl) hholds
      obtain ⟨st', hends, hst'⟩ :=
        hinner.write (hplain _) hholds (stepTag_closeQuote inner rfl rest)
      refine ⟨st', added, _, hends, hadded, .inl rfl, ?_⟩
      simpa using hst'

/-! ### Attributes -/

theorem head?_value_ne {entry : SourceAttribute} {rest : List Char} (hentry : entry.IsWritten)
    (hrest : rest.head? ≠ some '{') :
    ((entry.value.map SourceValue.source).getD [] ++ rest).head? ≠ some '{' := by
  cases hvalue : entry.value with
  | none => exact hrest
  | some value =>
    have hbefore := (hentry.value value hvalue).beforeEquals
    rw [Option.map_some, Option.getD_some, SourceValue.source]
    cases hblanks : value.beforeEquals with
    | nil => simp
    | cons c cs =>
      have hc := hbefore c (by rw [hblanks]; exact List.mem_cons_self)
      intro hhead
      exact (ne_of_blank hc).2.2.2.1 (Option.some.inj hhead)

/-- No slash at the end of an attribute is taken for the end of the tag. -/
def SlashApart (entry : SourceAttribute) (rest : List Char) : Prop :=
  ∀ value ∈ entry.value, value.quote = none → value.lone? = none → rest.head? = some '>' →
    ∀ chars, value.parts.getLast? = some (.text chars) → chars.getLast? ≠ some '/'

theorem Ends.attribute {entry : SourceAttribute} {rest : List Char}
    (h : Ends marker st (entry.source ++ rest) final) (hentry : entry.IsWritten)
    (htracked : ∀ value ∈ entry.value, value.IsTracked) (hbrace : rest.head? ≠ some '{')
    (hslash : SlashApart entry rest)
    (hbetween : Between open_ name cased) (hst : Holds st slots markup blocks (some open_)) :
    ∃ st' added tag, Ends marker st' rest final ∧
      List.Forall₂ TakesSlot entry.mustaches added ∧
      Between tag name (addCased entry.name cased) ∧
      Holds st' (slots ++ added) (markup ++ entry.markup marker slots.length) blocks
        (some tag) := by
  have hparts : ∀ c ∈ entry.name, IsNamePart c :=
    fun c hc => isNamePart_of_isTagNameChar (hentry.name.2 c hc)
  have hquoted : ∀ q, open_.position ≠ .quoted q := by
    rcases hbetween.position with hposition | ⟨hposition, -⟩ <;> rw [hposition] <;> nofun
  rw [SourceAttribute.source, ← List.append_assoc, List.append_assoc _ _ rest] at h
  obtain ⟨named, hnamed, hholds⟩ :=
    h.outside (outside_name hentry (head?_value_ne hentry hbrace)) hquoted hst
  rw [List.foldl_append, hbetween.foldl_blanks hentry.blanks.1 hentry.blanks.2,
    foldl_after_name hparts, List.append_nil] at hholds
  cases hvalue : entry.value with
  | none =>
    rw [hvalue] at hnamed
    refine ⟨named, [], ⟨name, .none, entry.name.reverse, cased⟩, hnamed, ?_,
      ⟨rfl, ?_, .inl rfl⟩, ?_⟩
    · rw [SourceAttribute.mustaches, hvalue]
      exact .nil
    · rw [endName_eq, List.reverse_reverse]
    · rw [SourceAttribute.markup, hvalue]
      simpa using hholds
  | some value =>
    have hwritten := hentry.value value hvalue
    rw [hvalue, Option.map_some, Option.getD_some, SourceValue.source] at hnamed
    have hequals : Ends marker named ((value.beforeEquals ++ '=' :: value.afterEquals) ++
        (value.quote.toList ++ (value.parts.flatMap ValuePart.source ++ value.quote.toList) ++
          rest)) final := by
      simpa using hnamed
    have hnone : ∀ q, ValuePosition.none ≠ .quoted q := fun _ => nofun
    obtain ⟨equalled, hequalled, hholds⟩ := hequals.outside (outside_equals hwritten _) hnone hholds
    rw [foldl_after_equals hwritten.beforeEquals hwritten.afterEquals,
      List.reverse_reverse] at hholds
    obtain ⟨st', added, position, hends, hadded, hposition, hst'⟩ :=
      hequalled.value hwritten (htracked value hvalue) hbrace (hslash value hvalue) hholds
    refine ⟨st', added, ⟨name, position, [], addCased entry.name cased⟩, hends, ?_,
      ⟨rfl, rfl, ?_⟩, ?_⟩
    · rw [SourceAttribute.mustaches, hvalue]
      exact hadded
    · exact hposition.imp_right fun h => ⟨h, rfl⟩
    · rw [SourceAttribute.markup, hvalue]
      simpa using hst'

/-- What follows attributes does not begin with a mustache. -/
theorem head?_attributes {attributes : List SourceAttribute} {rest : List Char}
    (hattributes : ∀ entry ∈ attributes, entry.IsWritten) (hrest : rest.head? ≠ some '{') :
    (attributes.flatMap SourceAttribute.source ++ rest).head? ≠ some '{' ∧
      (attributes ≠ [] →
        (attributes.flatMap SourceAttribute.source ++ rest).head? ≠ some '>') := by
  cases attributes with
  | nil => exact ⟨hrest, fun hne => absurd rfl hne⟩
  | cons entry attributes =>
    obtain ⟨hne, hblanks⟩ := (hattributes entry List.mem_cons_self).blanks
    rw [List.flatMap_cons, SourceAttribute.source]
    cases hcases : entry.blanks with
    | nil => exact absurd hcases hne
    | cons c cs =>
      have hc := ne_of_blank (hblanks c (by rw [hcases]; exact List.mem_cons_self))
      refine ⟨fun hhead => hc.2.2.2.1 (Option.some.inj hhead), fun _ hhead => ?_⟩
      exact hc.1 (Option.some.inj hhead)

theorem casedNames_cons (entry : SourceAttribute) (attributes : List SourceAttribute)
    (cased : List (List Char)) :
    (casedNames attributes).reverse ++ addCased entry.name cased =
      (casedNames (entry :: attributes)).reverse ++ cased := by
  rw [casedNames, casedNames, List.map_cons, List.filter_cons, addCased]
  split <;> simp

theorem Ends.attributes {attributes : List SourceAttribute} {rest : List Char}
    (h : Ends marker st (attributes.flatMap SourceAttribute.source ++ rest) final)
    (hattributes : ∀ entry ∈ attributes, entry.IsWritten)
    (htracked : ∀ entry ∈ attributes, ∀ value ∈ entry.value, value.IsTracked)
    (hbrace : rest.head? ≠ some '{')
    (hslash : ∀ entry ∈ attributes.getLast?, SlashApart entry rest)
    (hbetween : Between open_ name cased) (hst : Holds st slots markup blocks (some open_)) :
    ∃ st' added tag, Ends marker st' rest final ∧
      List.Forall₂ TakesSlot (attributes.flatMap SourceAttribute.mustaches) added ∧
      Between tag name ((casedNames attributes).reverse ++ cased) ∧
      Holds st' (slots ++ added)
        (markup ++ SourceAttribute.markupOfAll marker slots.length attributes) blocks
        (some tag) := by
  induction attributes generalizing st slots markup open_ cased with
  | nil =>
    refine ⟨st, [], open_, h, .nil, hbetween, ?_⟩
    simpa only [List.append_nil, SourceAttribute.markupOfAll] using hst
  | cons entry attributes ih =>
    rw [List.flatMap_cons, List.append_assoc] at h
    have hwritten := fun e (he : e ∈ attributes) => hattributes e (List.mem_cons_of_mem entry he)
    obtain ⟨hhead, hgreater⟩ := head?_attributes hwritten hbrace
    have hlast : SlashApart entry (attributes.flatMap SourceAttribute.source ++ rest) := by
      cases attributes with
      | nil => exact hslash entry rfl
      | cons other attributes =>
        exact fun _ _ _ _ hnext => absurd hnext (hgreater (List.cons_ne_nil _ _))
    obtain ⟨middle, first, tag, hmiddle, hfirst, htag, hholds⟩ := h.attribute
      (hattributes entry List.mem_cons_self) (htracked entry List.mem_cons_self) hhead hlast
      hbetween hst
    obtain ⟨st', added, tag', hends, hadded, htag', hst'⟩ := ih hmiddle hwritten
      (fun e he => htracked e (List.mem_cons_of_mem entry he))
      (fun e he => hslash e (getLast?_of_tail he)) htag hholds
    rw [casedNames_cons] at htag'
    refine ⟨st', first ++ added, tag', hends, ?_, htag', ?_⟩
    · rw [List.flatMap_cons]
      exact List.rel_append hfirst hadded
    · rw [List.append_assoc, List.append_assoc, List.length_append, ← hfirst.length_eq] at hst'
      exact hst'

/-! ### Tags -/

theorem head?_tagEnd {blanks : List Char} (hblanks : ∀ c ∈ blanks, Text.isAsciiBlank c = true)
    (selfClosing : Bool) (rest : List Char) :
    ∃ c, (blanks ++ (tagEnd selfClosing ++ rest)).head? = some c ∧ c ≠ '{' ∧
      endsTagName c = true ∧ (blanks ≠ [] ∨ selfClosing = true → c ≠ '>') := by
  cases blanks with
  | nil =>
    cases selfClosing with
    | true => exact ⟨'/', rfl, by decide, by decide, fun _ => by decide⟩
    | false =>
      refine ⟨'>', rfl, by decide, by decide, fun h => ?_⟩
      rcases h with hne | hclosing
      · exact absurd rfl hne
      · cases hclosing
  | cons c cs =>
    have hc := hblanks c List.mem_cons_self
    refine ⟨c, rfl, (ne_of_blank hc).2.2.2.1, ?_, fun _ => (ne_of_blank hc).1⟩
    rw [endsTagName, Text.isBlank_of_isAsciiBlank hc]
    rfl

theorem slashApart_tagEnd {tag : SourceTag} (htag : tag.IsWritten) (htracked : tag.IsTracked)
    (rest : List Char) : ∀ entry ∈ tag.attributes.getLast?,
      SlashApart entry (tag.blanks ++ (tagEnd tag.selfClosing ++ rest)) := by
  intro entry hentry value hvalue hquote hlone hnext
  obtain ⟨d, hd, -, -, hgreater⟩ := head?_tagEnd htag.blanks tag.selfClosing rest
  rw [hd, Option.some.injEq] at hnext
  have hblanks : tag.blanks = [] := by
    by_contra hne
    exact hgreater (.inl hne) hnext
  have hending := htracked.ending hblanks entry hentry value hvalue hquote hlone
  exact fun chars hchars => hending.2 (.text chars) hchars

theorem Between.spellings (h : Between open_ name cased) :
    open_.spellings = spellingsMarkup cased.reverse := by
  rw [OpenTag.spellings, h.cased]
  rfl

theorem Between.blanks (h : Between open_ name cased) {blanks : List Char}
    (hblanks : ∀ c ∈ blanks, Text.isAsciiBlank c = true) :
    Between (blanks.foldl OpenTag.after open_) name cased := by
  by_cases hne : blanks = []
  · rwa [hne]
  · rw [h.foldl_blanks hne hblanks]
    exact ⟨rfl, rfl, .inl rfl⟩

theorem Between.position_ne (h : Between open_ name cased) (quote : Char) :
    open_.position ≠ .quoted quote := by
  rcases h.position with hposition | ⟨hposition, -⟩ <;> rw [hposition] <;> nofun

theorem stepPlain_tagEnd {c : Char} {cs rest : List Char} {selfClosing : Bool}
    (hst : st.tag = some open_) (hquoted : ∀ q, open_.position ≠ .quoted q)
    (hcs : tagEnd selfClosing ++ rest = c :: cs) :
    st.stepPlain c cs =
      ({ st.write (open_.spellings ++ tagEnd selfClosing) with tag := none },
        (tagEnd selfClosing).length) := by
  rw [stepPlain, hst]
  dsimp only
  rw [stepTag.eq_def]
  split
  · next quote hquote => exact absurd hquote (hquoted quote)
  · cases selfClosing <;> cases hcs <;> rfl

/-- The end of a tag, where the spellings of its attributes are written. -/
theorem Ends.close {blanks rest : List Char} {selfClosing : Bool}
    (h : Ends marker st (blanks ++ (tagEnd selfClosing ++ rest)) final)
    (hblanks : ∀ c ∈ blanks, Text.isAsciiBlank c = true) (hbetween : Between open_ name cased)
    (hst : Holds st slots markup blocks (some open_)) :
    ∃ st', Ends marker st' rest final ∧
      Holds st' slots
        (markup ++ (blanks ++ (spellingsMarkup cased.reverse ++ tagEnd selfClosing))) blocks
        none := by
  obtain ⟨middle, hmiddle, hholds⟩ :=
    h.outside (outside_blanks hblanks _) hbetween.position_ne hst
  have hafter := hbetween.blanks hblanks
  have hwritten := (hholds.write (spellingsMarkup cased.reverse ++ tagEnd selfClosing)).setTag none
  rw [List.append_assoc] at hwritten
  refine ⟨_, ?_, hwritten⟩
  have hstep : ∀ c cs, tagEnd selfClosing ++ rest = c :: cs →
      middle.stepPlain c cs =
        ({ middle.write (spellingsMarkup cased.reverse ++ tagEnd selfClosing) with tag := none },
          (tagEnd selfClosing).length) := by
    intro c cs hcs
    rw [stepPlain_tagEnd hholds.tag hafter.position_ne hcs, hafter.spellings]
  cases selfClosing with
  | true =>
    have hends := hmiddle.plain (not_beginsTag_of_ne (by decide) (by decide))
    rw [hstep _ _ rfl] at hends
    exact hends
  | false =>
    have hends := hmiddle.plain (not_beginsTag_of_ne (by decide) (by decide))
    rw [hstep _ _ rfl] at hends
    exact hends

theorem stepPlain_openTag {letters tail : List Char} {c : Char}
    (hletter : Text.isAsciiLetter c = true) (hname : ∀ d ∈ c :: letters, IsNamePart d)
    (htail : ∃ d, tail.head? = some d ∧ endsTagName d = true) (hst : st.tag = none) :
    st.stepPlain '<' (c :: letters ++ tail) =
      ({ st.write ('<' :: (c :: letters ++
          (if (c :: letters).any Text.isAsciiUpper then spellingMarkup tagSpelling (c :: letters)
            else []))) with tag := some ⟨c :: letters, .none, [], []⟩ },
        (c :: letters).length + 1) := by
  obtain ⟨d, hd, hends⟩ := htail
  have hpart : ∀ e ∈ c :: letters, (!endsTagName e) = true := by
    intro e he
    have hpart := hname e he
    simp [endsTagName, hpart.blank, hpart.slash, hpart.greater, hpart.brace]
  have htake : (c :: letters ++ tail).takeWhile (fun e => !endsTagName e) = c :: letters := by
    rw [List.takeWhile_append_of_pos hpart]
    cases tail with
    | nil => cases hd
    | cons e tail =>
      cases hd
      simp [hends]
  have hlead : Text.afterLead? "<!--".toList ('<' :: (c :: letters ++ tail)) = none := by
    have hchars : "<!--".toList = ['<', '!', '-', '-'] := by decide
    have hc : '!' ≠ c := by
      rintro rfl
      cases hletter
    rw [hchars]
    simp [Text.afterLead?, hc]
  have hopen : st.stepPlain '<' (c :: letters ++ tail) = st.openTag (c :: letters ++ tail) := by
    rw [stepPlain, hst]
    dsimp only
    rw [stepText.eq_def, hlead]
    exact if_pos hletter
  rw [hopen, Lifting.openTag, htake]
  rfl

/-- The beginning of a tag, where the spelling of its name is written. -/
theorem Ends.openTag {letters tail : List Char} {c : Char} (hletter : Text.isAsciiLetter c = true)
    (h : Ends marker st ('<' :: (c :: letters ++ tail)) final)
    (hname : ∀ d ∈ c :: letters, IsNamePart d) (htail : ∃ d, tail.head? = some d ∧
      endsTagName d = true) (hst : Holds st slots markup blocks none) :
    ∃ st', Ends marker st' tail final ∧
      Holds st' slots (markup ++ '<' :: (c :: letters ++
        (if (c :: letters).any Text.isAsciiUpper then spellingMarkup tagSpelling (c :: letters)
          else []))) blocks (some ⟨c :: letters, .none, [], []⟩) := by
  have hplain := h.plain (not_beginsTag_of_ne (by decide) (by decide))
  rw [stepPlain_openTag hletter hname htail hst.tag] at hplain
  dsimp only at hplain
  have hdrop : (c :: letters ++ tail).drop (c :: letters).length = tail := List.drop_left
  rw [Nat.add_sub_cancel, hdrop] at hplain
  exact ⟨_, hplain, (hst.write _).setTag _⟩

theorem exists_head_attributes {attributes : List SourceAttribute} {blanks : List Char}
    (hattributes : ∀ entry ∈ attributes, entry.IsWritten)
    (hblanks : ∀ c ∈ blanks, Text.isAsciiBlank c = true) (selfClosing : Bool) (rest : List Char) :
    ∃ c, (attributes.flatMap SourceAttribute.source ++
        (blanks ++ (tagEnd selfClosing ++ rest))).head? = some c ∧ endsTagName c = true := by
  cases attributes with
  | nil =>
    obtain ⟨c, hc, -, hends, -⟩ := head?_tagEnd hblanks selfClosing rest
    exact ⟨c, hc, hends⟩
  | cons entry attributes =>
    obtain ⟨hne, hblanks⟩ := (hattributes entry List.mem_cons_self).blanks
    rw [List.flatMap_cons, SourceAttribute.source]
    cases hcases : entry.blanks with
    | nil => exact absurd hcases hne
    | cons c cs =>
      have hc := Text.isBlank_of_isAsciiBlank (hblanks c (by rw [hcases]; exact List.mem_cons_self))
      exact ⟨c, rfl, by rw [endsTagName, hc]; rfl⟩

/-- A run that succeeds reads an opening tag and writes its markup. -/
theorem Ends.tag {tag : SourceTag} {rest : List Char}
    (h : Ends marker st (tag.source ++ rest) final) (htag : tag.IsWritten)
    (htracked : tag.IsTracked) (hst : Holds st slots markup blocks none) :
    ∃ st' added, Ends marker st' rest final ∧ List.Forall₂ TakesSlot tag.mustaches added ∧
      Holds st' (slots ++ added) (markup ++ tag.markup marker slots.length) blocks none := by
  have hparts : ∀ c ∈ tag.name, IsNamePart c :=
    fun c hc => isNamePart_of_isTagNameChar (htag.name.2 c hc)
  obtain ⟨c, letters, hname⟩ := List.exists_cons_of_ne_nil htag.name.1
  have hletter : Text.isAsciiLetter c = true := htag.head c (by rw [hname]; rfl)
  have hsource : tag.source ++ rest = '<' :: (c :: letters ++
      (tag.attributes.flatMap SourceAttribute.source ++
        (tag.blanks ++ (tagEnd tag.selfClosing ++ rest)))) := by
    rw [SourceTag.source, hname]
    simp
  rw [hsource] at h
  obtain ⟨opened, hopened, hholds⟩ := h.openTag hletter (fun d hd => hparts d (by rwa [hname]))
    (exists_head_attributes htag.attributes htag.blanks tag.selfClosing rest) hst
  obtain ⟨d, hd, hbrace, -⟩ := head?_tagEnd htag.blanks tag.selfClosing rest
  have hnamed : Between ⟨c :: letters, .none, [], []⟩ (c :: letters) [] := ⟨rfl, rfl, .inl rfl⟩
  obtain ⟨middle, added, tag', hmiddle, hadded, hbetween, hholds⟩ := hopened.attributes
    htag.attributes htracked.values (by rw [hd]; simpa using hbrace)
    (slashApart_tagEnd htag htracked rest) hnamed hholds
  obtain ⟨st', hends, hst'⟩ := hmiddle.close htag.blanks hbetween hholds
  refine ⟨st', added, hends, hadded, ?_⟩
  rw [List.append_nil, List.reverse_reverse] at hst'
  rw [SourceTag.markup, SourceTag.nameSpelling, SourceTag.attributeSpelling, hname]
  simpa using hst'

end

end Lifting

end MustacheJsx
