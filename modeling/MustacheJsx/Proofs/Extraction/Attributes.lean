import MustacheJsx.Proofs.Extraction.Glyphs
import MustacheJsx.Proofs.Extraction.Inserting

/-!
# Attributes by the rules of HTML

What looks like an attribute in the text of a tag need not be one. Here a tag is read by the rules
of HTML: a name ends at a blank, `/`, `>` or `=`, and a value without quotes ends at a blank or `>`.
A mustache is a part of the name or the value in which it stands.
-/

namespace MustacheJsx

/-- An attribute of a tag. Its value is empty if it has none. -/
structure TagAttribute where
  name : List Char
  value : List Char
  deriving DecidableEq

/-- What a glyph is outside quotes. -/
inductive Glyph.Role where
  | blank
  | slash
  | close
  | equals
  | plain
  deriving DecidableEq

namespace Glyph

def role : Glyph → Role
  | mustache _ => .plain
  | char c =>
    if Text.isAsciiBlank c then .blank
    else if c = '/' then .slash
    else if c = '>' then .close
    else if c = '=' then .equals
    else .plain

def isName : Glyph → Bool
  | mustache _ => false
  | char c => WrittenAttribute.isNameChar c

def quote? : Glyph → Option Char
  | mustache _ => none
  | char c => if c = '"' ∨ c = '\'' then some c else none

end Glyph

/-- What the next glyph of a tag is read as. -/
inductive TagState where
  | tagName
  | beforeName
  | name (name : List Char)
  | afterName (name : List Char)
  | beforeValue (name : List Char)
  | quoted (name : List Char) (quote : Char) (value : List Char)
  | unquoted (name value : List Char)
  | ended
  deriving DecidableEq

namespace TagState

def step (g : Glyph) : TagState → Option TagAttribute × TagState
  | tagName =>
    match g.role with
    | .blank | .slash => (none, beforeName)
    | .close => (none, ended)
    | _ => (none, tagName)
  | beforeName =>
    match g.role with
    | .blank | .slash => (none, beforeName)
    | .close => (none, ended)
    | _ => (none, name g.text)
  | name cs =>
    match g.role with
    | .blank => (none, afterName cs)
    | .slash => (some { name := cs, value := [] }, beforeName)
    | .close => (some { name := cs, value := [] }, ended)
    | .equals => (none, beforeValue cs)
    | .plain => (none, name (cs ++ g.text))
  | afterName cs =>
    match g.role with
    | .blank => (none, afterName cs)
    | .slash => (some { name := cs, value := [] }, beforeName)
    | .close => (some { name := cs, value := [] }, ended)
    | .equals => (none, beforeValue cs)
    | .plain => (some { name := cs, value := [] }, name g.text)
  | beforeValue cs =>
    match g.quote?, g.role with
    | some quote, _ => (none, quoted cs quote [])
    | none, .blank => (none, beforeValue cs)
    | none, .close => (some { name := cs, value := [] }, ended)
    | none, _ => (none, unquoted cs g.text)
  | quoted cs quote value =>
    if g = .char quote then (some { name := cs, value }, beforeName)
    else (none, quoted cs quote (value ++ g.text))
  | unquoted cs value =>
    match g.role with
    | .blank => (some { name := cs, value }, beforeName)
    | .close => (some { name := cs, value }, ended)
    | _ => (none, unquoted cs (value ++ g.text))
  | ended => (none, ended)

def attributes (state : TagState) : List Glyph → List TagAttribute
  | [] => []
  | g :: gs => (state.step g).1.toList ++ attributes (state.step g).2 gs

/-- The state behind these glyphs. -/
def run (state : TagState) (gs : List Glyph) : TagState :=
  gs.foldl (fun state g => (state.step g).2) state

def isReady : TagState → Bool
  | beforeName | afterName _ => true
  | _ => false

def pending : TagState → List TagAttribute
  | afterName cs => [{ name := cs, value := [] }]
  | _ => []

end TagState

def OpeningTag.htmlAttributes (tag : OpeningTag) : List TagAttribute :=
  TagState.tagName.attributes (Glyph.read tag.text)

example : OpeningTag.htmlAttributes
    { start := 0, text := "<a b c= d @e='\x7b\x7bf\x7d\x7d>' g\x7b\x7bh\x7d\x7d=i/>".toList
      mustaches := [] } =
    [⟨['b'], []⟩, ⟨['c'], ['d']⟩, ⟨['@', 'e'], "\x7b\x7bf\x7d\x7d>".toList⟩,
     ⟨"g\x7b\x7bh\x7d\x7d".toList, ['i', '/']⟩] := by
  decide +kernel

namespace TagState

open Glyph

variable {state : TagState} {gs hs : List Glyph} {c : Char} {cs : List Char}

theorem attributes_append (state : TagState) (gs hs : List Glyph) :
    state.attributes (gs ++ hs) = state.attributes gs ++ (state.run gs).attributes hs := by
  induction gs generalizing state with
  | nil => rfl
  | cons g gs ih => rw [List.cons_append, attributes, ih, attributes, List.append_assoc, run, run,
      List.foldl_cons]

theorem run_append (state : TagState) (gs hs : List Glyph) :
    state.run (gs ++ hs) = (state.run gs).run hs := List.foldl_append

/-! ### Where an attribute begins -/

theorem role_of_isNameChar (h : WrittenAttribute.isNameChar c = true) : (char c).role = .plain := by
  obtain ⟨-, hclose, -, hblank⟩ := @OpeningTag.after_nameChar c [] h
  have hslash := WrittenAttribute.ne_of_isNameChar h (by decide : _ = false) (d := '/')
  have hequals := WrittenAttribute.ne_of_isNameChar h (by decide : _ = false) (d := '=')
  rw [role, hblank, if_neg Bool.false_ne_true, if_neg hslash, if_neg hclose, if_neg hequals]

theorem step_blank (h : state.isReady = true) : state.step (char ' ') = (none, state) := by
  cases state with
  | beforeName => rfl
  | afterName cs => rfl
  | _ => cases h

theorem attributes_gap (h : state.isReady = true) {gap : List Char} (hgap : gap = [] ∨ gap = [' '])
    (gs : List Glyph) : state.attributes (gap.map char ++ gs) = state.attributes gs := by
  rcases hgap with rfl | rfl
  · rfl
  · rw [List.map_singleton, List.singleton_append, attributes, step_blank h]
    rfl

/-- Where a name may begin, an attribute is read in the same way as behind another one. -/
theorem of_isReady (h : state.isReady = true) (hc : WrittenAttribute.isNameChar c = true)
    (gs : List Glyph) :
    state.attributes (char c :: gs) = state.pending ++ beforeName.attributes (char c :: gs) ∧
      state.run (char c :: gs) = beforeName.run (char c :: gs) := by
  have hrole := role_of_isNameChar hc
  cases state with
  | beforeName => exact ⟨rfl, rfl⟩
  | afterName cs =>
    constructor
    · rw [attributes, attributes, step, step, hrole]
      rfl
    · rw [run, run, List.foldl_cons, List.foldl_cons, step, step, hrole]
  | _ => cases h

theorem name_append (h : ∀ c ∈ cs, WrittenAttribute.isNameChar c = true) (before : List Char)
    (gs : List Glyph) :
    (name before).attributes (cs.map char ++ gs) = (name (before ++ cs)).attributes gs ∧
      (name before).run (cs.map char ++ gs) = (name (before ++ cs)).run gs := by
  induction cs generalizing before with
  | nil =>
    rw [List.append_nil]
    exact ⟨rfl, rfl⟩
  | cons c cs ih =>
    obtain ⟨hattributes, hrun⟩ := ih (fun d hd => h d (List.mem_cons_of_mem c hd)) (before ++ [c])
    have hrole := role_of_isNameChar (h c List.mem_cons_self)
    have hstep : (name before).step (char c) = (none, name (before ++ [c])) := by
      rw [step, hrole, text]
    rw [List.append_assoc] at hattributes hrun
    constructor
    · rw [List.map_cons, List.cons_append, attributes, hstep]
      exact hattributes
    · rw [List.map_cons, List.cons_append, run, List.foldl_cons, hstep]
      exact hrun

end TagState

/-! ### The glyphs of one attribute -/

open Glyph OpeningTag

/-- Glyphs that are read as one attribute, from its name to the end of its value, and that leave no
quote open. -/
structure TagAttribute.IsRead (a : TagAttribute) (gs : List Glyph) : Prop where
  begins : gs.head?.any isName = true
  attributes : TagState.beforeName.attributes gs = [a]
  run : TagState.beforeName.run gs = .beforeName
  quotes : gs.foldlM after? none = some none

instance (a : TagAttribute) (gs : List Glyph) : Decidable (a.IsRead gs) :=
  decidable_of_iff (gs.head?.any isName = true ∧ TagState.beforeName.attributes gs = [a] ∧
      TagState.beforeName.run gs = .beforeName ∧ gs.foldlM after? none = some none)
    ⟨fun ⟨h₁, h₂, h₃, h₄⟩ => ⟨h₁, h₂, h₃, h₄⟩, fun ⟨h₁, h₂, h₃, h₄⟩ => ⟨h₁, h₂, h₃, h₄⟩⟩

variable {a : TagAttribute} {state : TagState} {gs : List Glyph}

theorem TagAttribute.IsRead.exists_cons (h : a.IsRead gs) :
    ∃ c hs, gs = char c :: hs ∧ WrittenAttribute.isNameChar c = true := by
  obtain ⟨g, hg, hname⟩ := (Option.any_eq_true _ _).1 h.begins
  obtain ⟨hs, rfl⟩ := List.head?_eq_some_iff.1 hg
  cases g with
  | char c => exact ⟨c, hs, rfl, hname⟩
  | mustache text => cases hname

theorem TagAttribute.IsRead.attributes_append (h : a.IsRead gs) (hready : state.isReady = true)
    (hs : List Glyph) :
    state.attributes (gs ++ hs) = state.pending ++ a :: TagState.beforeName.attributes hs := by
  obtain ⟨c, tail, rfl, hc⟩ := h.exists_cons
  obtain ⟨hattributes, hrun⟩ := TagState.of_isReady hready hc tail
  rw [TagState.attributes_append, hattributes, hrun, h.attributes, h.run, List.append_assoc]
  rfl

theorem TagAttribute.IsRead.run_append (h : a.IsRead gs) (hready : state.isReady = true)
    (hs : List Glyph) : state.run (gs ++ hs) = TagState.beforeName.run hs := by
  obtain ⟨c, tail, rfl, hc⟩ := h.exists_cons
  rw [TagState.run_append, (TagState.of_isReady hready hc tail).2, h.run]

theorem after?_of_isNameChar {c : Char} (h : WrittenAttribute.isNameChar c = true) :
    after? none (char c) = some none := by
  obtain ⟨-, hclose, hquote, -⟩ := @OpeningTag.after_nameChar c [] h
  rw [after?, if_neg fun hend => hclose hend.2, hquote]

theorem foldlM_after?_name {cs : List Char}
    (h : ∀ c ∈ cs, WrittenAttribute.isNameChar c = true) (gs : List Glyph) :
    (cs.map char ++ gs).foldlM after? none = gs.foldlM after? none := by
  induction cs with
  | nil => rfl
  | cons c cs ih =>
    rw [List.map_cons, List.cons_append, List.foldlM_cons,
      after?_of_isNameChar (h c List.mem_cons_self)]
    exact ih fun d hd => h d (List.mem_cons_of_mem c hd)

def boundGlyphs (name value : List Char) : List Glyph :=
  name.map char ++ [char '=', char '"', mustache value, char '"']

variable {name value : List Char}

theorem proper_boundGlyphs (hname : ∀ c ∈ name, WrittenAttribute.isNameChar c = true)
    (hbraces : ['{', '{'] <+: value) (hvalue : mustacheText? value = some value) :
    Proper (boundGlyphs name value) := by
  have hmustache : Proper [mustache value, char '"'] :=
    (Proper.nil.char_cons (by decide)).mustache_cons hbraces hvalue
  have htail : Proper [char '=', char '"', mustache value, char '"'] :=
    (hmustache.char_cons (by decide)).char_cons (by decide)
  refine Proper.append_iff.2 ⟨Proper.chars fun hmem => ?_, htail, ?_⟩
  · exact absurd (hname '{' hmem) (by decide)
  · rintro g - h ⟨⟩ -
    rfl

theorem textOf_boundGlyphs (name content : List Char) :
    textOf (boundGlyphs name ('{' :: '{' :: (content ++ ['}', '}']))) = bound name content := by
  rw [boundGlyphs, textOf_append, textOf_map_char]
  simp [Glyph.text, OpeningTag.bound]

theorem isRead_boundGlyphs (hne : name ≠ [])
    (hname : ∀ c ∈ name, WrittenAttribute.isNameChar c = true) (value : List Char) :
    { name, value : TagAttribute }.IsRead (boundGlyphs name value) := by
  have hquotes := foldlM_after?_name hname [char '=', char '"', mustache value, char '"']
  obtain ⟨c, name, rfl⟩ := List.exists_cons_of_ne_nil hne
  have hc := hname c List.mem_cons_self
  obtain ⟨hattributes, hrun⟩ := TagState.name_append
    (fun d hd => hname d (List.mem_cons_of_mem c hd)) [c]
    [char '=', char '"', mustache value, char '"']
  have hstep : TagState.beforeName.step (char c) = (none, .name [c]) := by
    rw [TagState.step, TagState.role_of_isNameChar hc, Glyph.text]
  refine ⟨hc, ?_, ?_, hquotes.trans rfl⟩
  · rw [boundGlyphs, List.map_cons, List.cons_append, TagState.attributes, hstep]
    exact hattributes
  · rw [boundGlyphs, List.map_cons, List.cons_append, TagState.run, List.foldl_cons, hstep]
    exact hrun

end MustacheJsx
