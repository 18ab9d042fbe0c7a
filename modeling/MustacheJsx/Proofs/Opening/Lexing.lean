import MustacheJsx.Proofs.Opening.Lifting
import MustacheJsx.Proofs.Printing.Lexing
import MustacheJsx.Proofs.Reading.Unmarked

/-!
# Cutting the markup of an opening tag into a token

From text on, the lexer reads the markup of an opening tag as one start tag. Its names are in small
letters, and the value of an attribute is its text with references replaced, and its holes.
-/

namespace MustacheJsx

open Markup (valueText)

/-! ### What the markup of a tag is read as -/

/-- The pieces of a value as the lexer gives them back. -/
def Piece.decoded : Piece → Piece
  | .text chars => .text (valueText chars)
  | .hole index => .hole index

namespace SourceValue

def decodedPieces (first : Nat) (value : SourceValue) : List Piece :=
  (ValuePart.pieces first value.parts).map Piece.decoded

def decoded (marker : Char) (first : Nat) (value : SourceValue) : List Char :=
  (value.decodedPieces first).flatMap (Piece.rendered marker)

end SourceValue

namespace SourceAttribute

/-- An attribute of a start tag; without a value it is empty. -/
def decoded (marker : Char) (first : Nat) (entry : SourceAttribute) : String × String :=
  (smallName entry.name, String.ofList ((entry.value.map (·.decoded marker first)).getD []))

def decodedOfAll (marker : Char) (first : Nat) : List SourceAttribute → List (String × String)
  | [] => []
  | entry :: attributes =>
    entry.decoded marker first ::
      decodedOfAll marker (first + entry.mustaches.length) attributes

end SourceAttribute

namespace Markup.Lexer

open Reference (IsStop)

/-! ### Line ends -/

theorem unifyLineEnds_cons {c : Char} (h : c ≠ '\r') (cs : List Char) :
    unifyLineEnds (c :: cs) = c :: unifyLineEnds cs := by
  rw [unifyLineEnds]
  · rintro ds rfl
    exact absurd rfl h
  · rintro rfl
    exact absurd rfl h

theorem unifyLineEnds_append {xs ys : List Char} (h : ys.head? = some '\n' → '\r' ∉ xs) :
    unifyLineEnds (xs ++ ys) = unifyLineEnds xs ++ unifyLineEnds ys := by
  fun_induction unifyLineEnds xs with
  | case1 => rfl
  | case2 cs ih =>
    have hrest := ih fun hy hmem => h hy (List.mem_cons_of_mem _ (List.mem_cons_of_mem _ hmem))
    show '\n' :: unifyLineEnds (cs ++ ys) = _
    rw [hrest]
    rfl
  | case3 cs hnot ih =>
    have hrest := ih fun hy hmem => h hy (List.mem_cons_of_mem _ hmem)
    rw [List.cons_append, unifyLineEnds, hrest, List.cons_append]
    intro ds hds
    cases cs with
    | nil =>
      have hys : ys = '\n' :: ds := hds
      exact h (by rw [hys]; rfl) List.mem_cons_self
    | cons d cs =>
      cases hds
      exact hnot cs rfl
  | case4 c cs hpair hsingle ih =>
    have hc : c ≠ '\r' := fun heq => hsingle heq
    have hrest := ih fun hy hmem => h hy (List.mem_cons_of_mem _ hmem)
    rw [List.cons_append, unifyLineEnds_cons hc, hrest, List.cons_append]

theorem unifyLineEnds_blanks {blanks : List Char}
    (h : ∀ c ∈ blanks, Text.isAsciiBlank c = true) :
    ∀ c ∈ unifyLineEnds blanks, Text.isMarkupBlank c = true := by
  have hone : ∀ {c : Char}, Text.isAsciiBlank c = true → c ≠ '\r' →
      Text.isMarkupBlank c = true := by
    intro c hc hne
    simpa [Text.isAsciiBlank, Text.isMarkupBlank, hne] using hc
  fun_induction unifyLineEnds blanks with
  | case1 =>
    intro c hc
    cases hc
  | case2 cs ih =>
    intro c hc
    rcases List.mem_cons.1 hc with rfl | hc
    · decide
    · exact ih (fun d hd => h d (List.mem_cons_of_mem _ (List.mem_cons_of_mem _ hd))) c hc
  | case3 cs hnot ih =>
    intro c hc
    rcases List.mem_cons.1 hc with rfl | hc
    · decide
    · exact ih (fun d hd => h d (List.mem_cons_of_mem _ hd)) c hc
  | case4 d cs hpair hsingle ih =>
    intro c hc
    rcases List.mem_cons.1 hc with rfl | hc
    · exact hone (h c List.mem_cons_self) fun heq => hsingle heq
    · exact ih (fun e he => h e (List.mem_cons_of_mem _ he)) c hc

theorem unifyLineEnds_ne_nil {cs : List Char} (h : cs ≠ []) : unifyLineEnds cs ≠ [] := by
  fun_cases unifyLineEnds cs with
  | case1 => exact absurd rfl h
  | _ => exact List.cons_ne_nil _ _

/-! ### Between attributes -/

/-- Reading `cs` from one machine is reading `rest` from the other. -/
def Leads (m : Machine) (cs : List Char) (m' : Machine) (rest : List Char) : Prop :=
  run 0 m (unifyLineEnds cs) = run 0 m' (unifyLineEnds rest)

theorem Leads.trans {m middle m' : Machine} {xs ys zs : List Char} (h : Leads m xs middle ys)
    (h' : Leads middle ys m' zs) : Leads m xs m' zs :=
  Eq.trans h h'

theorem leads_of_lexes {m m' : Machine} {cs : List Char} (h : Lexes cs m [] m')
    (hcs : '\r' ∉ cs) (rest : List Char) : Leads m (cs ++ rest) m' rest := by
  have hunified : unifyLineEnds cs = cs :=
    unifyLineEnds_of_forall fun c hc heq => hcs (heq ▸ hc)
  have hread := h (unifyLineEnds rest)
  rw [Leads, unifyLineEnds_append fun _ => hcs, hunified]
  exact hread

/-- The machine is in a start tag with these attributes, the last of them included. -/
structure Collects (m : Machine) (text : List Char) (name : List Char)
    (attributes : List (String × String)) : Prop where
  text : m.text.reverse = text
  isEndTag : m.isEndTag = false
  name : m.name.reverse = name
  attributes : m.endAttribute.attributes.reverse = attributes
  selfClosing : m.isSelfClosing = false

/-- Where a blank begins or goes on between attributes. -/
inductive IsBetween : State → Prop where
  | tagName : IsBetween .tagName
  | attributeName : IsBetween .attributeName
  | afterAttributeName : IsBetween .afterAttributeName
  | beforeAttribute : IsBetween .beforeAttribute
  | afterValue : IsBetween .afterValue
  | value : IsBetween (.value none)

/-- Where an attribute begins. -/
inductive IsBefore : State → Prop where
  | beforeAttribute : IsBefore .beforeAttribute
  | afterAttributeName : IsBefore .afterAttributeName

variable {m : Machine} {text name : List Char} {attributes : List (String × String)}

theorem step_blank (hstate : IsBetween m.state) {c : Char} (hc : Text.isMarkupBlank c = true) :
    ∃ state, IsBefore state ∧ ∀ rest, step m c rest = keep (m.goTo state) := by
  generalize hs : m.state = state at hstate
  cases hstate with
  | tagName =>
    refine ⟨_, .beforeAttribute, fun rest => ?_⟩
    rw [step, hs]
    exact if_pos hc
  | attributeName =>
    refine ⟨_, .afterAttributeName, fun rest => ?_⟩
    rw [step, hs]
    exact if_pos hc
  | afterAttributeName =>
    have hsame : m.goTo .afterAttributeName = m := by
      rw [← hs]
      rfl
    refine ⟨_, .afterAttributeName, fun rest => ?_⟩
    rw [hsame, step, hs]
    exact if_pos hc
  | beforeAttribute =>
    refine ⟨_, .beforeAttribute, fun rest => ?_⟩
    rw [step, hs]
    exact if_pos hc
  | afterValue =>
    have hslash : c ≠ '/' := by
      rintro rfl
      cases hc
    refine ⟨_, .beforeAttribute, fun rest => ?_⟩
    rw [step, hs]
    exact (if_neg hslash).trans (if_pos hc)
  | value =>
    refine ⟨_, .beforeAttribute, fun rest => ?_⟩
    rw [step, hs]
    exact if_pos hc

theorem lexes_blank (hstate : IsBetween m.state) {c : Char} (hc : Text.isMarkupBlank c = true) :
    ∃ line state, IsBefore state ∧
      Lexes [c] m [] (({ m with line } : Machine).goTo state) := by
  obtain ⟨line, hline⟩ := exists_countLine_eq m c
  obtain ⟨state, hbefore, hstep⟩ := step_blank (m := { m with line }) hstate hc
  refine ⟨line, state, hbefore, lexes_of_step fun rest => ?_⟩
  rw [hline, hstep]
  rfl

theorem IsBefore.isBetween {state : State} (h : IsBefore state) : IsBetween state := by
  cases h with
  | beforeAttribute => exact .beforeAttribute
  | afterAttributeName => exact .afterAttributeName

theorem Collects.setLine (h : Collects m text name attributes) (line : Nat) :
    Collects { m with line } text name attributes :=
  ⟨h.text, h.isEndTag, h.name, h.attributes, h.selfClosing⟩

theorem Collects.goTo (h : Collects m text name attributes) (state : State) :
    Collects (m.goTo state) text name attributes :=
  ⟨h.text, h.isEndTag, h.name, h.attributes, h.selfClosing⟩

theorem Collects.lexes_blanks (hm : Collects m text name attributes) (hstate : IsBetween m.state)
    {blanks : List Char} (hne : blanks ≠ []) (h : ∀ c ∈ blanks, Text.isMarkupBlank c = true) :
    ∃ m', Lexes blanks m [] m' ∧ IsBefore m'.state ∧ Collects m' text name attributes := by
  induction blanks generalizing m with
  | nil => exact absurd rfl hne
  | cons c blanks ih =>
    obtain ⟨line, state, hbefore, hfirst⟩ := lexes_blank hstate (h c List.mem_cons_self)
    have hread := (hm.setLine line).goTo state
    by_cases hnil : blanks = []
    · rw [hnil]
      exact ⟨_, hfirst, hbefore, hread⟩
    · obtain ⟨m', hlexes, hbefore', hm'⟩ := ih hread hbefore.isBetween hnil
        fun d hd => h d (List.mem_cons_of_mem c hd)
      exact ⟨m', hfirst.cons hlexes, hbefore', hm'⟩

/-- Blanks before an attribute, however their line ends are written. -/
theorem Collects.leads_blanks (hm : Collects m text name attributes) (hstate : IsBetween m.state)
    {blanks rest : List Char} (hne : blanks ≠ [])
    (h : ∀ c ∈ blanks, Text.isAsciiBlank c = true) (hrest : rest.head? ≠ some '\n') :
    ∃ m', Leads m (blanks ++ rest) m' rest ∧ IsBefore m'.state ∧
      Collects m' text name attributes := by
  obtain ⟨m', hlexes, hbefore, hm'⟩ := hm.lexes_blanks hstate (unifyLineEnds_ne_nil hne)
    (unifyLineEnds_blanks h)
  refine ⟨m', ?_, hbefore, hm'⟩
  rw [Leads, unifyLineEnds_append fun hhead => absurd hhead hrest]
  exact hlexes _

/-! ### Names -/

/-- The machine is in an attribute. -/
structure InAttribute (m : Machine) (text : List Char) (name : List Char)
    (attributes : List (String × String)) (key value : List Char) : Prop where
  text : m.text.reverse = text
  isEndTag : m.isEndTag = false
  name : m.name.reverse = name
  attributes : m.attributes.reverse = attributes
  selfClosing : m.isSelfClosing = false
  key : m.key.reverse = key
  value : m.value.reverse = value

variable {key value : List Char}

theorem InAttribute.goTo (h : InAttribute m text name attributes key value) (state : State) :
    InAttribute (m.goTo state) text name attributes key value :=
  ⟨h.text, h.isEndTag, h.name, h.attributes, h.selfClosing, h.key, h.value⟩

theorem InAttribute.setLine (h : InAttribute m text name attributes key value) (line : Nat) :
    InAttribute { m with line } text name attributes key value :=
  ⟨h.text, h.isEndTag, h.name, h.attributes, h.selfClosing, h.key, h.value⟩

theorem InAttribute.collects (h : InAttribute m text name attributes key value) (hne : key ≠ [])
    (hnew : String.ofList key ∉ attributes.map Prod.fst) :
    Collects m text name (attributes ++ [(String.ofList key, String.ofList value)]) := by
  refine ⟨h.text, h.isEndTag, h.name, ?_, h.selfClosing⟩
  have hkey : m.key.isEmpty = false := by
    cases hcases : m.key with
    | nil =>
      have hreverse := h.key
      rw [hcases] at hreverse
      exact absurd hreverse.symm hne
    | cons c cs => rfl
  have hfresh : m.attributes.any (fun entry => entry.1 == String.ofList key) = false := by
    rw [List.any_eq_false]
    intro entry hentry heq
    refine hnew (List.mem_map.2 ⟨entry, ?_, beq_iff_eq.1 heq⟩)
    rw [← h.attributes]
    exact List.mem_reverse.2 hentry
  simp only [Machine.endAttribute, h.key, h.value, hkey, hfresh, Bool.or_self, Bool.false_eq_true,
    if_false, List.reverse_cons, h.attributes]

theorem isMarkupBlank_of_isBlank {c : Char} (h : Text.isBlank c = false) :
    Text.isMarkupBlank c = false ∧ c ≠ '\n' ∧ c ≠ '\r' := by
  have hne : ∀ d, Text.isBlank d = true → c ≠ d := by
    rintro d hd rfl
    rw [h] at hd
    cases hd
  refine ⟨?_, hne '\n' (by decide), hne '\r' (by decide)⟩
  simp [Text.isMarkupBlank, hne ' ' (by decide), hne '\t' (by decide), hne '\n' (by decide),
    hne '\x0c' (by decide)]

theorem not_mem_return_of_isBlank {chars : List Char}
    (h : ∀ c ∈ chars, Text.isBlank c = false) : '\r' ∉ chars :=
  fun hmem => (isMarkupBlank_of_isBlank (h _ hmem)).2.2 rfl

theorem InAttribute.lexes_key (hm : InAttribute m text name attributes key [])
    (hstate : m.state = .attributeName) {chars : List Char} (h : ∀ c ∈ chars, IsNamePart c) :
    ∃ m', Lexes chars m [] m' ∧ m'.state = .attributeName ∧
      InAttribute m' text name attributes (key ++ chars.map Text.lowerAscii) [] := by
  induction chars generalizing m key with
  | nil => exact ⟨m, lexes_nil m, hstate, by rwa [List.map_nil, List.append_nil]⟩
  | cons c chars ih =>
    have hc := h c List.mem_cons_self
    obtain ⟨hblank, hline, -⟩ := isMarkupBlank_of_isBlank hc.blank
    have hstep : Lexes [c] m [] { m with key := Text.lowerAscii c :: m.key } := by
      refine lexes_of_step fun rest => ?_
      rw [countLine_of_ne hline, step, hstate]
      simp [stepAttributeName, hblank, hc.slash, hc.greater, hc.equals, visible_of_ne hc.nul, keep,
        hstate]
    have hkeyed : InAttribute { m with key := Text.lowerAscii c :: m.key } text name attributes
        (key ++ [Text.lowerAscii c]) [] := by
      refine ⟨hm.text, hm.isEndTag, hm.name, hm.attributes, hm.selfClosing, ?_, hm.value⟩
      simp [hm.key]
    obtain ⟨m', hlexes, hstate', hm'⟩ :=
      ih hkeyed hstate fun d hd => h d (List.mem_cons_of_mem c hd)
    refine ⟨m', hstep.cons hlexes, hstate', ?_⟩
    rwa [List.append_assoc] at hm'

theorem Collects.leads_name (hm : Collects m text name attributes) (hstate : IsBefore m.state)
    {chars : List Char} (hne : chars ≠ []) (h : ∀ c ∈ chars, IsNamePart c) (rest : List Char) :
    ∃ m', Leads m (chars ++ rest) m' rest ∧ m'.state = .attributeName ∧
      InAttribute m' text name attributes (chars.map Text.lowerAscii) [] := by
  obtain ⟨c, cs, rfl⟩ := List.exists_cons_of_ne_nil hne
  have hc := h c List.mem_cons_self
  obtain ⟨hblank, hline, -⟩ := isMarkupBlank_of_isBlank hc.blank
  have hfirst : Lexes [c] m [] (m.beginAttribute (Text.lowerAscii c)) := by
    refine lexes_of_step fun rest => ?_
    rw [countLine_of_ne hline, step]
    generalize m.state = state at hstate
    cases hstate with
    | beforeAttribute =>
      simp [stepBeforeAttribute, hblank, hc.slash, hc.greater, visible_of_ne hc.nul, keep]
    | afterAttributeName =>
      simp [stepAfterAttributeName, hblank, hc.slash, hc.greater, hc.equals, visible_of_ne hc.nul,
        keep]
  have hbegun : InAttribute (m.beginAttribute (Text.lowerAscii c)) text name attributes
      [Text.lowerAscii c] [] :=
    ⟨hm.text, hm.isEndTag, hm.name, hm.attributes, hm.selfClosing, rfl, rfl⟩
  obtain ⟨m', hlexes, hstate', hm'⟩ :=
    hbegun.lexes_key rfl fun d hd => h d (List.mem_cons_of_mem c hd)
  have hreturn := not_mem_return_of_isBlank fun d hd => (h d hd).blank
  exact ⟨m', leads_of_lexes (hfirst.cons hlexes) hreturn rest, hstate', hm'⟩

theorem InAttribute.lexes_blanks (hm : InAttribute m text name attributes key [])
    (hstate : m.state = .attributeName ∨ m.state = .afterAttributeName) {blanks : List Char}
    (h : ∀ c ∈ blanks, Text.isMarkupBlank c = true) :
    ∃ m', Lexes blanks m [] m' ∧ (m'.state = .attributeName ∨ m'.state = .afterAttributeName) ∧
      InAttribute m' text name attributes key [] := by
  induction blanks generalizing m with
  | nil => exact ⟨m, lexes_nil m, hstate, hm⟩
  | cons c blanks ih =>
    obtain ⟨line, hline⟩ := exists_countLine_eq m c
    have hc := h c List.mem_cons_self
    have hstep : Lexes [c] m [] (({ m with line } : Machine).goTo .afterAttributeName) := by
      refine lexes_of_step fun rest => ?_
      rw [hline, step]
      rcases hstate with hstate | hstate
      · rw [show ({ m with line } : Machine).state = _ from hstate]
        exact if_pos hc
      · rw [show ({ m with line } : Machine).state = _ from hstate]
        refine (if_pos hc).trans ?_
        rw [Machine.goTo, ← hstate]
        rfl
    obtain ⟨m', hlexes, hstate', hm'⟩ := ih ((hm.setLine line).goTo .afterAttributeName) (.inr rfl)
      fun d hd => h d (List.mem_cons_of_mem c hd)
    exact ⟨m', hstep.cons hlexes, hstate', hm'⟩

theorem lexes_blanks_beforeValue (hstate : m.state = .beforeValue) {blanks : List Char}
    (h : ∀ c ∈ blanks, Text.isMarkupBlank c = true) : Lexes blanks m [] m := by
  induction blanks with
  | nil => exact lexes_nil m
  | cons c blanks ih =>
    have hstep : Lexes [c] m [] m := by
      refine lexes_of_step fun rest => ?_
      rw [countLine, if_neg fun hc => hc.2 hstate, step, hstate]
      exact if_pos (h c List.mem_cons_self)
    exact hstep.cons (ih fun d hd => h d (List.mem_cons_of_mem c hd))

/-- The equals sign of an attribute, with the blanks around it. -/
theorem InAttribute.leads_equals (hm : InAttribute m text name attributes key [])
    (hstate : m.state = .attributeName) {before after rest : List Char}
    (hbefore : ∀ c ∈ before, Text.isAsciiBlank c = true)
    (hafter : ∀ c ∈ after, Text.isAsciiBlank c = true) (hrest : rest.head? ≠ some '\n') :
    ∃ m', Leads m (before ++ '=' :: (after ++ rest)) m' rest ∧ m'.state = .beforeValue ∧
      InAttribute m' text name attributes key [] := by
  obtain ⟨middle, hblanks, hstate', hmiddle⟩ :=
    hm.lexes_blanks (.inl hstate) (unifyLineEnds_blanks hbefore)
  have hequals : Lexes ['='] middle [] (middle.goTo .beforeValue) := by
    refine lexes_of_step fun rest => ?_
    rw [countLine_of_ne (by decide), step]
    rcases hstate' with hstate' | hstate' <;> rw [hstate'] <;> rfl
  have hvalue : Lexes (unifyLineEnds after) (middle.goTo .beforeValue) []
      (middle.goTo .beforeValue) :=
    lexes_blanks_beforeValue rfl (unifyLineEnds_blanks hafter)
  refine ⟨_, ?_, rfl, hmiddle.goTo .beforeValue⟩
  have hread := (hblanks.append (hequals.append hvalue)) (unifyLineEnds rest)
  rw [Leads, unifyLineEnds_append (by simp), unifyLineEnds_cons (by decide),
    unifyLineEnds_append fun hhead => absurd hhead hrest]
  simpa using hread

/-! ### Values -/

/-- A character that does not end a value. -/
def IsInValue (quote : Option Char) (c : Char) : Prop :=
  quote ≠ some c ∧ (quote = none → Text.isMarkupBlank c = false ∧ c ≠ '>')

theorem step_inValue {quote : Option Char} (hstate : m.state = .value quote) {c : Char}
    (hc : IsInValue quote c) (rest : List Char) : step m c rest = stepValueChar m c rest := by
  have hsame : m.goTo (.value quote) = m := by
    rw [← hstate]
    rfl
  rw [step, hstate]
  show stepValue quote m c rest = _
  rw [stepValue.eq_def, hsame]
  cases quote with
  | some q => exact if_neg fun heq => hc.1 (by rw [heq])
  | none =>
    obtain ⟨hblank, hgreater⟩ := hc.2 rfl
    simp [hblank, hgreater]

theorem run_of_step {m' : Machine} {c : Char} {cs : List Char} {skip : Nat}
    (h : step (countLine m c) c cs = (m', [], skip)) : run 0 m (c :: cs) = run skip m' cs := by
  rw [run, h]
  rfl

/-- The text of a value stands before a character that ends it or begins a hole. -/
theorem run_valueText {quote : Option Char} {stop : Char} (hstop : IsStop stop)
    {cs : List Char} (rest : List Char) {skip : Nat} (hskip : skip ≤ cs.length)
    (hstate : m.state = .value quote) (hcs : ∀ c ∈ cs, IsInValue quote c) :
    ∃ line, run skip m (cs ++ stop :: rest) = run 0
      { m with line, value := (valueTextAfter skip cs).reverse ++ m.value } (stop :: rest) := by
  induction cs generalizing m skip with
  | nil =>
    cases Nat.le_zero.1 hskip
    exact ⟨m.line, rfl⟩
  | cons c cs ih =>
    have hrest : ∀ d ∈ cs, IsInValue quote d := fun d hd => hcs d (List.mem_cons_of_mem c hd)
    cases skip with
    | succ skip => exact ih (Nat.le_of_succ_le_succ hskip) hstate hrest
    | zero =>
      obtain ⟨line, hline⟩ := exists_countLine_eq m c
      have hstep : step (countLine m c) c (cs ++ stop :: rest) =
          stepValueChar { m with line } c (cs ++ stop :: rest) := by
        rw [hline]
        exact step_inValue (m := { m with line }) hstate (hcs c List.mem_cons_self) _
      rw [List.cons_append, valueTextAfter]
      by_cases hamp : c = '&'
      · rw [if_pos hamp]
        rw [stepValueChar, if_pos hamp, Reference.read?_append hstop] at hstep
        cases hread : Reference.read? true cs with
        | some found =>
          rw [hread] at hstep
          obtain ⟨last, hlast⟩ := ih (m := { m with line, value := found.1.reverse ++ m.value })
            (Reference.read?_bounds hread).2 hstate hrest
          refine ⟨last, ?_⟩
          rw [run_of_step hstep, hlast, List.reverse_append, List.append_assoc]
        | none =>
          rw [hread] at hstep
          obtain ⟨last, hlast⟩ := ih (m := { m with line, value := '&' :: m.value })
            (Nat.zero_le _) hstate hrest
          refine ⟨last, ?_⟩
          rw [run_of_step hstep, hlast, List.reverse_cons, List.append_assoc]
          rfl
      · rw [if_neg hamp]
        rw [stepValueChar, if_neg hamp] at hstep
        obtain ⟨last, hlast⟩ := ih (m := { m with line, value := visible c :: m.value })
          (Nat.zero_le _) hstate hrest
        refine ⟨last, ?_⟩
        rw [run_of_step hstep, hlast, List.reverse_cons, List.append_assoc]
        rfl

theorem isStop_of_isMarker {marker : Char} (h : IsMarker marker) : IsStop marker := by
  have hdigit : Text.isAsciiDigit marker = false := by
    simp only [Text.isAsciiDigit, Bool.and_eq_false_iff, decide_eq_false_iff_not, Char.le_def,
      UInt32.le_iff_toNat_le]
    right
    intro hle
    have hlow : 0xE000 ≤ marker.val.toNat := h.1
    have hhigh : marker.val.toNat ≤ 57 := hle
    omega
  have hletter : Text.isAsciiLetter marker = false := by
    simp only [Text.isAsciiLetter, Bool.or_eq_false_iff, Bool.and_eq_false_iff,
      decide_eq_false_iff_not, Char.le_def, UInt32.le_iff_toNat_le]
    have hlow : 0xE000 ≤ marker.val.toNat := h.1
    constructor <;> right <;> intro hle
    · have hhigh : marker.val.toNat ≤ 122 := hle
      omega
    · have hhigh : marker.val.toNat ≤ 90 := hle
      omega
  refine ⟨?_, hdigit, ?_, h.ne (by decide), h.ne (by decide), h.ne (by decide)⟩
  · rw [Reference.isHexDigit, hdigit]
    simp only [Bool.false_or, Bool.or_eq_false_iff, Bool.and_eq_false_iff,
      decide_eq_false_iff_not, Char.le_def, UInt32.le_iff_toNat_le]
    have hlow : 0xE000 ≤ marker.val.toNat := h.1
    constructor <;> right <;> intro hle
    · have hhigh : marker.val.toNat ≤ 102 := hle
      omega
    · have hhigh : marker.val.toNat ≤ 70 := hle
      omega
  · rw [Text.isAsciiAlphanumeric, hletter, hdigit]
    rfl

theorem isBlank_of_isMarker {marker : Char} (h : IsMarker marker) :
    Text.isBlank marker = false := by
  have hlow : 0xE000 ≤ marker.toNat := h.1
  simp only [Text.isBlank, Bool.or_eq_false_iff, Bool.and_eq_false_iff, decide_eq_false_iff_not,
    beq_eq_false_iff_ne]
  omega

theorem lexes_verbatim {quote : Option Char} (hstate : m.state = .value quote) {cs : List Char}
    (hcs : ∀ c ∈ cs, IsInValue quote c ∧ c ≠ '&' ∧ c ≠ '\x00') :
    ∃ line, Lexes cs m [] { m with line, value := cs.reverse ++ m.value } := by
  induction cs generalizing m with
  | nil => exact ⟨m.line, lexes_nil m⟩
  | cons c cs ih =>
    obtain ⟨hc, hamp, hnul⟩ := hcs c List.mem_cons_self
    obtain ⟨line, hline⟩ := exists_countLine_eq m c
    have hstep : Lexes [c] m [] { m with line, value := c :: m.value } := by
      refine lexes_of_step fun rest => ?_
      rw [hline, step_inValue (m := { m with line }) hstate hc, stepValueChar, if_neg hamp,
        visible_of_ne hnul]
      rfl
    obtain ⟨last, hlexes⟩ := ih (m := { m with line, value := c :: m.value }) hstate
      fun d hd => hcs d (List.mem_cons_of_mem c hd)
    refine ⟨last, ?_⟩
    have hall := hstep.cons hlexes
    simpa only [List.reverse_cons, List.append_assoc, List.singleton_append] using hall

variable {marker : Char}

theorem isInValue_of_mem_placeholderText (hmarker : IsMarker marker) {quote : Option Char}
    (hquote : ∀ q ∈ quote, q = '"' ∨ q = '\'') {index : Nat} {c : Char}
    (hc : c ∈ placeholderText marker index) :
    IsInValue quote c ∧ c ≠ '&' ∧ c ≠ '\x00' ∧ c ≠ '\r' := by
  have hne : ∀ d, d.toNat < 0xE000 → Text.isAsciiDigit d = false → c ≠ d :=
    fun d hd hdigit => mem_placeholderText_ne hmarker hc hdigit hd
  refine ⟨⟨fun heq => ?_, fun _ => ⟨?_, hne '>' (by decide) (by decide)⟩⟩,
    hne '&' (by decide) (by decide), hne '\x00' (by decide) (by decide),
    hne '\r' (by decide) (by decide)⟩
  · rcases hquote c (by rw [heq]; rfl) with rfl | rfl
    · exact hne '"' (by decide) (by decide) rfl
    · exact hne '\'' (by decide) (by decide) rfl
  · simp [Text.isMarkupBlank, hne ' ' (by decide) (by decide), hne '\t' (by decide) (by decide),
      hne '\n' (by decide) (by decide), hne '\x0c' (by decide) (by decide)]

/-- The parts of a value before what ends it. -/
theorem leads_values (hmarker : IsMarker marker) {quote : Option Char}
    (hquote : ∀ q ∈ quote, q = '"' ∨ q = '\'') {stop : Char} (hstop : IsStop stop)
    {rest more : List Char} (hmore : unifyLineEnds rest = stop :: more) {parts : List ValuePart}
    (htexts : ∀ chars, .text chars ∈ parts → (∀ c ∈ unifyLineEnds chars, IsInValue quote c) ∧
      (rest.head? = some '\n' → '\r' ∉ chars))
    (hapart : parts.IsChain ValuePart.Apart) (hstate : m.state = .value quote) (first : Nat) :
    ∃ line, Leads m ((ValuePart.pieces first parts).flatMap (Piece.rendered marker) ++ rest)
      { m with
        line
        value := (((ValuePart.pieces first parts).map Piece.decoded).flatMap
          (Piece.rendered marker)).reverse ++ m.value } rest := by
  induction parts generalizing m first with
  | nil => exact ⟨m.line, rfl⟩
  | cons part parts ih =>
    have hrest : ∀ chars, .text chars ∈ parts →
        (∀ c ∈ unifyLineEnds chars, IsInValue quote c) ∧
          (rest.head? = some '\n' → '\r' ∉ chars) :=
      fun chars hmem => htexts chars (List.mem_cons_of_mem part hmem)
    obtain ⟨hhead, htail⟩ := List.isChain_cons.1 hapart
    cases part with
    | text chars =>
      obtain ⟨hchars, hreturn⟩ := htexts chars List.mem_cons_self
      -- What follows a text is a hole, or the end of the value.
      have hfollows : ∃ next behind,
          unifyLineEnds ((ValuePart.pieces first parts).flatMap (Piece.rendered marker) ++ rest) =
            next :: behind ∧ IsStop next ∧
          (((ValuePart.pieces first parts).flatMap (Piece.rendered marker) ++ rest).head? =
            some '\n' → '\r' ∉ chars) := by
        cases parts with
        | nil => exact ⟨stop, more, hmore, hstop, hreturn⟩
        | cons part parts =>
          cases part with
          | text other => exact (hhead _ rfl).elim
          | mustache source =>
            refine ⟨marker, _, unifyLineEnds_cons (hmarker.ne (by decide)) _,
              isStop_of_isMarker hmarker, fun hnewline => ?_⟩
            exact absurd (Option.some.inj hnewline) (hmarker.ne (by decide))
      obtain ⟨next, behind, hunified, hnext, hcut⟩ := hfollows
      obtain ⟨line, hline⟩ := run_valueText hnext behind (Nat.zero_le _) hstate hchars
      obtain ⟨last, hlast⟩ := ih (m := { m with
        line, value := (valueText chars).reverse ++ m.value }) hrest htail hstate first
      refine ⟨last, ?_⟩
      have hfirst : Leads m (chars ++ ((ValuePart.pieces first parts).flatMap
          (Piece.rendered marker) ++ rest))
          { m with line, value := (valueText chars).reverse ++ m.value }
          ((ValuePart.pieces first parts).flatMap (Piece.rendered marker) ++ rest) := by
        rw [Leads, unifyLineEnds_append hcut, hunified, hline]
        rfl
      have hall := hfirst.trans hlast
      simpa [ValuePart.pieces, Piece.rendered, Piece.decoded] using hall
    | mustache source =>
      have hhole := fun c (hc : c ∈ placeholderText marker first) =>
        isInValue_of_mem_placeholderText hmarker hquote hc
      obtain ⟨line, hlexes⟩ := lexes_verbatim hstate
        fun c hc => ⟨(hhole c hc).1, (hhole c hc).2.1, (hhole c hc).2.2.1⟩
      obtain ⟨last, hlast⟩ := ih (m := { m with
        line, value := (placeholderText marker first).reverse ++ m.value }) hrest htail hstate
          (first + 1)
      refine ⟨last, ?_⟩
      have hfirst := leads_of_lexes hlexes (fun hmem => (hhole _ hmem).2.2.2 rfl)
        ((ValuePart.pieces (first + 1) parts).flatMap (Piece.rendered marker) ++ rest)
      have hall := hfirst.trans hlast
      simpa [ValuePart.pieces, Piece.rendered, Piece.decoded] using hall

theorem isInValue_of_isValueChar {c : Char} (h : isValueChar none c = true) :
    IsInValue none c ∧ c ≠ '"' ∧ c ≠ '\'' ∧ Text.isBlank c = false := by
  simp only [isValueChar, Bool.and_eq_true, Bool.not_eq_true', List.contains_eq_mem,
    decide_eq_false_iff_not, List.mem_cons, not_or] at h
  obtain ⟨hblank, hdouble, hsingle, -, hgreater, -⟩ := h
  exact ⟨⟨(Option.some_ne_none c).symm,
    fun _ => ⟨(isMarkupBlank_of_isBlank hblank).1, hgreater⟩⟩, hdouble, hsingle, hblank⟩

theorem isInValue_of_mem_unifyLineEnds {quote : Option Char}
    (hquote : ∀ q ∈ quote, q = '"' ∨ q = '\'') {chars : List Char}
    (h : ∀ c ∈ chars, isValueChar quote c = true) {c : Char} (hc : c ∈ unifyLineEnds chars) :
    IsInValue quote c := by
  cases quote with
  | some q =>
    refine ⟨fun heq => ?_, nofun⟩
    cases heq
    rcases mem_of_mem_unifyLineEnds hc with rfl | hmem
    · rcases hquote _ rfl with heq | heq <;> cases heq
    · exact bne_iff_ne.1 (h c hmem) rfl
  | none =>
    have hreturn : '\r' ∉ chars :=
      not_mem_return_of_isBlank fun d hd => (isInValue_of_isValueChar (h d hd)).2.2.2
    rw [unifyLineEnds_of_forall fun d hd heq => hreturn (heq ▸ hd)] at hc
    exact (isInValue_of_isValueChar (h c hc)).1

theorem leads_unquoted (hstate : m.state = .beforeValue) {c : Char} (hc : IsInValue none c)
    (hdouble : c ≠ '"') (hsingle : c ≠ '\'') (hblank : Text.isBlank c = false) (cs : List Char) :
    Leads m (c :: cs) (m.goTo (.value none)) (c :: cs) := by
  obtain ⟨hmarkup, hnewline, hreturn⟩ := isMarkupBlank_of_isBlank hblank
  have hstep : ∀ rest, step m c rest = step (m.goTo (.value none)) c rest := by
    intro rest
    rw [step, hstate]
    show stepBeforeValue m c rest = stepValue none (m.goTo (.value none)) c rest
    rw [stepBeforeValue, if_neg (by simp [hmarkup]), if_neg (by simp [hdouble, hsingle]),
      if_neg (hc.2 rfl).2]
    rfl
  rw [Leads, unifyLineEnds_cons hreturn, run, run, countLine_of_ne hnewline,
    countLine_of_ne hnewline, hstep]

theorem isStop_of_quote {q : Char} (h : q = '"' ∨ q = '\'') : IsStop q := by
  rcases h with rfl | rfl <;> decide

theorem exists_cons_of_isWritten (hmarker : IsMarker marker) {written : SourceValue}
    (hwritten : written.IsWritten) (hquote : written.quote = none) (first : Nat) :
    ∃ c cs, (ValuePart.pieces first written.parts).flatMap (Piece.rendered marker) = c :: cs ∧
      IsInValue none c ∧ c ≠ '"' ∧ c ≠ '\'' ∧ Text.isBlank c = false := by
  have htexts := hwritten.texts
  rw [hquote] at htexts
  obtain ⟨part, parts, hparts⟩ := List.exists_cons_of_ne_nil (hwritten.nonempty hquote)
  rw [hparts] at htexts ⊢
  cases part with
  | text chars =>
    obtain ⟨hne, -, hchars⟩ := htexts chars List.mem_cons_self
    obtain ⟨c, cs, rfl⟩ := List.exists_cons_of_ne_nil hne
    exact ⟨c, _, rfl, isInValue_of_isValueChar (hchars c List.mem_cons_self)⟩
  | mustache source =>
    have hmem : marker ∈ placeholderText marker first := List.mem_cons_self
    exact ⟨marker, _, rfl, (isInValue_of_mem_placeholderText hmarker (by simp) hmem).1,
      hmarker.ne (by decide), hmarker.ne (by decide), isBlank_of_isMarker hmarker⟩

theorem InAttribute.leads_parts (hmarker : IsMarker marker)
    (hm : InAttribute m text name attributes key []) {quote : Option Char}
    (hquote : ∀ q ∈ quote, q = '"' ∨ q = '\'') {stop : Char} (hstop : IsStop stop)
    {rest more : List Char} (hmore : unifyLineEnds rest = stop :: more) {parts : List ValuePart}
    (htexts : ∀ chars, .text chars ∈ parts → (∀ c ∈ chars, isValueChar quote c = true) ∧
      (rest.head? = some '\n' → '\r' ∉ chars))
    (hapart : parts.IsChain ValuePart.Apart) (hstate : m.state = .value quote) (first : Nat) :
    ∃ m', Leads m ((ValuePart.pieces first parts).flatMap (Piece.rendered marker) ++ rest) m' rest ∧
      m'.state = .value quote ∧ InAttribute m' text name attributes key
        (((ValuePart.pieces first parts).map Piece.decoded).flatMap (Piece.rendered marker)) := by
  obtain ⟨line, hleads⟩ := leads_values hmarker hquote hstop hmore
    (fun chars hchars => ⟨fun c hc =>
      isInValue_of_mem_unifyLineEnds hquote (htexts chars hchars).1 hc, (htexts chars hchars).2⟩)
    hapart hstate first
  have hvalue : m.value = [] := List.reverse_eq_nil_iff.1 hm.value
  refine ⟨_, hleads, hstate, hm.text, hm.isEndTag, hm.name, hm.attributes, hm.selfClosing, hm.key,
    ?_⟩
  simp [hvalue]

/-- A value between quotes. -/
theorem InAttribute.leads_quoted (hmarker : IsMarker marker)
    (hm : InAttribute m text name attributes key []) (hstate : m.state = .beforeValue) {q : Char}
    (hq : q = '"' ∨ q = '\'') {parts : List ValuePart}
    (htexts : ∀ chars, .text chars ∈ parts → ∀ c ∈ chars, isValueChar (some q) c = true)
    (hapart : parts.IsChain ValuePart.Apart) (first : Nat) (rest : List Char) :
    ∃ m', Leads m (q :: ((ValuePart.pieces first parts).flatMap (Piece.rendered marker) ++
        q :: rest)) m' rest ∧ m'.state = .afterValue ∧
      InAttribute m' text name attributes key
        (((ValuePart.pieces first parts).map Piece.decoded).flatMap (Piece.rendered marker)) := by
  have hquote : ∀ d ∈ some q, d = '"' ∨ d = '\'' := by
    rintro d ⟨⟩
    exact hq
  have hnewline : q ≠ '\n' := by rcases hq with rfl | rfl <;> decide
  have hreturn : q ≠ '\r' := by rcases hq with rfl | rfl <;> decide
  have hopen : Lexes [q] m [] (m.goTo (.value (some q))) := by
    refine lexes_of_step fun rest => ?_
    rw [countLine_of_ne hnewline, step, hstate]
    rcases hq with rfl | rfl <;> rfl
  obtain ⟨middle, hparts, hmiddle, hin⟩ := (hm.goTo (.value (some q))).leads_parts hmarker hquote
    (isStop_of_quote hq) (unifyLineEnds_cons hreturn rest)
    (fun chars hchars => ⟨htexts chars hchars, fun heq => absurd (Option.some.inj heq) hnewline⟩)
    hapart rfl first
  have hclose : Lexes [q] middle [] (middle.goTo .afterValue) := by
    refine lexes_of_step fun rest => ?_
    rw [countLine_of_ne hnewline, step, hmiddle]
    exact if_pos rfl
  have hends := (leads_of_lexes hopen (by simpa using hreturn.symm) _).trans (hparts.trans
    (leads_of_lexes hclose (by simpa using hreturn.symm) rest))
  exact ⟨_, hends, rfl, hin.goTo .afterValue⟩

/-- The value of an attribute, up to what no reference goes on with. -/
theorem InAttribute.leads_value (hmarker : IsMarker marker)
    (hm : InAttribute m text name attributes key []) (hstate : m.state = .beforeValue)
    {written : SourceValue} (hwritten : written.IsWritten) (first : Nat) {stop : Char}
    (hstop : IsStop stop) {rest more : List Char} (hmore : unifyLineEnds rest = stop :: more) :
    ∃ m', Leads m (written.markup marker first ++ rest) m' rest ∧
      m'.state = (if written.mark.isSome then .afterValue else .value none) ∧
      InAttribute m' text name attributes key (written.decoded marker first) := by
  have htexts := fun chars hchars => (hwritten.texts chars hchars).2.2
  cases hmark : written.mark with
  | some q =>
    have hmarked : ∀ chars, .text chars ∈ written.parts →
        ∀ c ∈ chars, isValueChar (some q) c = true := by
      rw [SourceValue.mark] at hmark
      split at hmark
      · next hlone =>
        intro chars hchars
        obtain ⟨source, hsome⟩ := Option.isSome_iff_exists.1 hlone
        rw [(SourceValue.lone?_eq_some hsome).2] at hchars
        simp at hchars
      · rw [hmark] at htexts
        exact htexts
    obtain ⟨m', hleads, hstate', hm'⟩ :=
      hm.leads_quoted hmarker hstate (hwritten.mark hmark) hmarked hwritten.apart first rest
    refine ⟨m', ?_, hstate', hm'⟩
    rw [SourceValue.markup, hmark]
    simpa using hleads
  | none =>
    have hquote := (SourceValue.mark_eq_none hmark).1
    rw [hquote] at htexts
    have hreturn : ∀ chars, .text chars ∈ written.parts → '\r' ∉ chars := fun chars hchars =>
      not_mem_return_of_isBlank fun c hc =>
        (isInValue_of_isValueChar (htexts chars hchars c hc)).2.2.2
    obtain ⟨c, cs, hfirst, hc⟩ := exists_cons_of_isWritten hmarker hwritten hquote first
    obtain ⟨m', hparts, hstate', hm'⟩ := (hm.goTo (.value none)).leads_parts hmarker (by simp) hstop
      hmore (fun chars hchars => ⟨htexts chars hchars, fun _ => hreturn chars hchars⟩)
      hwritten.apart rfl first
    have hbegin : Leads m ((ValuePart.pieces first written.parts).flatMap (Piece.rendered marker) ++
        rest) (m.goTo (.value none)) ((ValuePart.pieces first written.parts).flatMap
          (Piece.rendered marker) ++ rest) := by
      rw [hfirst]
      exact leads_unquoted hstate hc.1 hc.2.1 hc.2.2.1 hc.2.2.2 (cs ++ rest)
    refine ⟨m', ?_, hstate', hm'⟩
    rw [SourceValue.markup, hmark]
    simpa using hbegin.trans hparts

end Markup.Lexer

end MustacheJsx
