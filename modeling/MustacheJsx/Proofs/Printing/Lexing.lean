import MustacheJsx.Markup.Lexer
import MustacheJsx.Proofs.Printing.Lifting

/-!
# Cutting the markup of a printed template into tokens

Between items the lexer is in text. A piece of a text only adds to the text that is pending; any
other item ends the text and gives one token. What an item means to the lexer is its `Item.signal`.
-/

namespace MustacheJsx

/-- The characters that markup keeps: it unifies line ends, and NUL is no character of it. -/
def isKept (c : Char) : Bool := c != '\r' && c != '\x00'

namespace Markup.Lexer

/-! ### Reading a stretch of markup -/

/-- Reading `source` gives the tokens and brings one machine to the other. -/
def Lexes (source : List Char) (m : Machine) (tokens : List Token) (m' : Machine) : Prop :=
  ∀ rest, run 0 m (source ++ rest) = tokens ++ run 0 m' rest

theorem lexes_nil (m : Machine) : Lexes [] m [] m := fun _ => rfl

theorem Lexes.append {xs ys : List Char} {m middle m' : Machine} {first second : List Token}
    (hx : Lexes xs m first middle) (hy : Lexes ys middle second m') :
    Lexes (xs ++ ys) m (first ++ second) m' := by
  intro rest
  rw [List.append_assoc, hx, hy, List.append_assoc]

theorem Lexes.cons {c : Char} {cs : List Char} {m middle m' : Machine} {tokens : List Token}
    (hc : Lexes [c] m [] middle) (hcs : Lexes cs middle tokens m') :
    Lexes (c :: cs) m tokens m' :=
  hc.append hcs

theorem run_skip (cs rest : List Char) (m : Machine) :
    run cs.length m (cs ++ rest) = run 0 m rest := by
  induction cs with
  | nil => rfl
  | cons c cs ih => rw [List.length_cons, List.cons_append, run_succ, ih]

theorem lexes_of_step {c : Char} {cs : List Char} {m m' : Machine} {tokens : List Token}
    (h : ∀ rest, step (countLine m c) c (cs ++ rest) = (m', tokens, cs.length)) :
    Lexes (c :: cs) m tokens m' := by
  intro rest
  rw [List.cons_append, run, h rest]
  exact congrArg (tokens ++ ·) (run_skip cs rest m')

theorem countLine_of_ne {m : Machine} {c : Char} (h : c ≠ '\n') : countLine m c = m := by
  rw [countLine, if_neg fun hc => h hc.1]

theorem exists_countLine_eq (m : Machine) (c : Char) : ∃ line, countLine m c = { m with line } := by
  rw [countLine]
  split
  · exact ⟨m.line + 1, rfl⟩
  · exact ⟨m.line, rfl⟩

/-! ### Text -/

/-- A character that stands for itself in text. -/
def IsTextual (c : Char) : Prop := c ≠ '<' ∧ c ≠ '&' ∧ isKept c = true

/-- A character that stands for itself in a value between double quotes. -/
def IsQuotable (c : Char) : Prop := c ≠ '"' ∧ c ≠ '&' ∧ isKept c = true

theorem visible_of_ne {c : Char} (h : c ≠ '\x00') : visible c = c := if_neg h

theorem visible_of_isKept {c : Char} (h : isKept c = true) : visible c = c := by
  simp only [isKept, Bool.and_eq_true, bne_iff_ne] at h
  exact visible_of_ne h.2

theorem map_visible {cs : List Char} (h : ∀ c ∈ cs, isKept c = true) : cs.map visible = cs :=
  (List.map_congr_left fun c hc => visible_of_isKept (h c hc)).trans (List.map_id cs)

/-- Content outside the comments of a script. -/
inductive IsOuter : Content → Prop where
  | markup : IsOuter .markup
  | reference : IsOuter .reference
  | plain : IsOuter .plain
  | script : IsOuter .script

def readsReferences : Content → Bool
  | .markup | .reference => true
  | _ => false

theorem IsOuter.stepText_char {content : Content} (h : IsOuter content) {c : Char}
    (hless : c ≠ '<') (hamp : ¬ (readsReferences content = true ∧ c = '&')) (m : Machine)
    (rest : List Char) : stepText content m c rest = keep (m.write [visible c]) := by
  rw [stepText.eq_def]
  split
  · exact absurd rfl hless
  · exact absurd ⟨rfl, rfl⟩ hamp
  · exact absurd ⟨rfl, rfl⟩ hamp
  · exact absurd rfl hless
  · exact absurd rfl hless
  · cases h
  · cases h
  · rfl

theorem lexes_textual {content : Content} (hcontent : IsOuter content) {m : Machine}
    (hm : m.state = .text content) {chars : List Char} (h : ∀ c ∈ chars, IsTextual c) :
    ∃ line, Lexes chars m [] (({ m with line } : Machine).write chars) := by
  induction chars generalizing m with
  | nil => exact ⟨m.line, lexes_nil m⟩
  | cons c chars ih =>
    obtain ⟨hless, hamp, hkept⟩ := h c List.mem_cons_self
    obtain ⟨line, hline⟩ := exists_countLine_eq m c
    have hstep : Lexes [c] m [] (({ m with line } : Machine).write [c]) := by
      refine lexes_of_step fun rest => ?_
      rw [hline, step, show ({ m with line } : Machine).state = _ from hm]
      show stepText content _ c _ = _
      rw [hcontent.stepText_char hless fun h => hamp h.2, visible_of_isKept hkept]
      rfl
    obtain ⟨last, hrest⟩ := @ih (({ m with line } : Machine).write [c]) hm
      fun d hd => h d (List.mem_cons_of_mem _ hd)
    refine ⟨last, ?_⟩
    have hall := hstep.cons hrest
    simpa [Machine.write] using hall

/-- The machine is in text, and `chars` is the text that is pending. -/
structure InText (m : Machine) (chars : List Char) : Prop where
  state : m.state = .text .markup
  key : m.key = []
  text : m.text.reverse = chars

theorem InText.lexes_text {m : Machine} {before chars : List Char} (hm : InText m before)
    (h : ∀ c ∈ chars, IsTextual c) :
    ∃ m', Lexes chars m [] m' ∧ InText m' (before ++ chars) := by
  obtain ⟨line, hlexes⟩ := lexes_textual .markup hm.state h
  refine ⟨_, hlexes, hm.state, hm.key, ?_⟩
  simp [Machine.write, hm.text]

def textTokens (chars : List Char) : List Token := if chars.isEmpty then [] else [.text chars]

theorem pending_eq_textTokens {m : Machine} {text : List Char} (h : m.text.reverse = text) :
    m.pending = textTokens text := by
  rw [Machine.pending, textTokens, h]
  cases htext : m.text with
  | nil =>
    rw [htext] at h
    rw [← h]
    rfl
  | cons c cs =>
    rw [htext] at h
    have hne : text.isEmpty = false := by
      rw [← h]
      simp
    rw [hne]
    rfl

/-! ### Names -/

/-- A character that stands for itself in the name of a tag or an attribute. -/
structure IsNamed (c : Char) : Prop where
  blank : Text.isMarkupBlank c = false
  slash : c ≠ '/'
  greater : c ≠ '>'
  equals : c ≠ '='
  small : Text.lowerAscii (visible c) = c

theorem IsNamed.ne_newline {c : Char} (h : IsNamed c) : c ≠ '\n' := by
  rintro rfl
  exact absurd h.blank (by decide)

theorem lowerAscii_of_not_upper {c : Char} (h : Text.isAsciiUpper c = false) :
    Text.lowerAscii c = c := by
  simp only [Text.isAsciiUpper, Bool.and_eq_false_iff, decide_eq_false_iff_not, Char.le_def,
    UInt32.le_iff_toNat_le] at h
  rw [Text.lowerAscii]
  delta Char.toLower
  rw [dif_neg]
  intro hrange
  have hlow : 65 ≤ c.val.toNat := hrange.1
  have hhigh : c.val.toNat ≤ 90 := hrange.2
  rcases h with h | h
  · exact h hlow
  · exact h hhigh

theorem lowerAscii_of_isSmall {c : Char} (h : Lifting.IsSmall c) : Text.lowerAscii c = c :=
  lowerAscii_of_not_upper h.upper

theorem isNamed_of_isSmall {c : Char} (h : Lifting.IsSmall c) : IsNamed c := by
  have hname := h.name
  have hne : ∀ d, isNameChar d = false → c ≠ d := fun d hd => ne_of_isNameChar hname hd
  refine ⟨?_, hne '/' (by decide), hne '>' (by decide), hne '=' (by decide), ?_⟩
  · simp [Text.isMarkupBlank, hne ' ' (by decide), hne '\t' (by decide), hne '\n' (by decide),
      hne '\x0c' (by decide)]
  · rw [visible_of_ne (hne '\x00' (by decide)), lowerAscii_of_isSmall h]

theorem isNamed_dash : IsNamed '-' :=
  ⟨by decide, by decide, by decide, by decide, by decide⟩

/-- A name begins with a small letter and goes on with characters of names. -/
structure IsName (name : List Char) : Prop where
  head : ∃ c cs, name = c :: cs ∧ Lifting.IsSmall c
  chars : ∀ c ∈ name, IsNamed c

theorem isName_of_isSmallName {name : String} (h : isSmallName name = true) :
    IsName name.toList := by
  obtain ⟨hne, hsmall⟩ := Lifting.small_chars h
  refine ⟨?_, fun c hc => isNamed_of_isSmall (hsmall c hc)⟩
  cases hname : name.toList with
  | nil => exact absurd hname hne
  | cons c cs => exact ⟨c, cs, rfl, hsmall c (by simp [hname])⟩

/-! ### Opening a tag -/

/-- The machine is in the name of a tag, and may go on with an attribute or with the end. -/
structure InTag (m : Machine) (text : List Char) (isEndTag : Bool) (name : List Char)
    (attributes : List (String × String)) : Prop where
  state : m.state = .tagName ∨ m.state = .afterValue
  text : m.text.reverse = text
  isEndTag : m.isEndTag = isEndTag
  name : m.name.reverse = name
  attributes : m.endAttribute.attributes.reverse = attributes
  selfClosing : m.isSelfClosing = false

theorem letter?_of_isAsciiLetter {c : Char} (h : Text.isAsciiLetter c = true) :
    letter? c = some (Text.lowerAscii c) := if_pos h

theorem ne_of_isAsciiLetter {c d : Char} (h : Text.isAsciiLetter c = true)
    (hd : Text.isAsciiLetter d = false) : c ≠ d := by
  rintro rfl
  rw [h] at hd
  cases hd

theorem lexes_less {m : Machine} {text : List Char} (hm : InText m text) :
    Lexes ['<'] m [] (m.goTo .tagOpen) := by
  refine lexes_of_step fun rest => ?_
  rw [countLine_of_ne (by decide), step, hm.state]
  rfl

def namingTag (m : Machine) (isEndTag : Bool) (c : Char) : Machine :=
  let opened := m.goTo .tagOpen
  ((if isEndTag then opened.goTo .endTagOpen else opened).beginTag isEndTag
    (Text.lowerAscii c)).goTo .tagName

theorem InText.lexes_startLetter {m : Machine} {text : List Char} (hm : InText m text) {c : Char}
    (hc : Text.isAsciiLetter c = true) : Lexes ['<', c] m [] (namingTag m false c) := by
  refine (lexes_less hm).cons (lexes_of_step fun rest => ?_)
  rw [countLine_of_ne (ne_of_isAsciiLetter hc (by decide)), step]
  show stepTagOpen (m.goTo .tagOpen) c ([] ++ rest) = _
  rw [stepTagOpen.eq_def]
  split
  · exact absurd rfl (ne_of_isAsciiLetter (d := '!') hc (by decide))
  · exact absurd rfl (ne_of_isAsciiLetter (d := '/') hc (by decide))
  · exact absurd rfl (ne_of_isAsciiLetter (d := '?') hc (by decide))
  · rw [letter?_of_isAsciiLetter hc]
    rfl

theorem InText.lexes_endLetter {m : Machine} {text : List Char} (hm : InText m text) {c : Char}
    (hc : Text.isAsciiLetter c = true) : Lexes ['<', '/', c] m [] (namingTag m true c) := by
  have hslash : Lexes ['/'] (m.goTo .tagOpen) [] ((m.goTo .tagOpen).goTo .endTagOpen) := by
    refine lexes_of_step fun rest => ?_
    rw [countLine_of_ne (by decide), step]
    rfl
  refine (lexes_less hm).cons (hslash.cons (lexes_of_step fun rest => ?_))
  rw [countLine_of_ne (ne_of_isAsciiLetter hc (by decide)), step]
  show stepEndTagOpen ((m.goTo .tagOpen).goTo .endTagOpen) c = _
  rw [stepEndTagOpen, letter?_of_isAsciiLetter hc]
  rfl

theorem lexes_nameChar {m : Machine} (hstate : m.state = .tagName) {c : Char}
    (hblank : Text.isMarkupBlank c = false) (hslash : c ≠ '/') (hgreater : c ≠ '>') :
    Lexes [c] m [] { m with name := Text.lowerAscii (visible c) :: m.name } := by
  have hline : c ≠ '\n' := by
    rintro rfl
    exact absurd hblank (by decide)
  refine lexes_of_step fun rest => ?_
  rw [countLine_of_ne hline, step, hstate]
  simp [stepTagName, hblank, hslash, hgreater, keep, hstate]

theorem endAttribute_of_key_eq_nil {m : Machine} (h : m.key = []) :
    m.endAttribute.attributes = m.attributes := by
  simp [Machine.endAttribute, h]

theorem attributes_namingTag {m : Machine} (h : m.key = []) (isEndTag : Bool) (c : Char) :
    (namingTag m isEndTag c).endAttribute.attributes = [] := by
  have hkey : (namingTag m isEndTag c).key = [] := by cases isEndTag <;> exact h
  rw [endAttribute_of_key_eq_nil hkey]
  rfl

theorem lexes_tagName {m : Machine} {text name : List Char} {isEndTag : Bool}
    (hm : InTag m text isEndTag name []) (hstate : m.state = .tagName) {letters : List Char}
    (hletters : ∀ c ∈ letters, IsNamed c) :
    ∃ m', Lexes letters m [] m' ∧ m'.state = .tagName ∧
      InTag m' text isEndTag (name ++ letters) [] := by
  induction letters generalizing m name with
  | nil => exact ⟨m, lexes_nil m, hstate, by rwa [List.append_nil]⟩
  | cons c letters ih =>
    have hc := hletters c List.mem_cons_self
    have hstep := lexes_nameChar hstate hc.blank hc.slash hc.greater
    rw [hc.small] at hstep
    have hnamed : InTag { m with name := c :: m.name } text isEndTag (name ++ [c]) [] := by
      refine ⟨hm.state, hm.text, hm.isEndTag, ?_, hm.attributes, hm.selfClosing⟩
      simp [hm.name]
    obtain ⟨m', hlexes, hstate', hm'⟩ :=
      ih hnamed hstate fun d hd => hletters d (List.mem_cons_of_mem _ hd)
    refine ⟨m', hstep.cons hlexes, hstate', ?_⟩
    rwa [List.append_assoc] at hm'

theorem lexes_openTag {m : Machine} {text name : List Char} (hm : InText m text)
    (hname : IsName name) :
    ∃ m', Lexes ('<' :: name) m [] m' ∧ m'.state = .tagName ∧ InTag m' text false name [] := by
  obtain ⟨c, cs, rfl, hc⟩ := hname.head
  have hletter := hm.lexes_startLetter hc.letter
  have hopen : InTag (namingTag m false c) text false [c] [] := by
    refine ⟨Or.inl rfl, hm.text, rfl, ?_, ?_, rfl⟩
    · exact congrArg (· :: []) (lowerAscii_of_isSmall hc)
    · rw [attributes_namingTag hm.key]
      rfl
  have hletters : ∀ d ∈ cs, IsNamed d := fun d hd => hname.chars d (List.mem_cons_of_mem _ hd)
  obtain ⟨m', hlexes, hstate, hm'⟩ := lexes_tagName hopen rfl hletters
  exact ⟨m', hletter.append hlexes, hstate, hm'⟩

/-! ### Attributes -/

/-- The machine is in the name of an attribute. -/
structure InKey (m : Machine) (text : List Char) (name : List Char)
    (attributes : List (String × String)) (key : List Char) : Prop where
  state : m.state = .attributeName
  text : m.text.reverse = text
  isEndTag : m.isEndTag = false
  name : m.name.reverse = name
  attributes : m.attributes.reverse = attributes
  selfClosing : m.isSelfClosing = false
  key : m.key.reverse = key
  value : m.value = []

theorem InTag.lexes_blank {m : Machine} {text name : List Char} {isEndTag : Bool}
    {attributes : List (String × String)} (hm : InTag m text isEndTag name attributes) :
    Lexes [' '] m [] (m.goTo .beforeAttribute) := by
  refine lexes_of_step fun rest => ?_
  rw [countLine_of_ne (by decide), step]
  rcases hm.state with hstate | hstate
  · rw [hstate]
    rfl
  · rw [hstate]
    rfl

theorem InTag.lexes_key {m : Machine} {text name : List Char}
    {attributes : List (String × String)} (hm : InTag m text false name attributes)
    {key : List Char} (hkey : IsName key) :
    ∃ m', Lexes (' ' :: key) m [] m' ∧ InKey m' text name attributes key := by
  have hletters : ∀ {n : Machine} {before letters : List Char},
      InKey n text name attributes before → (∀ c ∈ letters, IsNamed c) →
      ∃ n', Lexes letters n [] n' ∧ InKey n' text name attributes (before ++ letters) := by
    intro n before letters hn h
    induction letters generalizing n before with
    | nil => exact ⟨n, lexes_nil n, by rwa [List.append_nil]⟩
    | cons c letters ih =>
      have hc := h c List.mem_cons_self
      have hstep : Lexes [c] n [] { n with key := c :: n.key } := by
        refine lexes_of_step fun rest => ?_
        rw [countLine_of_ne hc.ne_newline, step, hn.state]
        simp [stepAttributeName, hc.blank, hc.slash, hc.greater, hc.equals, hc.small, keep,
          hn.state]
      have hkeyed : InKey { n with key := c :: n.key } text name attributes (before ++ [c]) := by
        refine ⟨hn.state, hn.text, hn.isEndTag, hn.name, hn.attributes, hn.selfClosing, ?_,
          hn.value⟩
        simp [hn.key]
      obtain ⟨n', hlexes, hn'⟩ := ih hkeyed fun d hd => h d (List.mem_cons_of_mem _ hd)
      refine ⟨n', hstep.cons hlexes, ?_⟩
      rwa [List.append_assoc] at hn'
  obtain ⟨c, cs, rfl, -⟩ := hkey.head
  have hc := hkey.chars c List.mem_cons_self
  have hfirst : Lexes [c] (m.goTo .beforeAttribute) []
      ((m.goTo .beforeAttribute).beginAttribute c) := by
    refine lexes_of_step fun rest => ?_
    rw [countLine_of_ne hc.ne_newline, step]
    show stepBeforeAttribute (m.goTo .beforeAttribute) c = _
    simp [stepBeforeAttribute, hc.blank, hc.slash, hc.greater, hc.small, keep]
  have hbegun : InKey ((m.goTo .beforeAttribute).beginAttribute c) text name attributes [c] :=
    ⟨rfl, hm.text, hm.isEndTag, hm.name, hm.attributes, hm.selfClosing, rfl, rfl⟩
  obtain ⟨m', hlexes, hm'⟩ := hletters hbegun fun d hd => hkey.chars d (List.mem_cons_of_mem _ hd)
  exact ⟨m', hm.lexes_blank.cons (hfirst.cons hlexes), hm'⟩

theorem lexes_value {m : Machine} (hm : m.state = .value (some '"')) {chars : List Char}
    (h : ∀ c ∈ chars, IsQuotable c) :
    ∃ line, Lexes chars m [] { m with line, value := chars.reverse ++ m.value } := by
  induction chars generalizing m with
  | nil => exact ⟨m.line, lexes_nil m⟩
  | cons c chars ih =>
    obtain ⟨hquote, hamp, hkept⟩ := h c List.mem_cons_self
    obtain ⟨line, hline⟩ := exists_countLine_eq m c
    have hstep : Lexes [c] m [] { m with line, value := c :: m.value } := by
      refine lexes_of_step fun rest => ?_
      rw [hline, step, show ({ m with line } : Machine).state = _ from hm]
      simp [stepValue, stepValueChar, Machine.goTo, hquote, hamp, visible_of_isKept hkept, keep]
    obtain ⟨last, hlexes⟩ := ih (m := { m with line, value := c :: m.value }) hm
      fun d hd => h d (List.mem_cons_of_mem _ hd)
    refine ⟨last, ?_⟩
    have hall := hstep.cons hlexes
    simpa only [List.reverse_cons, List.append_assoc, List.singleton_append] using hall

theorem InTag.lexes_attribute {m : Machine} {text name : List Char}
    {attributes : List (String × String)} (hm : InTag m text false name attributes)
    {key value : List Char} (hkey : IsName key) (hvalue : ∀ c ∈ value, IsQuotable c)
    (hnew : ∀ entry ∈ attributes, entry.1 ≠ String.ofList key) :
    ∃ m', Lexes (' ' :: (key ++ '=' :: '"' :: (value ++ ['"']))) m [] m' ∧
      InTag m' text false name (attributes ++ [(String.ofList key, String.ofList value)]) := by
  obtain ⟨first, hfirst, hin⟩ := hm.lexes_key hkey
  have hequals : Lexes ['='] first [] (first.goTo .beforeValue) := by
    refine lexes_of_step fun rest => ?_
    rw [countLine_of_ne (by decide), step, hin.state]
    rfl
  have hopen : Lexes ['"'] (first.goTo .beforeValue) []
      ((first.goTo .beforeValue).goTo (.value (some '"'))) := by
    refine lexes_of_step fun rest => ?_
    rw [countLine_of_ne (by decide), step]
    rfl
  obtain ⟨line, hlexes⟩ := lexes_value (m := (first.goTo .beforeValue).goTo (.value (some '"')))
    rfl hvalue
  have hclose : Lexes ['"'] { (first.goTo .beforeValue).goTo (.value (some '"')) with
      line, value := value.reverse ++ first.value } []
      { first with state := .afterValue, line, value := value.reverse ++ first.value } := by
    refine lexes_of_step fun rest => ?_
    rw [countLine_of_ne (by decide), step]
    rfl
  have hname : String.ofList first.key.reverse = String.ofList key := by rw [hin.key]
  have hfresh : first.attributes.any (fun entry => entry.1 == String.ofList first.key.reverse) =
      false := by
    rw [hname]
    simp only [List.any_eq_false, beq_iff_eq]
    intro entry hentry
    refine hnew entry ?_
    rw [← hin.attributes]
    exact List.mem_reverse.2 hentry
  have hsome : first.key.isEmpty = false := by
    obtain ⟨c, cs, hc, -⟩ := hkey.head
    have hreverse := hin.key
    rw [hc] at hreverse
    cases hfirst : first.key with
    | nil =>
      rw [hfirst] at hreverse
      cases hreverse
    | cons d ds => rfl
  refine ⟨_, hfirst.append (hequals.cons (hopen.cons (hlexes.append hclose))), ?_⟩
  refine ⟨Or.inr rfl, hin.text, hin.isEndTag, hin.name, ?_, hin.selfClosing⟩
  simp only [Machine.endAttribute]
  rw [hsome, hfresh, hname, hin.value]
  simp [hin.attributes]

/-! ### The end of a tag -/

/-- The machine has read a start tag, and goes on with the content of the element. -/
structure HasOpened (m : Machine) (selfClosing : Bool) (name : String) : Prop where
  state : m.state = .text (if selfClosing then .markup else contentOf name)
  key : m.key = []
  text : m.text = []
  opened : m.opened = name

theorem HasOpened.inText {m : Machine} {selfClosing : Bool} {name : String}
    (h : HasOpened m selfClosing name) (hmarkup : contentOf name = .markup) : InText m [] where
  state := by rw [h.state, hmarkup, ite_self]
  key := h.key
  text := by rw [h.text, List.reverse_nil]

theorem endTag_start {m : Machine} {text name : List Char} {attributes : List (String × String)}
    (htext : m.text.reverse = text) (hstart : m.isEndTag = false) (hname : m.name.reverse = name)
    (hattributes : m.endAttribute.attributes.reverse = attributes) :
    ∃ m', m.endTag = (m', textTokens text ++ [.startTag
        { name := String.ofList name, attributes, selfClosing := m.isSelfClosing } m.line]) ∧
      HasOpened m' m.isSelfClosing (String.ofList name) := by
  have hpending : m.endAttribute.pending = textTokens text := pending_eq_textTokens htext
  have hend : m.endAttribute.isEndTag = false := hstart
  have hread : m.endAttribute.name.reverse = name := hname
  rw [Machine.endTag]
  simp only [hend, hread, hattributes, hpending]
  exact ⟨_, rfl, rfl, rfl, rfl, rfl⟩

/-- The end of a start tag gives its token, after the text before it, where the machine takes the
characters of the end for what they are. -/
theorem lexes_startTagEnd {m : Machine} {text name : List Char}
    {attributes : List (String × String)} (htext : m.text.reverse = text)
    (hstart : m.isEndTag = false) (hname : m.name.reverse = name)
    (hattributes : m.endAttribute.attributes.reverse = attributes)
    (hmark : m.isSelfClosing = false) (hgreater : ∀ rest, step m '>' rest = finish m.endTag)
    {selfClosing : Bool}
    (hslash : selfClosing = true → ∀ rest, step m '/' rest = keep (m.goTo .selfClosing)) :
    ∃ m', Lexes (tagEnd selfClosing) m (textTokens text ++
        [.startTag { name := String.ofList name, attributes, selfClosing } m.line]) m' ∧
      HasOpened m' selfClosing (String.ofList name) := by
  cases selfClosing with
  | false =>
    obtain ⟨m', hend, hm'⟩ := endTag_start htext hstart hname hattributes
    rw [hmark] at hend hm'
    refine ⟨m', lexes_of_step fun rest => ?_, hm'⟩
    rw [countLine_of_ne (by decide), hgreater, hend]
    rfl
  | true =>
    obtain ⟨m', hend, hm'⟩ := endTag_start
      (m := { m.goTo .selfClosing with isSelfClosing := true }) htext hstart hname hattributes
    have hfirst : Lexes ['/'] m [] (m.goTo .selfClosing) := by
      refine lexes_of_step fun rest => ?_
      rw [countLine_of_ne (by decide), hslash rfl]
      rfl
    have hlast : Lexes ['>'] (m.goTo .selfClosing) (textTokens text ++
        [.startTag { name := String.ofList name, attributes, selfClosing := true } m.line]) m' := by
      refine lexes_of_step fun rest => ?_
      rw [countLine_of_ne (by decide), step]
      show finish ({ m.goTo .selfClosing with isSelfClosing := true } : Machine).endTag = _
      rw [hend]
      rfl
    exact ⟨m', hfirst.cons hlast, hm'⟩

/-- The end of an end tag gives its token, after the text before it. -/
theorem lexes_endTagEnd {m : Machine} {text name : List Char} (htext : m.text.reverse = text)
    (hend : m.isEndTag = true) (hname : m.name.reverse = name)
    (hgreater : ∀ rest, step m '>' rest = finish m.endTag) :
    ∃ m', Lexes ['>'] m (textTokens text ++ [.endTag (String.ofList name) m.line]) m' ∧
      InText m' [] := by
  have hpending : m.endAttribute.pending = textTokens text := pending_eq_textTokens htext
  have hmark : m.endAttribute.isEndTag = true := hend
  have hread : m.endAttribute.name.reverse = name := hname
  refine ⟨{ m.endAttribute with state := .text .markup, text := [] }, ?_, rfl, rfl, rfl⟩
  refine lexes_of_step fun rest => ?_
  rw [countLine_of_ne (by decide), hgreater, Machine.endTag]
  simp only [hmark, hread, hpending]
  rfl

theorem step_greater_tagName {m : Machine} (hstate : m.state = .tagName) (rest : List Char) :
    step m '>' rest = finish m.endTag := by
  rw [step, hstate]
  rfl

/-- The end of a start tag behind its name or behind an attribute. -/
theorem InTag.lexes_tagEnd {m : Machine} {text name : List Char}
    {attributes : List (String × String)} (hm : InTag m text false name attributes)
    (hmarkup : contentOf (String.ofList name) = .markup) (selfClosing : Bool) :
    ∃ line m', Lexes (tagEnd selfClosing) m (textTokens text ++
        [.startTag { name := String.ofList name, attributes, selfClosing } line]) m' ∧
      InText m' [] := by
  have hgreater : ∀ rest, step m '>' rest = finish m.endTag := by
    intro rest
    rcases hm.state with hstate | hstate
    · exact step_greater_tagName hstate rest
    · rw [step, hstate]
      rfl
  have hslash : ∀ rest, step m '/' rest = keep (m.goTo .selfClosing) := by
    intro rest
    rw [step]
    rcases hm.state with hstate | hstate
    · rw [hstate]
      rfl
    · rw [hstate]
      rfl
  obtain ⟨m', hend, hm'⟩ := lexes_startTagEnd hm.text hm.isEndTag hm.name hm.attributes
    hm.selfClosing hgreater fun _ => hslash
  exact ⟨m.line, m', hend, hm'.inText hmarkup⟩

theorem InText.lexes_endTag {m : Machine} {text name : List Char} (hm : InText m text)
    (hname : IsName name) :
    ∃ line m', Lexes ('<' :: '/' :: (name ++ ['>'])) m
        (textTokens text ++ [.endTag (String.ofList name) line]) m' ∧ InText m' [] := by
  obtain ⟨c, cs, rfl, hc⟩ := hname.head
  have hletter := hm.lexes_endLetter hc.letter
  have hopen : InTag (namingTag m true c) text true [c] [] := by
    refine ⟨Or.inl rfl, hm.text, rfl, ?_, ?_, rfl⟩
    · exact congrArg (· :: []) (lowerAscii_of_isSmall hc)
    · rw [attributes_namingTag hm.key]
      rfl
  have hletters : ∀ d ∈ cs, IsNamed d := fun d hd => hname.chars d (List.mem_cons_of_mem _ hd)
  obtain ⟨last, hlexes, hstate, hlast⟩ := lexes_tagName hopen rfl hletters
  obtain ⟨m', hend, hm'⟩ := lexes_endTagEnd hlast.text hlast.isEndTag hlast.name
    (step_greater_tagName hstate)
  exact ⟨last.line, m', hletter.append (hlexes.append hend), hm'⟩

/-! ### Comments -/

/-- The text of a comment, in which no end of the comment begins. -/
structure IsCommentBody (value : List Char) : Prop where
  dashes : ¬ ['-', '-', '>'] <:+: '<' :: '!' :: '-' :: '-' :: (value ++ ['-', '-'])
  bang : ¬ ['-', '-', '!', '>'] <:+: value

/-- What `>` would end a comment after. The two dashes that open it may be those that end it. -/
def IsAtEnd (value : List Char) : Prop :=
  ['-', '-'] <:+ '-' :: '-' :: value ∨ ['-', '-', '!'] <:+ value

theorem IsCommentBody.not_isAtEnd {value : List Char} (h : IsCommentBody value)
    {first second : List Char} (hvalue : value = first ++ '>' :: second) : ¬ IsAtEnd first := by
  rintro (⟨before, hbefore⟩ | ⟨before, rfl⟩)
  · refine h.dashes ⟨'<' :: '!' :: before, second ++ ['-', '-'], ?_⟩
    have hopen : '<' :: '!' :: '-' :: '-' :: (value ++ ['-', '-']) =
        '<' :: '!' :: ('-' :: '-' :: first ++ ('>' :: second ++ ['-', '-'])) := by simp [hvalue]
    rw [hopen, ← hbefore]
    simp
  · exact h.bang ⟨before, second, by simp [hvalue]⟩

/-- In a comment, the characters that are noted and those that may begin its end. -/
inductive IsHeld : State → List Char → List Char → Prop where
  | start : IsHeld .commentStart [] []
  | startDash : IsHeld .commentStartDash [] ['-']
  | text {noted : List Char} : noted.getLast? ≠ some '-' → IsHeld .comment noted []
  | dash {noted : List Char} : noted.getLast? ≠ some '-' → IsHeld .commentEndDash noted ['-']
  | dashes (noted : List Char) : IsHeld .commentEnd noted ['-', '-']
  | bang (noted : List Char) : IsHeld .commentEndBang noted ['-', '-', '!']

/-- The machine is in a comment of which `value` is read. -/
structure InComment (m : Machine) (text value : List Char) : Prop where
  held : ∃ noted held, IsHeld m.state noted held ∧ value = noted ++ held ∧
    m.comment.reverse = noted.map visible
  key : m.key = []
  text : m.text.reverse = text

section

variable {m : Machine} {noted held text value : List Char}

theorem IsHeld.of_dashes {state : State} (h : IsHeld state noted held)
    (hvalue : value ++ ['-'] ++ ['-'] = noted ++ held) : state = .commentEnd ∧ noted = value := by
  cases h with
  | start => simp at hvalue
  | startDash =>
    have hlength := congrArg List.length hvalue
    simp at hlength
  | text hnoted =>
    rw [List.append_nil] at hvalue
    exact absurd (hvalue ▸ List.getLast?_concat) hnoted
  | dash hnoted =>
    have hdash : value ++ ['-'] = noted := List.append_cancel_right hvalue
    exact absurd (hdash ▸ List.getLast?_concat) hnoted
  | dashes noted =>
    have hdashes := (List.append_assoc value ['-'] ['-']).symm.trans hvalue
    exact ⟨rfl, (List.append_cancel_right hdashes).symm⟩
  | bang noted =>
    have hlast := congrArg List.getLast? hvalue
    simp at hlast

theorem IsHeld.step_dash (h : IsHeld m.state noted held) :
    ∃ next added left, (∀ rest, step m '-' rest = keep ((m.note (added.map visible)).goTo next)) ∧
      held ++ ['-'] = added ++ left ∧ IsHeld next (noted ++ added) left := by
  simp only [step]
  generalize hstate : m.state = state at h
  cases h with
  | start => exact ⟨_, [], _, fun _ => rfl, rfl, .startDash⟩
  | startDash => exact ⟨_, [], _, fun _ => rfl, rfl, .dashes []⟩
  | text hnoted => exact ⟨_, [], _, fun _ => rfl, rfl, .dash (by rwa [List.append_nil])⟩
  | dash hnoted => exact ⟨_, [], _, fun _ => rfl, rfl, .dashes _⟩
  | dashes noted =>
    refine ⟨m.state, ['-'], ['-', '-'], fun _ => rfl, rfl, ?_⟩
    rw [hstate]
    exact .dashes _
  | bang noted => exact ⟨_, ['-', '-', '!'], _, fun _ => rfl, rfl, .dash (by simp)⟩

/-- Any other character is text of the comment, with what may have begun an end before it. -/
theorem IsHeld.step_char (h : IsHeld m.state noted held) {c : Char} (hdash : c ≠ '-')
    (hbang : held = ['-', '-'] → c ≠ '!') (hend : c = '>' → ¬ IsAtEnd (noted ++ held))
    (rest : List Char) :
    step m c rest = keep ((m.note ((held ++ [c]).map visible)).goTo .comment) := by
  have hgreater : IsAtEnd (noted ++ held) → c ≠ '>' := fun hat heq => hend heq hat
  have hvisible : visible '-' = '-' ∧ visible '!' = '!' := by decide
  rw [step]
  generalize m.state = state at h
  cases h with
  | start =>
    have hgreater := hgreater (.inl ⟨[], rfl⟩)
    simp [hdash, hgreater]
  | startDash =>
    have hgreater := hgreater (.inl ⟨['-'], rfl⟩)
    simp [hdash, hgreater, stepComment, hvisible]
  | text hnoted => simp [hdash, stepComment]
  | dash hnoted => simp [hdash, stepComment, hvisible]
  | dashes noted =>
    have hgreater := hgreater (.inl ⟨'-' :: '-' :: noted, rfl⟩)
    simp [hdash, hbang rfl, hgreater, stepComment, hvisible]
  | bang noted =>
    have hgreater := hgreater (.inr ⟨noted, rfl⟩)
    simp [hdash, hgreater, stepComment, hvisible]

theorem IsHeld.step (h : IsHeld m.state noted held) {c : Char}
    (hend : c = '>' → ¬ IsAtEnd (noted ++ held)) :
    ∃ next added left, (∀ rest, step m c rest = keep ((m.note (added.map visible)).goTo next)) ∧
      held ++ [c] = added ++ left ∧ IsHeld next (noted ++ added) left := by
  by_cases hdash : c = '-'
  · subst hdash
    exact h.step_dash
  by_cases hbang : held = ['-', '-'] ∧ c = '!'
  · obtain ⟨rfl, rfl⟩ := hbang
    have hstate : m.state = .commentEnd := by
      generalize m.state = state at h
      cases h
      rfl
    refine ⟨.commentEndBang, [], ['-', '-', '!'], fun rest => ?_, rfl, .bang _⟩
    rw [Lexer.step, hstate]
    rfl
  · refine ⟨.comment, held ++ [c], [], fun rest => ?_, (List.append_nil _).symm, .text ?_⟩
    · exact h.step_char hdash (fun hheld hc => hbang ⟨hheld, hc⟩) hend rest
    · rw [← List.append_assoc, List.getLast?_concat]
      exact fun heq => hdash (Option.some.inj heq)

theorem InComment.lexes_char (hm : InComment m text value) {c : Char}
    (hend : c = '>' → ¬ IsAtEnd value) :
    ∃ m', Lexes [c] m [] m' ∧ InComment m' text (value ++ [c]) := by
  obtain ⟨noted, held, hheld, rfl, hnoted⟩ := hm.held
  obtain ⟨line, hline⟩ := exists_countLine_eq m c
  have hcounted : IsHeld ({ m with line } : Machine).state noted held := hheld
  obtain ⟨next, added, left, hstep, hsplit, hnext⟩ := hcounted.step hend
  refine ⟨(({ m with line } : Machine).note (added.map visible)).goTo next,
    lexes_of_step fun rest => ?_, ⟨noted ++ added, left, hnext, ?_, ?_⟩, hm.key, hm.text⟩
  · rw [hline, hstep]
    rfl
  · rw [List.append_assoc, hsplit, List.append_assoc]
  · simp [Machine.note, Machine.goTo, hnoted]

theorem InComment.lexes_body {before : List Char} (hm : InComment m text before)
    (hvalue : ∀ first second, value = first ++ '>' :: second → ¬ IsAtEnd (before ++ first)) :
    ∃ m', Lexes value m [] m' ∧ InComment m' text (before ++ value) := by
  induction value generalizing m before with
  | nil => exact ⟨m, lexes_nil m, by rwa [List.append_nil]⟩
  | cons c value ih =>
    obtain ⟨next, hchar, hnext⟩ := hm.lexes_char (c := c) fun hc => by
      have hat := hvalue [] value (by rw [hc]; rfl)
      rwa [List.append_nil] at hat
    obtain ⟨m', hlexes, hm'⟩ := ih hnext fun first second hsplit => by
      rw [List.append_assoc]
      exact hvalue (c :: first) second (by rw [hsplit]; rfl)
    exact ⟨m', hchar.cons hlexes, by rwa [List.append_assoc] at hm'⟩

theorem InComment.lexes_end (hm : InComment m text value) :
    ∃ m', Lexes ['-', '-', '>'] m (textTokens text ++ [.comment (value.map visible)]) m' ∧
      InText m' [] := by
  obtain ⟨first, hfirst, hm⟩ := hm.lexes_char (c := '-') nofun
  obtain ⟨second, hsecond, hm⟩ := hm.lexes_char (c := '-') nofun
  obtain ⟨noted, held, hheld, hvalue, hnoted⟩ := hm.held
  obtain ⟨hstate, rfl⟩ := hheld.of_dashes hvalue
  have hpending := pending_eq_textTokens (m := second) hm.text
  refine ⟨{ second with state := .text .markup, text := [], comment := [] },
    hfirst.cons (hsecond.cons (lexes_of_step fun rest => ?_)), rfl, hm.key, rfl⟩
  rw [countLine_of_ne (by decide), step, hstate]
  show finish second.endComment = _
  rw [Machine.endComment, hpending, hnoted]
  rfl

theorem InText.lexes_comment (hm : InText m text) (hvalue : IsCommentBody value) :
    ∃ m', Lexes ('<' :: '!' :: '-' :: '-' :: (value ++ ['-', '-', '>'])) m
        (textTokens text ++ [.comment (value.map visible)]) m' ∧ InText m' [] := by
  have hopen : Lexes ['!', '-', '-'] (m.goTo .tagOpen) []
      (({ m.goTo .tagOpen with comment := [] } : Machine).goTo .commentStart) := by
    refine lexes_of_step fun rest => ?_
    rw [countLine_of_ne (by decide), step]
    rfl
  have hstart : InComment (({ m.goTo .tagOpen with comment := [] } : Machine).goTo .commentStart)
      text [] := ⟨⟨[], [], .start, rfl, rfl⟩, hm.key, hm.text⟩
  obtain ⟨body, hbody, hread⟩ := hstart.lexes_body fun first second hsplit =>
    hvalue.not_isAtEnd hsplit
  obtain ⟨m', hend, hm'⟩ := hread.lexes_end
  exact ⟨m', (lexes_less hm).cons (hopen.append (hbody.append hend)), hm'⟩

end

end Markup.Lexer

/-! ### Signals -/

def renderedAttributes (marker : Char) (first : Nat) : List Attribute → List (String × String)
  | [] => []
  | entry :: attributes => (entry.name, String.ofList (entry.value.markup marker first)) ::
      renderedAttributes marker (first + entry.value.slots.length) attributes

def numberAttributes (index : Nat) : List (String × String) :=
  [(numberAttribute, String.ofList (Nat.toDigits 10 index))]

/-- What an item means in markup: a piece of a text, or a token on some line. -/
def Item.signal (marker : Char) (first : Nat) : Item → Piece ⊕ (Nat → Markup.Token)
  | .text chars => .inl (.text chars.toList)
  | .tag (.expression _) => .inl (.hole (some first))
  | .tag (.partialCall _) => .inl (.hole (some first))
  | .tag (.comment _) => .inr fun _ => .comment (placeholderText marker first)
  | .tag (.openBlock _) => .inr fun line => .startTag
      { name := blockTag, attributes := numberAttributes first, selfClosing := false } line
  | .tag (.elseBranch none) => .inr fun line => .startTag
      { name := elseTag, attributes := [], selfClosing := false } line
  | .tag (.elseBranch (some _)) => .inr fun line => .startTag
      { name := elseTag, attributes := numberAttributes first, selfClosing := false } line
  | .tag (.closeBlock _) => .inr fun line => .endTag blockTag line
  | .comment value => .inr fun _ => .comment value.toList
  | .startTag name attributes selfClosing => .inr fun line => .startTag
      { name, attributes := renderedAttributes marker first attributes, selfClosing } line
  | .endTag name => .inr fun line => .endTag name line

namespace Markup.Lexer

variable {marker : Char}

theorem isTextual_of_isTextChar {c : Char} (h : isTextChar isKept c = true) : IsTextual c := by
  simp only [isTextChar, Bool.and_eq_true, bne_iff_ne] at h
  exact ⟨h.1.1.1.2, h.1.1.2, h.1.1.1.1⟩

theorem isQuotable_of_isQuotedChar {c : Char} (h : isQuotedChar isKept c = true) :
    IsQuotable c := by
  simp only [isQuotedChar, isTextChar, Bool.and_eq_true, bne_iff_ne] at h
  exact ⟨h.2, h.1.1.1.2, h.1.1.1.1.1⟩

theorem mem_placeholderText_ne (hmarker : IsMarker marker) {n : Nat} {c d : Char}
    (hc : c ∈ placeholderText marker n) (hd : Text.isAsciiDigit d = false)
    (hlow : d.toNat < 0xE000) : c ≠ d := by
  rw [placeholderText, List.cons_append, List.mem_cons, List.mem_append,
    List.mem_singleton] at hc
  rcases hc with rfl | hc | rfl
  · exact hmarker.ne hlow
  · rintro rfl
    rw [isAsciiDigit_of_mem_toDigits hc] at hd
    cases hd
  · exact hmarker.ne hlow

theorem isKept_of_mem_placeholderText (hmarker : IsMarker marker) {n : Nat} {c : Char}
    (hc : c ∈ placeholderText marker n) : isKept c = true := by
  simp [isKept, mem_placeholderText_ne hmarker hc (d := '\r') (by decide) (by decide),
    mem_placeholderText_ne hmarker hc (d := '\x00') (by decide) (by decide)]

theorem isTextual_of_mem_placeholderText (hmarker : IsMarker marker) {n : Nat} {c : Char}
    (hc : c ∈ placeholderText marker n) : IsTextual c :=
  ⟨mem_placeholderText_ne hmarker hc (by decide) (by decide),
    mem_placeholderText_ne hmarker hc (by decide) (by decide),
    isKept_of_mem_placeholderText hmarker hc⟩

theorem isQuotable_of_mem_placeholderText (hmarker : IsMarker marker) {n : Nat} {c : Char}
    (hc : c ∈ placeholderText marker n) : IsQuotable c :=
  ⟨mem_placeholderText_ne hmarker hc (by decide) (by decide),
    mem_placeholderText_ne hmarker hc (by decide) (by decide),
    isKept_of_mem_placeholderText hmarker hc⟩

theorem isQuotable_of_isAsciiDigit {c : Char} (h : Text.isAsciiDigit c = true) : IsQuotable c := by
  have hrange := toNat_of_isAsciiDigit h
  have hne : ∀ d : Char, d.toNat < 48 → c ≠ d := by
    rintro d hd rfl
    omega
  refine ⟨hne '"' (by decide), hne '&' (by decide), ?_⟩
  simp [isKept, hne '\r' (by decide), hne '\x00' (by decide)]

theorem isCommentBody_of_not_mem {value : List Char} (h : '>' ∉ value) : IsCommentBody value where
  dashes hend := by
    have hmem : '>' ∈ '<' :: '!' :: '-' :: '-' :: (value ++ ['-', '-']) :=
      hend.subset (by decide)
    simp [h] at hmem
  bang hend := h (hend.subset (by decide))

theorem isCommentBody_placeholderText (hmarker : IsMarker marker) (n : Nat) :
    IsCommentBody (placeholderText marker n) :=
  isCommentBody_of_not_mem fun hmem =>
    mem_placeholderText_ne hmarker hmem (by decide) (by decide) rfl

theorem isCommentBody_of_isPlainComment {value : String} (h : isPlainComment value = true) :
    IsCommentBody value.toList := by
  have hundashed := undashed_of_isPlainComment h
  simp only [isPlainComment, Bool.and_eq_true, bne_iff_ne] at h
  have hcut := Lifting.cutAt?_markupComment hundashed h.1.1.2 h.1.2 []
  refine ⟨((Text.cutAt?_eq_some_iff (List.cons_ne_nil _ _)).1 hcut).2, fun hbang => ?_⟩
  have hdashes : ['-', '-'] <:+: value.toList :=
    List.IsInfix.trans ⟨[], ['!', '>'], rfl⟩ hbang
  exact Bool.eq_false_iff.1 hundashed.single (Text.contains_iff.2 hdashes)

/-! ### Items -/

theorem isQuotable_of_mem_piecesOfParts (hmarker : IsMarker marker) {parts : List Statement}
    (h : ∀ part ∈ parts, part.isPlainInValue isKept = true) (first : Nat) :
    ∀ c ∈ (piecesOfParts first parts).flatMap (Piece.rendered marker), IsQuotable c := by
  induction parts generalizing first with
  | nil =>
    intro c hc
    cases hc
  | cons part parts ih =>
    have hpart := h part List.mem_cons_self
    have hrest : ∀ part ∈ parts, part.isPlainInValue isKept = true :=
      fun part hp => h part (List.mem_cons_of_mem _ hp)
    cases part with
    | text chars =>
      simp only [Statement.isPlainInValue, Bool.and_eq_true, List.all_eq_true] at hpart
      intro c hc
      rw [piecesOfParts, List.flatMap_cons, List.mem_append] at hc
      rcases hc with hc | hc
      · exact isQuotable_of_isQuotedChar (hpart.2 c hc)
      · exact ih hrest first c hc
    | mustache m =>
      intro c hc
      rw [piecesOfParts, List.flatMap_cons, List.mem_append] at hc
      rcases hc with hc | hc
      · exact isQuotable_of_mem_placeholderText hmarker hc
      · exact ih hrest (first + 1) c hc
    | _ => cases hpart

theorem isQuotable_of_mem_markup (hmarker : IsMarker marker) {value : AttributeValue}
    (h : value.isPlain isKept = true) (first : Nat) :
    ∀ c ∈ value.markup marker first, IsQuotable c := by
  cases value with
  | text chars =>
    simp only [AttributeValue.isPlain, List.all_eq_true] at h
    intro c hc
    rw [AttributeValue.markup, AttributeValue.pieces] at hc
    split at hc
    · cases hc
    · rw [List.flatMap_singleton] at hc
      exact isQuotable_of_isQuotedChar (h c hc)
  | mustache m =>
    intro c hc
    rw [AttributeValue.markup, AttributeValue.pieces, List.flatMap_singleton] at hc
    exact isQuotable_of_mem_placeholderText hmarker hc
  | concat parts =>
    simp only [AttributeValue.isPlain, Bool.and_eq_true, List.all_eq_true] at h
    exact isQuotable_of_mem_piecesOfParts hmarker h.1.1 first

theorem InTag.lexes_attributes (hmarker : IsMarker marker) {m : Machine} {text name : List Char}
    {before : List (String × String)} (hm : InTag m text false name before)
    {attributes : List Attribute}
    (hplain : ∀ entry ∈ attributes,
      isSmallName entry.name = true ∧ entry.value.isPlain isKept = true)
    (hnodup : (before.map Prod.fst ++ attributes.map Attribute.name).Nodup) (first : Nat) :
    ∃ m', Lexes (attributesMarkup marker first attributes) m [] m' ∧
      InTag m' text false name (before ++ renderedAttributes marker first attributes) := by
  induction attributes generalizing m before first with
  | nil => exact ⟨m, lexes_nil m, by rwa [renderedAttributes, List.append_nil]⟩
  | cons entry attributes ih =>
    obtain ⟨hname, hvalue⟩ := hplain entry List.mem_cons_self
    have hofList : String.ofList entry.name.toList = entry.name := String.ofList_toList
    have hnew : ∀ other ∈ before, other.1 ≠ String.ofList entry.name.toList := by
      intro other hother heq
      rw [hofList] at heq
      rw [List.nodup_append] at hnodup
      exact hnodup.2.2 other.1 (List.mem_map_of_mem hother) entry.name (by simp) heq
    obtain ⟨middle, hfirst, hmiddle⟩ := hm.lexes_attribute (isName_of_isSmallName hname)
      (isQuotable_of_mem_markup hmarker hvalue first) hnew
    rw [hofList] at hmiddle
    have hnodup' : ((before ++ [(entry.name, String.ofList (entry.value.markup marker first))]).map
        Prod.fst ++ attributes.map Attribute.name).Nodup := by
      simpa using hnodup
    obtain ⟨m', hrest, hm'⟩ := ih hmiddle
      (fun entry he => hplain entry (List.mem_cons_of_mem _ he)) hnodup'
      (first + entry.value.slots.length)
    have hlexes := hfirst.append hrest
    refine ⟨m', ?_, ?_⟩
    · rw [attributesMarkup]
      simpa only [List.cons_append, List.append_assoc, List.singleton_append, List.nil_append]
        using hlexes
    · rw [renderedAttributes]
      simpa only [List.append_assoc, List.singleton_append] using hm'

theorem isName_of_dashed {c : Char} {cs : List Char} (hc : Text.isAsciiLower c = true)
    (h : cs.all (fun d => Text.isAsciiLower d || d == '-') = true) : IsName (c :: cs) := by
  simp only [List.all_eq_true, Bool.or_eq_true, beq_iff_eq] at h
  refine ⟨⟨c, cs, rfl, Lifting.isSmall_of_isAsciiLower hc⟩, fun d hd => ?_⟩
  rcases List.mem_cons.1 hd with rfl | hd
  · exact isNamed_of_isSmall (Lifting.isSmall_of_isAsciiLower hc)
  · rcases h d hd with hlower | rfl
    · exact isNamed_of_isSmall (Lifting.isSmall_of_isAsciiLower hlower)
    · exact isNamed_dash

/-- A start tag gives its token, after the text before it. -/
theorem InText.lexes_startTag {m : Machine} {text name : List Char} (hm : InText m text)
    (hname : IsName name) (hmarkup : contentOf (String.ofList name) = .markup)
    {source : List Char} {attributes : List (String × String)}
    (hattributes : ∀ n, InTag n text false name [] →
      ∃ n', Lexes source n [] n' ∧ InTag n' text false name attributes)
    (selfClosing : Bool) :
    ∃ line m', Lexes ('<' :: (name ++ (source ++ tagEnd selfClosing))) m (textTokens text ++
        [.startTag { name := String.ofList name, attributes, selfClosing } line]) m' ∧
      InText m' [] := by
  obtain ⟨opened, hopen, -, hopened⟩ := lexes_openTag hm hname
  obtain ⟨read, hread, hin⟩ := hattributes opened hopened
  obtain ⟨line, m', hend, hm'⟩ := hin.lexes_tagEnd hmarkup selfClosing
  exact ⟨line, m', hopen.append (hread.append hend), hm'⟩

/-- The start tag with a number that stands for a block or an `else if`. -/
theorem InText.lexes_numberedTag {m : Machine} {text : List Char} (hm : InText m text)
    {tag : String} (hname : IsName tag.toList) (hmarkup : contentOf tag = .markup)
    (index : Nat) :
    ∃ line m', Lexes (Lifting.numberedTag tag index) m (textTokens text ++ [.startTag
        { name := tag, attributes := numberAttributes index, selfClosing := false } line]) m' ∧
      InText m' [] := by
  have hofList : String.ofList tag.toList = tag := String.ofList_toList
  have hkey : IsName numberAttribute.toList := by
    have hchars : numberAttribute.toList = 'd' :: "ata-hbs-id".toList := by decide
    rw [hchars]
    exact isName_of_dashed (by decide) (by decide)
  have hkeyName : String.ofList numberAttribute.toList = numberAttribute := String.ofList_toList
  have hdigits : ∀ c ∈ Nat.toDigits 10 index, IsQuotable c :=
    fun c hc => isQuotable_of_isAsciiDigit (isAsciiDigit_of_mem_toDigits hc)
  have hlexes := hm.lexes_startTag hname (by rw [hofList]; exact hmarkup)
    (fun n hn => hn.lexes_attribute hkey hdigits (by simp)) false
  rw [hofList, hkeyName, List.nil_append] at hlexes
  have hsource : Lifting.numberedTag tag index = '<' :: (tag.toList ++
      (' ' :: (numberAttribute.toList ++ '=' :: '"' :: (Nat.toDigits 10 index ++ ['"'])) ++
        tagEnd false)) := by
    simp [Lifting.numberedTag, tagEnd]
  rw [hsource]
  exact hlexes

/-- A piece of a text is added to the text that is pending. -/
theorem InText.lexes_piece (hmarker : IsMarker marker) {m : Machine} {text : List Char}
    (hm : InText m text) {item : Item} (hitem : item.isPlain isKept = true) {first : Nat}
    {piece : Piece} (hsignal : item.signal marker first = .inl piece) :
    ∃ m', Lexes (item.markup marker first) m [] m' ∧
      InText m' (text ++ piece.rendered marker) := by
  have hhole : ∀ c ∈ placeholderText marker first, IsTextual c :=
    fun c hc => isTextual_of_mem_placeholderText hmarker hc
  cases item with
  | text chars =>
    simp only [Item.isPlain, Bool.and_eq_true, List.all_eq_true] at hitem
    cases hsignal
    exact hm.lexes_text fun c hc => isTextual_of_isTextChar (hitem.2 c hc)
  | tag t =>
    cases t with
    | expression m =>
      cases hsignal
      exact hm.lexes_text hhole
    | partialCall call =>
      cases hsignal
      exact hm.lexes_text hhole
    | elseBranch chain =>
      cases chain with
      | none => cases hsignal
      | some head => cases hsignal
    | _ => cases hsignal
  | _ => cases hsignal

theorem isName_blockTag : IsName blockTag.toList := by
  have hchars : blockTag.toList = 'h' :: "bs-block".toList := by decide
  rw [hchars]
  exact isName_of_dashed (by decide) (by decide)

theorem isName_elseTag : IsName elseTag.toList := by
  have hchars : elseTag.toList = 'h' :: "bs-else".toList := by decide
  rw [hchars]
  exact isName_of_dashed (by decide) (by decide)

/-- A tag that is no piece of a text gives its token, after the text before it. -/
theorem InText.lexes_tag (hmarker : IsMarker marker) {m : Machine} {text : List Char}
    (hm : InText m text) {t : Tag} {first : Nat} {token : Nat → Token}
    (hsignal : (Item.tag t).signal marker first = .inr token) :
    ∃ line m', Lexes (t.markup marker first) m (textTokens text ++ [token line]) m' ∧
      InText m' [] := by
  cases t with
  | expression m => cases hsignal
  | comment value =>
    cases hsignal
    obtain ⟨m', hlexes, hm'⟩ := hm.lexes_comment (isCommentBody_placeholderText hmarker first)
    rw [map_visible fun c hc => isKept_of_mem_placeholderText hmarker hc] at hlexes
    have hopen : "<!--".toList = ['<', '!', '-', '-'] := by decide
    have hclose : "-->".toList = ['-', '-', '>'] := by decide
    refine ⟨0, m', ?_, hm'⟩
    rw [Tag.markup, hopen, hclose]
    simpa only [List.cons_append, List.nil_append] using hlexes
  | partialCall call => cases hsignal
  | openBlock head =>
    cases hsignal
    exact hm.lexes_numberedTag isName_blockTag (by decide) first
  | elseBranch chain =>
    cases chain with
    | some head =>
      cases hsignal
      exact hm.lexes_numberedTag isName_elseTag (by decide) first
    | none =>
      cases hsignal
      have hofList : String.ofList elseTag.toList = elseTag := String.ofList_toList
      have hlexes := hm.lexes_startTag isName_elseTag (by rw [hofList]; decide)
        (fun n hn => ⟨n, lexes_nil n, hn⟩) false
      rw [hofList] at hlexes
      exact hlexes
  | closeBlock name =>
    cases hsignal
    have hofList : String.ofList blockTag.toList = blockTag := String.ofList_toList
    have hlexes := hm.lexes_endTag isName_blockTag
    rw [hofList] at hlexes
    exact hlexes

/-- Any other item gives its token, after the text before it. -/
theorem InText.lexes_token (hmarker : IsMarker marker) {m : Machine} {text : List Char}
    (hm : InText m text) {item : Item} (hitem : item.isPlain isKept = true) {first : Nat}
    {token : Nat → Token} (hsignal : item.signal marker first = .inr token) :
    ∃ line m', Lexes (item.markup marker first) m (textTokens text ++ [token line]) m' ∧
      InText m' [] := by
  cases item with
  | text chars => cases hsignal
  | tag t => exact hm.lexes_tag hmarker hsignal
  | comment value =>
    simp only [Item.isPlain, Bool.and_eq_true] at hitem
    cases hsignal
    obtain ⟨m', hlexes, hm'⟩ := hm.lexes_comment (isCommentBody_of_isPlainComment hitem.1)
    rw [map_visible (List.all_eq_true.1 hitem.2)] at hlexes
    exact ⟨0, m', hlexes, hm'⟩
  | startTag tag attributes selfClosing =>
    simp only [Item.isPlain, isPlainTagName, attributesArePlain, Bool.and_eq_true,
      List.all_eq_true, beq_iff_eq, decide_eq_true_eq] at hitem
    obtain ⟨⟨⟨hname, -⟩, hmarkup⟩, hattributes, hnodup⟩ := hitem
    have hofList : String.ofList tag.toList = tag := String.ofList_toList
    cases hsignal
    have hlexes := hm.lexes_startTag (isName_of_isSmallName hname)
      (by rw [hofList]; exact hmarkup)
      (fun n hn => hn.lexes_attributes hmarker hattributes (by simpa using hnodup) first)
      selfClosing
    rw [hofList] at hlexes
    exact hlexes
  | endTag tag =>
    simp only [Item.isPlain, isPlainTagName, Bool.and_eq_true] at hitem
    have hofList : String.ofList tag.toList = tag := String.ofList_toList
    cases hsignal
    have hlexes := hm.lexes_endTag (isName_of_isSmallName hitem.1.1)
    rw [hofList] at hlexes
    exact hlexes

/-! ### Line ends and the byte order mark -/

theorem unifyLineEnds_of_forall {cs : List Char} (h : ∀ c ∈ cs, c ≠ '\r') :
    unifyLineEnds cs = cs := by
  induction cs with
  | nil => rfl
  | cons c cs ih =>
    have hc := h c List.mem_cons_self
    rw [unifyLineEnds, ih fun d hd => h d (List.mem_cons_of_mem _ hd)]
    · rintro ds rfl
      exact absurd rfl hc
    · rintro rfl
      exact absurd rfl hc

theorem withoutMark_of_ne {cs : List Char} (h : cs.head? ≠ some '\ufeff') :
    withoutMark cs = cs := by
  unfold withoutMark
  split
  · exact absurd rfl h
  · rfl

theorem ne_of_isKept {c : Char} (h : isKept c = true) : c ≠ '\r' := by
  simp only [isKept, Bool.and_eq_true, bne_iff_ne] at h
  exact h.1

theorem ne_of_mem_smallName {name : String} (h : isSmallName name = true) {c d : Char}
    (hc : c ∈ name.toList) (hd : isNameChar d = false) : c ≠ d :=
  ne_of_isNameChar ((Lifting.small_chars h).2 c hc).name hd

theorem mem_attributesMarkup_ne (hmarker : IsMarker marker) {attributes : List Attribute}
    (h : ∀ entry ∈ attributes,
      isSmallName entry.name = true ∧ entry.value.isPlain isKept = true) (first : Nat) :
    ∀ c ∈ attributesMarkup marker first attributes, c ≠ '\r' := by
  induction attributes generalizing first with
  | nil =>
    intro c hc
    cases hc
  | cons entry attributes ih =>
    obtain ⟨hname, hvalue⟩ := h entry List.mem_cons_self
    intro c hc
    simp only [attributesMarkup, List.mem_cons, List.mem_append] at hc
    rcases hc with rfl | hc | rfl | rfl | hc | rfl | hc
    · decide
    · exact ne_of_mem_smallName hname hc (by decide)
    · decide
    · decide
    · exact ne_of_isKept (isQuotable_of_mem_markup hmarker hvalue first c hc).2.2
    · decide
    · exact ih (fun entry he => h entry (List.mem_cons_of_mem _ he)) _ c hc

theorem mem_numberedTag_ne {tag : String} (htag : ∀ c ∈ tag.toList, c ≠ '\r') (index : Nat) :
    ∀ c ∈ Lifting.numberedTag tag index, c ≠ '\r' := by
  have hnumber : ∀ c ∈ numberAttribute.toList, c ≠ '\r' := List.forall_mem_ne'.2 (by decide)
  intro c hc
  simp only [Lifting.numberedTag, List.mem_append, List.mem_cons, List.not_mem_nil,
    or_false] at hc
  rcases hc with ((((rfl | hc) | rfl | hc) | rfl | rfl) | hc) | rfl | rfl
  · decide
  · exact htag c hc
  · decide
  · exact hnumber c hc
  · decide
  · decide
  · exact ne_of_isKept (isQuotable_of_isAsciiDigit (isAsciiDigit_of_mem_toDigits hc)).2.2
  · decide
  · decide

theorem mem_tagMarkup_ne (hmarker : IsMarker marker) (t : Tag) (first : Nat) :
    ∀ c ∈ t.markup marker first, c ≠ '\r' := by
  have hhole : ∀ c ∈ placeholderText marker first, c ≠ '\r' :=
    fun c hc => ne_of_isKept (isKept_of_mem_placeholderText hmarker hc)
  have hopen : ∀ c ∈ "<!--".toList, c ≠ '\r' := List.forall_mem_ne'.2 (by decide)
  have hclose : ∀ c ∈ "-->".toList, c ≠ '\r' := List.forall_mem_ne'.2 (by decide)
  have hblock : ∀ c ∈ blockTag.toList, c ≠ '\r' := List.forall_mem_ne'.2 (by decide)
  have helse : ∀ c ∈ elseTag.toList, c ≠ '\r' := List.forall_mem_ne'.2 (by decide)
  intro c hc
  cases t with
  | expression m => exact hhole c hc
  | comment value =>
    simp only [Tag.markup, List.mem_append] at hc
    rcases hc with (hc | hc) | hc
    · exact hopen c hc
    · exact hhole c hc
    · exact hclose c hc
  | partialCall call => exact hhole c hc
  | openBlock head => exact mem_numberedTag_ne hblock first c hc
  | elseBranch chain =>
    cases chain with
    | some head => exact mem_numberedTag_ne helse first c hc
    | none =>
      simp only [Tag.markup, List.mem_append, List.mem_cons, List.not_mem_nil, or_false] at hc
      rcases hc with (rfl | hc) | rfl
      · decide
      · exact helse c hc
      · decide
  | closeBlock name =>
    simp only [Tag.markup, List.mem_append, List.mem_cons, List.not_mem_nil, or_false] at hc
    rcases hc with (rfl | rfl | hc) | rfl
    · decide
    · decide
    · exact hblock c hc
    · decide

theorem mem_itemMarkup_ne (hmarker : IsMarker marker) {item : Item}
    (h : item.isPlain isKept = true) (first : Nat) :
    ∀ c ∈ item.markup marker first, c ≠ '\r' := by
  intro c hc
  cases item with
  | text chars =>
    simp only [Item.isPlain, Bool.and_eq_true, List.all_eq_true] at h
    exact ne_of_isKept (isTextual_of_isTextChar (h.2 c hc)).2.2
  | tag t => exact mem_tagMarkup_ne hmarker t first c hc
  | comment value =>
    simp only [Item.isPlain, Bool.and_eq_true, List.all_eq_true] at h
    simp only [Item.markup, List.mem_append, List.mem_cons, List.not_mem_nil, or_false] at hc
    rcases hc with rfl | rfl | rfl | rfl | hc | rfl | rfl | rfl
    · decide
    · decide
    · decide
    · decide
    · exact ne_of_isKept (h.2 c hc)
    · decide
    · decide
    · decide
  | startTag tag attributes selfClosing =>
    have hend : ∀ c ∈ tagEnd selfClosing, c ≠ '\r' := by
      cases selfClosing with
      | true => exact List.forall_mem_ne'.2 (by decide)
      | false => exact List.forall_mem_ne'.2 (by decide)
    simp only [Item.isPlain, isPlainTagName, attributesArePlain, Bool.and_eq_true,
      List.all_eq_true] at h
    simp only [Item.markup, List.mem_cons, List.mem_append] at hc
    rcases hc with rfl | hc | hc | hc
    · decide
    · exact ne_of_mem_smallName h.1.1.1 hc (by decide)
    · exact mem_attributesMarkup_ne hmarker h.2.1 first c hc
    · exact hend c hc
  | endTag tag =>
    simp only [Item.isPlain, isPlainTagName, Bool.and_eq_true] at h
    simp only [Item.markup, List.mem_cons, List.mem_append, List.not_mem_nil, or_false] at hc
    rcases hc with rfl | rfl | hc | rfl
    · decide
    · decide
    · exact ne_of_mem_smallName h.1.1 hc (by decide)
    · decide

theorem mem_itemsMarkup_ne (hmarker : IsMarker marker) {items : List Item}
    (h : ∀ item ∈ items, item.isPlain isKept = true) (first : Nat) :
    ∀ c ∈ itemsMarkup marker first items, c ≠ '\r' := by
  induction items generalizing first with
  | nil =>
    intro c hc
    cases hc
  | cons item items ih =>
    intro c hc
    rw [itemsMarkup, List.mem_append] at hc
    rcases hc with hc | hc
    · exact mem_itemMarkup_ne hmarker (h item List.mem_cons_self) first c hc
    · exact ih (fun item hi => h item (List.mem_cons_of_mem _ hi)) _ c hc

/-- Markup begins with a byte order mark only if what is printed does. -/
theorem head?_itemsMarkup_ne (hmarker : IsMarker marker) {items : List Item}
    (h : ∀ item ∈ items, item.isPlain isKept = true) (first : Nat)
    (hmark : (items.flatMap Item.printed).head? ≠ some '\ufeff') :
    (itemsMarkup marker first items).head? ≠ some '\ufeff' := by
  have hmarkerMark : marker ≠ '\ufeff' := by
    rintro rfl
    exact absurd hmarker.2 (by decide)
  cases items with
  | nil => simp [itemsMarkup]
  | cons item items =>
    have hitem := h item List.mem_cons_self
    rw [itemsMarkup]
    cases item with
    | text chars =>
      simp only [Item.isPlain, Bool.and_eq_true, Bool.not_eq_true', List.isEmpty_eq_false_iff]
        at hitem
      rw [List.flatMap_cons, Item.printed, List.head?_append_of_ne_nil _ hitem.1] at hmark
      rw [Item.markup, List.head?_append_of_ne_nil _ hitem.1]
      exact hmark
    | tag t =>
      cases t with
      | expression m => simpa [Item.markup, Tag.markup, placeholderText] using hmarkerMark
      | partialCall call => simpa [Item.markup, Tag.markup, placeholderText] using hmarkerMark
      | comment value =>
        have hopen : "<!--".toList = ['<', '!', '-', '-'] := by decide
        simp [Item.markup, Tag.markup, hopen]
      | openBlock head => simp [Item.markup, Tag.markup, Lifting.numberedTag]
      | elseBranch chain =>
        cases chain with
        | none => simp [Item.markup, Tag.markup]
        | some head => simp [Item.markup, Tag.markup, Lifting.numberedTag]
      | closeBlock name => simp [Item.markup, Tag.markup]
    | _ => simp [Item.markup]

end Markup.Lexer

end MustacheJsx
